import Mathlib.Tactic.Common

/-!
# Bytes as hexadecimal text

A byte is written as two digits. Reading takes either case, so that a text has
one reading and bytes have several spellings (`decode_encode`, `decode_upper`).
-/

namespace CeQuery

namespace Hex

/-- The value of a digit, in either case. -/
def digitValue (c : Char) : Option Nat :=
  if '0' ≤ c ∧ c ≤ '9' then some (c.toNat - '0'.toNat)
  else if 'a' ≤ c ∧ c ≤ 'f' then some (c.toNat - 'a'.toNat + 10)
  else if 'A' ≤ c ∧ c ≤ 'F' then some (c.toNat - 'A'.toNat + 10)
  else none

/-- Read the bytes of a text; nothing if there is another character or half a
byte. -/
def decode : List Char → Option (List UInt8)
  | [] => some []
  | [_] => none
  | high :: low :: rest => do
      let h ← digitValue high
      let l ← digitValue low
      let bytes ← decode rest
      some (UInt8.ofNat (16 * h + l) :: bytes)

/-- The digit of a value below sixteen. -/
def digit (n : Nat) : Char :=
  if n < 10 then Char.ofNat ('0'.toNat + n) else Char.ofNat ('a'.toNat + (n - 10))

/-- Write bytes in lower case. -/
def encode : List UInt8 → List Char
  | [] => []
  | b :: bytes => digit (b.toNat / 16) :: digit (b.toNat % 16) :: encode bytes

private theorem digitValue_digit_fin : ∀ n : Fin 16, digitValue (digit n) = some n := by
  decide

private theorem digitValue_toUpper_fin : ∀ n : Fin 16,
    digitValue (digit n).toUpper = some n := by
  decide

theorem digitValue_digit {n : Nat} (h : n < 16) : digitValue (digit n) = some n :=
  digitValue_digit_fin ⟨n, h⟩

theorem digitValue_toUpper {n : Nat} (h : n < 16) : digitValue (digit n).toUpper = some n :=
  digitValue_toUpper_fin ⟨n, h⟩

private theorem byte_of_halves (b : UInt8) :
    UInt8.ofNat (16 * (b.toNat / 16) + b.toNat % 16) = b := by
  rw [Nat.div_add_mod]
  exact UInt8.ofNat_toNat

/-- What is written are digits. -/
theorem exists_digit_of_mem {c : Char} {bytes : List UInt8} (h : c ∈ encode bytes) :
    ∃ n < 16, c = digit n := by
  induction bytes with
  | nil => cases h
  | cons b bytes ih =>
      have hbyte := b.toNat_lt
      rw [encode, List.mem_cons, List.mem_cons] at h
      obtain rfl | rfl | h := h
      · exact ⟨b.toNat / 16, by omega, rfl⟩
      · exact ⟨b.toNat % 16, by omega, rfl⟩
      · exact ih h

/-- Reading takes back what was written. -/
theorem decode_encode (bytes : List UInt8) : decode (encode bytes) = some bytes := by
  induction bytes with
  | nil => rfl
  | cons b bytes ih =>
      have hbyte := b.toNat_lt
      rw [encode, decode, digitValue_digit (by omega), digitValue_digit (by omega), ih]
      exact congrArg (fun byte => some (byte :: bytes)) (byte_of_halves b)

/-- The case of the digits does not matter. -/
theorem decode_upper (bytes : List UInt8) :
    decode ((encode bytes).map Char.toUpper) = some bytes := by
  induction bytes with
  | nil => rfl
  | cons b bytes ih =>
      have hbyte := b.toNat_lt
      rw [encode, List.map_cons, List.map_cons, decode, digitValue_toUpper (by omega),
        digitValue_toUpper (by omega), ih]
      exact congrArg (fun byte => some (byte :: bytes)) (byte_of_halves b)

end Hex

end CeQuery
