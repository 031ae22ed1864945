import Mathlib.Tactic.Common
import Mathlib.Algebra.Order.Ring.Int
import Mathlib.Data.Nat.Log

/-!
# Rounding integers to 53 significant bits

`nearest n` is the multiple of the spacing at `n` that is nearest to `n`; a tie goes
to the even multiple. It is what the conversion of an integer to a binary64 number
computes. Rounding is monotone (`nearest_mono`) and keeps exactly the integers that
are multiples of their spacing (`nearest_eq_self_iff`).
-/

namespace CeQuery

/-- The distance of neighbours at `n` among the numbers with 53 significant bits. -/
def spacing (n : Nat) : Nat :=
  2 ^ (n.log2 - 52)

/-- `n / p`, rounded to the nearest integer and from a tie to the even one. -/
def roundedDiv (n p : Nat) : Nat :=
  if 2 * (n % p) < p then n / p
  else if 2 * (n % p) = p then n / p + n / p % 2
  else n / p + 1

def nearestNat (n : Nat) : Nat :=
  roundedDiv n (spacing n) * spacing n

/-- The number with 53 significant bits that is nearest to `n`. -/
def nearest (n : Int) : Int :=
  n.sign * nearestNat n.natAbs

variable {a b c k n p : Nat}

theorem spacing_pos : 0 < spacing n :=
  Nat.two_pow_pos _

theorem roundedDiv_mono (h : a ≤ b) : roundedDiv a p ≤ roundedDiv b p := by
  have hquotient : a / p ≤ b / p := Nat.div_le_div_right h
  obtain hlt | heq := hquotient.lt_or_eq
  · rw [roundedDiv, roundedDiv]
    split_ifs <;> omega
  · have ha := Nat.mod_add_div a p
    have hb := Nat.mod_add_div b p
    rw [heq] at ha
    rw [roundedDiv, roundedDiv, heq]
    split_ifs <;> omega

theorem roundedDiv_mul_eq_iff (hp : 0 < p) : roundedDiv n p * p = n ↔ p ∣ n := by
  have hsplit := Nat.mod_add_div n p
  have hrest := Nat.mod_lt n hp
  rw [Nat.dvd_iff_mod_eq_zero, roundedDiv, Nat.mul_comm]
  split_ifs with hlow htie
  · omega
  · rw [Nat.mul_add]
    obtain heven | hodd := Nat.mod_two_eq_zero_or_one (n / p)
    · rw [heven]
      omega
    · rw [hodd]
      omega
  · rw [Nat.mul_add]
    omega

theorem roundedDiv_one : roundedDiv n 1 = n := by
  simp [roundedDiv, Nat.mod_one]

theorem roundedDiv_mul_right (hc : 0 < c) : roundedDiv (n * c) (p * c) = roundedDiv n p := by
  have hlow : 2 * (n * c % (p * c)) < p * c ↔ 2 * (n % p) < p := by
    rw [Nat.mul_mod_mul_right, ← Nat.mul_assoc]
    exact Nat.mul_lt_mul_right hc
  have htie : 2 * (n * c % (p * c)) = p * c ↔ 2 * (n % p) = p := by
    rw [Nat.mul_mod_mul_right, ← Nat.mul_assoc]
    exact Nat.mul_left_inj hc.ne'
  rw [roundedDiv, roundedDiv, if_congr hlow rfl (if_congr htie rfl rfl),
    Nat.mul_div_mul_right n p hc]

theorem log2_mul_two_pow (hn : n ≠ 0) : (n * 2 ^ k).log2 = n.log2 + k := by
  have hpos : 0 < 2 ^ k := Nat.two_pow_pos k
  rw [Nat.log2_eq_iff (Nat.mul_ne_zero hn hpos.ne'), Nat.add_right_comm, Nat.pow_add, Nat.pow_add]
  refine ⟨?_, ?_⟩
  · exact Nat.mul_le_mul_right _ (Nat.log2_self_le hn)
  · exact Nat.mul_lt_mul_of_pos_right Nat.lt_log2_self hpos

/-- The numbers below `2 ^ 53` are kept. -/
theorem spacing_of_log2_le (h : n.log2 ≤ 52) : spacing n = 1 := by
  rw [spacing, Nat.sub_eq_zero_of_le h, Nat.pow_zero]

theorem le_div_spacing (hn : n ≠ 0) (h : 52 ≤ n.log2) : 2 ^ 52 ≤ n / spacing n := by
  rw [Nat.le_div_iff_mul_le spacing_pos, spacing, ← Nat.pow_add]
  have hexponent : 52 + (n.log2 - 52) = n.log2 := by omega
  rw [hexponent]
  exact Nat.log2_self_le hn

theorem div_spacing_lt : n / spacing n < 2 ^ 53 := by
  rw [Nat.div_lt_iff_lt_mul spacing_pos, spacing, ← Nat.pow_add]
  apply Nat.lt_of_lt_of_le Nat.lt_log2_self
  exact Nat.pow_le_pow_right (by omega) (by omega)

theorem div_le_roundedDiv : n / p ≤ roundedDiv n p := by
  rw [roundedDiv]
  split_ifs <;> omega

theorem roundedDiv_le : roundedDiv n p ≤ n / p + 1 := by
  rw [roundedDiv]
  split_ifs <;> omega

/-- A quotient of at most `c`, an odd number, is rounded beyond it exactly from the middle
between `c` and its successor. -/
theorem succ_le_roundedDiv_iff (hp : 0 < p) (hodd : c % 2 = 1) (hle : n / p ≤ c) :
    c + 1 ≤ roundedDiv n p ↔ (2 * c + 1) * p ≤ 2 * n := by
  have hsplit := Nat.mod_add_div n p
  have hrest := Nat.mod_lt n hp
  obtain hlt | heq := hle.lt_or_eq
  · have hrounded : roundedDiv n p ≤ n / p + 1 := roundedDiv_le
    have hproduct : p * (n / p + 1) ≤ p * c := Nat.mul_le_mul_left p hlt
    refine iff_of_false (by omega) ?_
    rw [Nat.add_mul, Nat.mul_assoc, Nat.mul_comm c p]
    rw [Nat.mul_add] at hproduct
    omega
  · rw [roundedDiv, heq, Nat.add_mul, Nat.mul_assoc, Nat.mul_comm c p]
    rw [heq] at hsplit
    split_ifs <;> omega

/-- Rounding does not cross the powers of two. -/
theorem nearestNat_le (n : Nat) : nearestNat n ≤ 2 ^ (n.log2 + 1) := by
  rw [nearestNat]
  by_cases h : n.log2 ≤ 52
  · rw [spacing_of_log2_le h, roundedDiv_one, Nat.mul_one]
    exact Nat.le_of_lt Nat.lt_log2_self
  · have hquotient : roundedDiv n (spacing n) ≤ 2 ^ 53 := by
      have hlt : n / spacing n < 2 ^ 53 := div_spacing_lt
      exact roundedDiv_le.trans hlt
    calc roundedDiv n (spacing n) * spacing n
      _ ≤ 2 ^ 53 * spacing n := Nat.mul_le_mul_right _ hquotient
      _ = 2 ^ (n.log2 + 1) := by
        rw [spacing, ← Nat.pow_add]
        congr 1
        omega

theorem le_nearestNat (hn : n ≠ 0) : 2 ^ n.log2 ≤ nearestNat n := by
  rw [nearestNat]
  by_cases h : n.log2 ≤ 52
  · rw [spacing_of_log2_le h, roundedDiv_one, Nat.mul_one]
    exact Nat.log2_self_le hn
  · calc 2 ^ n.log2
      _ = 2 ^ 52 * spacing n := by
        rw [spacing, ← Nat.pow_add]
        congr 1
        omega
      _ ≤ roundedDiv n (spacing n) * spacing n := by
        apply Nat.mul_le_mul_right
        exact (le_div_spacing hn (by omega)).trans div_le_roundedDiv

@[simp] theorem nearestNat_zero : nearestNat 0 = 0 := by
  decide

/-- Rounding does not depend on the scale. -/
theorem nearestNat_mul_two_pow (n k : Nat) : nearestNat (n * 2 ^ k) = nearestNat n * 2 ^ k := by
  by_cases hn : n = 0
  · rw [hn, Nat.zero_mul, nearestNat_zero, Nat.zero_mul]
  · have hlog := log2_mul_two_pow (k := k) hn
    by_cases hsmall : n.log2 ≤ 52
    · have hexact : nearestNat (n * 2 ^ k) = n * 2 ^ k := by
        refine (roundedDiv_mul_eq_iff spacing_pos).mpr (Nat.dvd_mul_left_of_dvd ?_ n)
        rw [spacing, hlog]
        exact Nat.pow_dvd_pow 2 (by omega)
      rw [hexact, nearestNat, spacing_of_log2_le hsmall, roundedDiv_one, Nat.mul_one]
    · have hspacing : spacing (n * 2 ^ k) = spacing n * 2 ^ k := by
        rw [spacing, spacing, hlog, ← Nat.pow_add]
        congr 1
        omega
      rw [nearestNat, hspacing, roundedDiv_mul_right (Nat.two_pow_pos k), ← Nat.mul_assoc,
        nearestNat]

theorem nearestNat_mono (h : a ≤ b) : nearestNat a ≤ nearestNat b := by
  by_cases ha : a = 0
  · rw [ha, nearestNat_zero]
    exact Nat.zero_le _
  · have hb : b ≠ 0 := by omega
    obtain hlt | heq := ((Nat.le_log2 hb).mpr ((Nat.log2_self_le ha).trans h)).lt_or_eq
    · calc nearestNat a
        _ ≤ 2 ^ (a.log2 + 1) := nearestNat_le a
        _ ≤ 2 ^ b.log2 := Nat.pow_le_pow_right (by omega) hlt
        _ ≤ nearestNat b := le_nearestNat hb
    · have hspacing : spacing a = spacing b := by rw [spacing, heq, spacing]
      rw [nearestNat, nearestNat, hspacing]
      exact Nat.mul_le_mul_right _ (roundedDiv_mono h)

theorem nearest_natCast (n : Nat) : nearest n = nearestNat n := by
  rw [nearest, Int.natAbs_natCast]
  by_cases hn : n = 0
  · simp [hn]
  · rw [Int.sign_natCast_of_ne_zero hn, Int.one_mul]

theorem nearest_neg (n : Int) : nearest (-n) = -nearest n := by
  rw [nearest, nearest, Int.sign_neg, Int.natAbs_neg, Int.neg_mul]

/-- Rounding keeps the order. -/
theorem nearest_mono {a b : Int} (h : a ≤ b) : nearest a ≤ nearest b := by
  obtain ⟨m, rfl | rfl⟩ := a.eq_nat_or_neg <;> obtain ⟨n, rfl | rfl⟩ := b.eq_nat_or_neg
  · rw [nearest_natCast, nearest_natCast]
    exact Int.ofNat_le.mpr (nearestNat_mono (Int.ofNat_le.mp h))
  · have hm : m = 0 := by omega
    have hn : n = 0 := by omega
    subst hm hn
    exact le_refl _
  · rw [nearest_neg, nearest_natCast, nearest_natCast]
    omega
  · rw [nearest_neg, nearest_neg, nearest_natCast, nearest_natCast]
    have hmono : nearestNat n ≤ nearestNat m := nearestNat_mono (by omega)
    omega

/-- Rounding keeps an integer exactly if it is a multiple of its spacing. -/
theorem nearest_eq_self_iff (n : Int) : nearest n = n ↔ spacing n.natAbs ∣ n.natAbs := by
  rw [← roundedDiv_mul_eq_iff spacing_pos]
  change nearest n = n ↔ nearestNat n.natAbs = n.natAbs
  obtain ⟨m, rfl | rfl⟩ := n.eq_nat_or_neg
  · rw [nearest_natCast, Int.natAbs_natCast, Int.natCast_inj]
  · rw [nearest_neg, nearest_natCast, Int.natAbs_neg, Int.natAbs_natCast]
    omega

end CeQuery
