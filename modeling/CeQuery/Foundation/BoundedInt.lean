import Mathlib.Algebra.Ring.Int.Defs
import Mathlib.Algebra.GroupWithZero.Nat
import Mathlib.Tactic.Common

/-!
# Fixed-width integers as bounded mathematical integers

A machine integer is a mathematical integer together with the proof that it
lies in the range of its type. Checked and saturating operations are then
ordinary integer arithmetic followed by a range test, and no later proof has to
establish the range again.

The range is a parameter, so the signed and unsigned types of every width are
instances of one structure. Nothing here wraps: an operation whose exact result
leaves the range either reports it (`checkedAdd`) or stops at the bound
(`saturatingAdd`).
-/

namespace CeQuery

/-- An integer carrying the proof of its own range. -/
@[ext] structure BoundedInt (lo hi : Int) where
  val : Int
  lo_le : lo ≤ val
  le_hi : val ≤ hi
  deriving DecidableEq, Repr

namespace BoundedInt

variable {lo hi : Int}

/-- The range test at every entry point: a value outside the range is refused. -/
def narrow (n : Int) : Option (BoundedInt lo hi) :=
  if h : lo ≤ n ∧ n ≤ hi then some ⟨n, h.1, h.2⟩ else none

/-- Conversion to a type that has at least the same range. -/
def widen {lo' hi' : Int} (n : BoundedInt lo hi) (hlo : lo' ≤ lo) (hhi : hi ≤ hi') :
    BoundedInt lo' hi' :=
  ⟨n.val, Int.le_trans hlo n.lo_le, Int.le_trans n.le_hi hhi⟩

@[simp] theorem widen_val {lo' hi' : Int} (n : BoundedInt lo hi) (hlo : lo' ≤ lo) (hhi : hi ≤ hi') :
    (n.widen hlo hhi).val = n.val :=
  rfl

/-- Exact addition, or nothing when the sum leaves the range. -/
def checkedAdd (a b : BoundedInt lo hi) : Option (BoundedInt lo hi) :=
  narrow (a.val + b.val)

/-- Addition that stops at the bound it would cross. -/
def saturatingAdd (a b : BoundedInt lo hi) : BoundedInt lo hi where
  val := max lo (min hi (a.val + b.val))
  lo_le := Int.le_max_left _ _
  le_hi := by
    have := a.lo_le
    have := a.le_hi
    omega

theorem narrow_of_range {n : Int} (hlo : lo ≤ n) (hhi : n ≤ hi) :
    narrow n = some (⟨n, hlo, hhi⟩ : BoundedInt lo hi) :=
  dif_pos ⟨hlo, hhi⟩

theorem narrow_eq_some {n : Int} {m : BoundedInt lo hi} (h : narrow n = some m) : m.val = n := by
  rw [narrow] at h
  split at h
  · cases h
    rfl
  · cases h

theorem narrow_eq_none {n : Int} : narrow n = (none : Option (BoundedInt lo hi)) ↔
    n < lo ∨ hi < n := by
  rw [narrow]
  split <;> simp only [reduceCtorEq, false_iff, true_iff] <;> omega

theorem checkedAdd_of_range {a b : BoundedInt lo hi}
    (hlo : lo ≤ a.val + b.val) (hhi : a.val + b.val ≤ hi) :
    a.checkedAdd b = some ⟨a.val + b.val, hlo, hhi⟩ :=
  narrow_of_range hlo hhi

/-- On an unsigned type only the upper bound can be met. -/
theorem saturatingAdd_val_of_nonneg {hi : Int} (a b : BoundedInt 0 hi) :
    (a.saturatingAdd b).val = min hi (a.val + b.val) := by
  have ha := a.lo_le
  have hb := b.lo_le
  have hle := a.le_hi
  change max 0 (min hi (a.val + b.val)) = min hi (a.val + b.val)
  omega

end BoundedInt

abbrev I64 : Type := BoundedInt (-2 ^ 63) (2 ^ 63 - 1)
abbrev I128 : Type := BoundedInt (-2 ^ 127) (2 ^ 127 - 1)
abbrev U32 : Type := BoundedInt 0 (2 ^ 32 - 1)
abbrev U64 : Type := BoundedInt 0 (2 ^ 64 - 1)

/-- Pointer-sized integers have 64 bits on every platform the program targets. -/
abbrev Usize : Type := U64

namespace U64

def zero : U64 := ⟨0, by decide, by decide⟩
def one : U64 := ⟨1, by decide, by decide⟩

@[simp] theorem zero_val : zero.val = 0 := rfl
@[simp] theorem one_val : one.val = 1 := rfl

/-- Reduction modulo `2 ^ 64`. -/
def wrap (n : Int) : U64 where
  val := n % 2 ^ 64
  lo_le := by omega
  le_hi := by omega

/-- A count that stops at the greatest number. -/
def saturated (n : Nat) : U64 where
  val := min (2 ^ 64 - 1) n
  lo_le := by omega
  le_hi := Int.min_le_left _ _

/-- Saturating counts add like the counts themselves. -/
theorem saturatingAdd_saturated (m n : Nat) :
    (saturated m).saturatingAdd (saturated n) = saturated (m + n) := by
  ext
  rw [BoundedInt.saturatingAdd_val_of_nonneg]
  simp only [saturated]
  omega

theorem saturatingAdd_zero (n : U64) : n.saturatingAdd zero = n := by
  have hlo := n.lo_le
  have hhi := n.le_hi
  ext
  rw [BoundedInt.saturatingAdd_val_of_nonneg, zero_val]
  omega

theorem zero_saturatingAdd (n : U64) : zero.saturatingAdd n = n := by
  have hlo := n.lo_le
  have hhi := n.le_hi
  ext
  rw [BoundedInt.saturatingAdd_val_of_nonneg, zero_val]
  omega

theorem saturatingAdd_one (n : Nat) : (saturated n).saturatingAdd one = saturated (n + 1) :=
  saturatingAdd_saturated n 1

end U64

namespace I128

def zero : I128 := ⟨0, by decide, by decide⟩

@[simp] theorem zero_val : zero.val = 0 := rfl

theorem checkedAdd_zero (n : I128) : n.checkedAdd zero = some n := by
  have hlo := n.lo_le
  have hhi := n.le_hi
  rw [BoundedInt.checkedAdd_of_range (by rw [zero_val]; omega) (by rw [zero_val]; omega),
    Option.some.injEq]
  exact BoundedInt.ext (Int.add_zero _)

theorem zero_checkedAdd (n : I128) : zero.checkedAdd n = some n := by
  have hlo := n.lo_le
  have hhi := n.le_hi
  rw [BoundedInt.checkedAdd_of_range (by rw [zero_val]; omega) (by rw [zero_val]; omega),
    Option.some.injEq]
  exact BoundedInt.ext (Int.zero_add _)

end I128

end CeQuery
