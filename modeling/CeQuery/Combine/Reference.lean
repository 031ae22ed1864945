import CeQuery.Cells
import CeQuery.Foundation.MergeTree
import CeQuery.Query.Basic
import Mathlib.Algebra.Order.BigOperators.Group.List
import Mathlib.Algebra.Order.Group.Nat

/-!
# The single-pass reference

What a query means is stated on the whole list of rows, with no shards and no
accumulators: one group per distinct key of the rows that pass the filter, and
for each aggregate a number described directly on the rows of the group.

`Agg.Describes` is the step of the argument. It holds of the zero accumulator,
folding a row extends it by that row, merging joins it for two row lists, and
it does not see the order of the rows. `Query.Reference` lifts it to partials,
where it is a summary in the sense of `MergeTree.Summary`; the description of
any merge of any shards follows from that alone.

Compensated sums stay out of the description: they depend on the order of the
additions. An integer sum is described as long as its cells are integers whose
absolute values fit the 128-bit lane together.
-/

namespace CeQuery

/-- The integer lane never has to be left on these rows: every number a sum
over `f` reads is an integer, and their absolute values fit `i128` together. -/
structure ExactSum (f : String) (rows : List Row) : Prop where
  integral : ∀ num ∈ summands f rows, num.integer.isSome = true
  total : ((integralCells f rows).map Int.natAbs).sum ≤ 2 ^ 127 - 1

namespace ExactSum

variable {f : String} {rows xs ys : List Row}

theorem sublist (h : ExactSum f ys) (hsub : xs.Sublist ys) : ExactSum f xs := by
  have hnums : (summands f xs).Sublist (summands f ys) := hsub.filterMap _
  have hints : (integralCells f xs).Sublist (integralCells f ys) := hnums.filterMap _
  constructor
  · intro num hnum
    exact h.integral num (hnums.subset hnum)
  · have hle := (hints.map Int.natAbs).sum_le_sum (fun n _ => Nat.zero_le n)
    exact Nat.le_trans hle h.total

theorem perm (h : ExactSum f xs) (hperm : xs.Perm ys) : ExactSum f ys := by
  constructor
  · intro num hnum
    exact h.integral num ((summands_perm f hperm).mem_iff.mpr hnum)
  · have hsum := ((integralCells_perm f hperm).map Int.natAbs).sum_eq
    exact Nat.le_trans (Nat.le_of_eq hsum.symm) h.total

private theorem natAbs_sum_le (ns : List Int) : ns.sum.natAbs ≤ (ns.map Int.natAbs).sum := by
  induction ns with
  | nil => simp
  | cons n ns ih =>
      simp only [List.sum_cons, List.map_cons]
      omega

/-- The exact sum stays within the lane. -/
theorem sum_range (h : ExactSum f rows) :
    -2 ^ 127 ≤ (integralCells f rows).sum ∧ (integralCells f rows).sum ≤ 2 ^ 127 - 1 := by
  have hle := natAbs_sum_le (integralCells f rows)
  have htotal := h.total
  omega

/-- Cells whose absolute values fit a signed 64-bit number together have a sum
that is a JSON integer, in every part of the rows. -/
theorem jsonInteger_of_total (htotal : ((integralCells f ys).map Int.natAbs).sum ≤ 2 ^ 63 - 1)
    (hsub : xs.Sublist ys) : JsonInteger (integralCells f xs).sum := by
  have hcells : (integralCells f xs).Sublist (integralCells f ys) :=
    (hsub.filterMap _).filterMap _
  have hpart := (hcells.map Int.natAbs).sum_le_sum (fun n _ => Nat.zero_le n)
  have hle := natAbs_sum_le (integralCells f xs)
  rw [JsonInteger]
  omega

instance (f : String) (rows : List Row) : Decidable (ExactSum f rows) :=
  decidable_of_iff ((∀ num ∈ summands f rows, num.integer.isSome = true) ∧
      ((integralCells f rows).map Int.natAbs).sum ≤ 2 ^ 127 - 1)
    ⟨fun h => ⟨h.1, h.2⟩, fun h => ⟨h.integral, h.total⟩⟩

end ExactSum

/-- The side condition under which the accumulator of an aggregate is described. -/
def Agg.Exact (rows : List Row) : Agg → Prop
  | .sum f => ExactSum f rows
  | _ => True

/-- The integer lane carries these rows: the numbers that a sum reads are integers,
and the 128-bit lane has their total. -/
def Agg.Carried (rows : List Row) : Agg → Prop
  | .sum f => (∀ num ∈ summands f rows, num.integer.isSome = true) ∧
      -2 ^ 127 ≤ (integralCells f rows).sum ∧ (integralCells f rows).sum ≤ 2 ^ 127 - 1
  | _ => True

/-- What an accumulator tells about the rows of its group. -/
def Agg.Describes (rows : List Row) : Agg → Accum → Prop
  | .count, .count n => n = U64.saturated rows.length
  | .sum f, .intSum n => n.val = (integralCells f rows).sum
  | .min f, .min m => F64.OptExtremum .least (numericCells f rows) m
  | .max f, .max m => F64.OptExtremum .greatest (numericCells f rows) m
  | .avg f, .avg _ n => n = U64.saturated (numericCells f rows).length
  | _, _ => False

namespace Agg

variable {agg : Agg} {acc a b : Accum} {row : Row} {rows xs ys : List Row}

theorem Exact.sublist (h : agg.Exact ys) (hsub : xs.Sublist ys) : agg.Exact xs := by
  cases agg with
  | sum f => exact ExactSum.sublist h hsub
  | _ => trivial

theorem Exact.carried (h : agg.Exact rows) : agg.Carried rows := by
  cases agg with
  | sum f => exact ⟨ExactSum.integral h, ExactSum.sum_range h⟩
  | _ => trivial

theorem describes_zero (agg : Agg) : agg.Describes [] agg.zero := by
  cases agg <;> rfl

theorem Describes.perm (h : agg.Describes xs acc) (hperm : xs.Perm ys) :
    agg.Describes ys acc := by
  cases agg <;> cases acc <;> simp only [Describes] at h ⊢
  case count.count => rw [h, hperm.length_eq]
  case sum.intSum f n => rw [h, (integralCells_perm f hperm).sum_eq]
  case min.min f m => exact h.perm (numericCells_perm f hperm)
  case max.max f m => exact h.perm (numericCells_perm f hperm)
  case avg.avg f k n => rw [h, (numericCells_perm f hperm).length_eq]

/-- Merging joins the descriptions of two row lists, if the integer lane carries
both of them together. -/
theorem Describes.merge (hcarried : agg.Carried (xs ++ ys)) (ha : agg.Describes xs a)
    (hb : agg.Describes ys b) : agg.Describes (xs ++ ys) (a.merge b) := by
  cases agg <;> cases a <;> cases b <;> simp only [Describes] at ha hb
  case count.count.count m n =>
    simp [Accum.merge, Describes, ha, hb, U64.saturatingAdd_saturated]
  case sum.intSum.intSum f m n =>
    obtain ⟨_, hrange⟩ := hcarried
    rw [integralCells_append, List.sum_append, ← ha, ← hb] at hrange
    simp only [Accum.merge, BoundedInt.checkedAdd_of_range hrange.1 hrange.2, Describes]
    rw [integralCells_append, List.sum_append, ha, hb]
  case min.min.min f m n =>
    simp only [Accum.merge, Describes, numericCells_append]
    exact ha.merge hb
  case max.max.max f m n =>
    simp only [Accum.merge, Describes, numericCells_append]
    exact ha.merge hb
  case avg.avg.avg f k m l n =>
    simp [Accum.merge, Describes, ha, hb, U64.saturatingAdd_saturated]

/-- Folding a row extends the description by that row. -/
theorem Describes.fold (hcarried : agg.Carried (rows ++ [row])) (h : agg.Describes rows acc) :
    agg.Describes (rows ++ [row]) (agg.fold row acc) := by
  cases agg <;> cases acc <;> simp only [Describes] at h
  case count.count n =>
    simp [Agg.fold, Describes, h, U64.saturatingAdd_one]
  case sum.intSum f n =>
    obtain ⟨hintegral, hrange⟩ := hcarried
    have hsum := integralCells_singleton f row
    rw [summands_append, summands_singleton] at hintegral
    rw [integralCells_append, List.sum_append, ← h, hsum] at hrange
    cases hcell : row[f]?.bind asNumber with
    | none => simpa [Agg.fold, Describes, hsum, hcell] using h
    | some num =>
        cases num with
        | float x => simpa [Num.integer] using hintegral (.float x) (by simp [hcell])
        | int v =>
            simp only [hcell, Option.toList_some, List.filterMap_cons, Num.integer,
              List.filterMap_nil, List.sum_singleton] at hrange
            simp [Agg.fold, foldSum, hcell, BoundedInt.checkedAdd_of_range hrange.1 hrange.2,
              Describes, hsum, Num.integer, h]
  case min.min f m =>
    have hrow := numericCells_singleton f row
    cases hcell : row[f]?.bind asF64 with
    | none => simpa [Agg.fold, Describes, hrow, hcell] using h
    | some v =>
        simp only [Agg.fold, hcell, Describes, numericCells_append, hrow]
        exact h.snoc v
  case max.max f m =>
    have hrow := numericCells_singleton f row
    cases hcell : row[f]?.bind asF64 with
    | none => simpa [Agg.fold, Describes, hrow, hcell] using h
    | some v =>
        simp only [Agg.fold, hcell, Describes, numericCells_append, hrow]
        exact h.snoc v
  case avg.avg f k n =>
    have hrow := numericCells_singleton f row
    cases hcell : row[f]?.bind asF64 with
    | none => simpa [Agg.fold, Describes, hrow, hcell] using h
    | some v => simp [Agg.fold, Describes, hrow, hcell, h, U64.saturatingAdd_one]

end Agg

/-- The accumulator of an aggregate after the rows of a group. -/
def Agg.foldRows (agg : Agg) (rows : List Row) : Accum :=
  rows.foldl (fun acc row => agg.fold row acc) agg.zero

theorem foldRows_describes {agg : Agg} {rows : List Row} (h : agg.Exact rows) :
    agg.Describes rows (agg.foldRows rows) := by
  induction rows using List.reverseRecOn with
  | nil => exact agg.describes_zero
  | append_singleton rows row ih =>
      rw [Agg.foldRows, List.foldl_concat]
      exact (ih (h.sublist (List.sublist_append_left _ _))).fold h.carried

/-- The accumulator of a sum folds the numbers of its column. -/
theorem foldRows_sum (f : String) (rows : List Row) :
    (Agg.sum f).foldRows rows = (summands f rows).foldl foldSum (.intSum I128.zero) := by
  rw [Agg.foldRows, summands, List.foldl_filterMap, Agg.zero]
  apply List.foldl_ext
  intro acc row _
  rw [Agg.fold]
  cases row[f]?.bind asNumber <;> rfl

end CeQuery
