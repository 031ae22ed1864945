import CeQuery.Combine.Groups
import CeQuery.Combine.IntegerSum
import CeQuery.Foundation.Addition
import CeQuery.Foundation.Binary64

/-!
# Rows that are skipped

A row whose cell is not read by an aggregate does not change its accumulator. It may
still add an accumulator, in a shard in which the group had no members, and this has
the neutral element. Merging the neutral element changes nothing that is written at the
end: two accumulators that are equal or hold sums that are not finite (`Accum.Same`)
write the same value.

So the outputs over a column do not change exactly if neither way of reading a number
reads one from the cell, except a zero in the integer lane (`unmoved_iff`).
-/

namespace CeQuery

/-! ## Sums that come to the same -/

namespace KahanSum

open F64 (NotNegZero)

/-- Neither the total nor the correction is the negative zero. -/
structure Sound (k : KahanSum) : Prop where
  sum : NotNegZero k.sum
  comp : NotNegZero k.comp

variable {k k' : KahanSum}

theorem zero_sound : zero.Sound where
  sum h := by cases h
  comp h := by cases h

theorem Sound.add (h : k.Sound) (v : F64) : (k.add v).Sound where
  sum := h.sum.add v
  comp := by
    rw [KahanSum.add]
    split
    · exact h.comp.add _
    · exact h.comp.add _

theorem Sound.merge (h : k.Sound) (k' : KahanSum) : (k.merge k').Sound where
  sum := (h.add k'.sum).sum
  comp := (h.add k'.sum).comp.add k'.comp

theorem add_not_finite (v : F64) (h : k.sum.isFinite = false) : (k.add v).sum.isFinite = false :=
  F64.isFinite_add (.inl h)

theorem add_not_finite' (k : KahanSum) {v : F64} (h : v.isFinite = false) :
    (k.add v).sum.isFinite = false :=
  F64.isFinite_add (.inr h)

theorem merge_not_finite (h : k.sum.isFinite = false ∨ k'.sum.isFinite = false) :
    (k.merge k').sum.isFinite = false :=
  F64.isFinite_add h

/-- Adding zero changes nothing as long as the total is finite. -/
theorem add_zero_eq (h : k.Sound) (hfinite : k.sum.isFinite = true) : k.add 0 = k := by
  have hzero : (0 : F64) + 0 = 0 := rfl
  have habs : (0 : F64).abs ≤ k.sum.abs := F64.abs_zero_le_abs (F64.isFinite_iff.mp hfinite).1
  rw [KahanSum.add, F64.add_zero_eq h.sum, if_pos habs, F64.sub_self_eq hfinite, hzero,
    F64.add_zero_eq h.comp]

theorem merge_zero_eq (h : k.Sound) (hfinite : k.sum.isFinite = true) : k.merge zero = k := by
  have hadd : k.add zero.sum = k := add_zero_eq h hfinite
  rw [KahanSum.merge, hadd]
  exact congrArg (KahanSum.mk k.sum) (F64.add_zero_eq h.comp)

theorem zero_add_eq (h : NotNegZero k.sum) (hfinite : k.sum.isFinite = true) :
    zero.add k.sum = ⟨k.sum, 0⟩ := by
  have hzero : (0 : F64) + ((0 - 0) + 0) = 0 := rfl
  rw [KahanSum.add, zero]
  dsimp only
  rw [F64.zero_add_eq h]
  split
  · rename_i habs
    rw [F64.eq_zero_of_abs_le h hfinite habs, hzero]
  · rw [F64.sub_self_eq hfinite]
    rfl

theorem zero_merge_eq (h : k.Sound) (hfinite : k.sum.isFinite = true) : zero.merge k = k := by
  rw [KahanSum.merge, zero_add_eq h.sum hfinite]
  exact congrArg (KahanSum.mk k.sum) (F64.zero_add_eq h.comp)

theorem total_not_finite (h : k.sum.isFinite = false) : k.total.isFinite = false :=
  F64.isFinite_add (.inl h)

end KahanSum

/-! ## Accumulators that come to the same -/

/-- The accumulators are equal, or their sums are not finite. -/
inductive Accum.Same : Accum → Accum → Prop
  | refl (acc : Accum) : Accum.Same acc acc
  | sum {k k' : KahanSum} (h : k.sum.isFinite = false) (h' : k'.sum.isFinite = false) :
      Accum.Same (.sum k) (.sum k')
  | avg {k k' : KahanSum} {n : U64} (h : k.sum.isFinite = false) (h' : k'.sum.isFinite = false) :
      Accum.Same (.avg k n) (.avg k' n)

/-- The accumulator is one of the aggregate, and a sum is sound. -/
def Agg.Sound : Agg → Accum → Prop
  | .count, .count _ => True
  | .sum _, .intSum _ => True
  | .sum _, .sum k => k.Sound
  | .min _, .min _ => True
  | .max _, .max _ => True
  | .avg _, .avg k _ => k.Sound
  | _, _ => False

section Same

variable {acc acc' a a' b b' c : Accum} {agg : Agg} {row : Row} {rows : List Row} {f : String}
  {num : Num}

/-- A number that is not finite is written as null. -/
theorem ofF64_of_not_finite {x : F64} (h : x.isFinite = false) : Value.ofF64 x = .null := by
  rw [Value.ofF64, dif_neg (Bool.eq_false_iff.mp h)]

theorem finalizeValue_sum_not_finite {json : SerdeJson} {k : KahanSum}
    (h : k.sum.isFinite = false) : (Accum.sum k).finalizeValue json = some .null := by
  rw [Accum.finalizeValue, ofF64_of_not_finite (KahanSum.total_not_finite h)]

theorem finalizeValue_avg_not_finite {json : SerdeJson} {k : KahanSum} {n : U64}
    (h : k.sum.isFinite = false) : (Accum.avg k n).finalizeValue json = some .null := by
  have hsmall : n.val.natAbs < 2 ^ 128 := by
    have hlo := n.lo_le
    have hhi := n.le_hi
    omega
  have hcount : (intToF64 n.val).isFinite = true :=
    F64.isFinite_of_isInteger (F64.isInteger_ofInt hsmall)
  rw [Accum.finalizeValue,
    ofF64_of_not_finite (F64.isFinite_div (KahanSum.total_not_finite h) hcount), ite_self]

namespace Accum.Same

theorem symm (h : a.Same b) : b.Same a := by
  cases h with
  | refl => exact .refl _
  | sum h h' => exact .sum h' h
  | avg h h' => exact .avg h' h

theorem trans (h : a.Same b) (h' : b.Same c) : a.Same c := by
  cases h with
  | refl => exact h'
  | sum h _ =>
      cases h' with
      | refl => exact .sum h ‹_›
      | sum _ h' => exact .sum h h'
  | avg h _ =>
      cases h' with
      | refl => exact .avg h ‹_›
      | avg _ h' => exact .avg h h'

theorem merge_left (h : a.Same a') (b : Accum) : (a.merge b).Same (a'.merge b) := by
  cases h with
  | refl => exact .refl _
  | sum h h' =>
      cases b with
      | intSum y => exact .sum (KahanSum.add_not_finite _ h) (KahanSum.add_not_finite _ h')
      | sum k =>
          exact .sum (KahanSum.merge_not_finite (.inl h)) (KahanSum.merge_not_finite (.inl h'))
      | _ => exact .sum h h'
  | avg h h' =>
      cases b with
      | avg k n =>
          exact .avg (KahanSum.merge_not_finite (.inl h)) (KahanSum.merge_not_finite (.inl h'))
      | _ => exact .avg h h'

theorem merge_right (a : Accum) (h : b.Same b') : (a.merge b).Same (a.merge b') := by
  cases h with
  | refl => exact .refl _
  | sum h h' =>
      cases a with
      | intSum x =>
          exact .sum (KahanSum.merge_not_finite (.inr h)) (KahanSum.merge_not_finite (.inr h'))
      | sum k =>
          exact .sum (KahanSum.merge_not_finite (.inr h)) (KahanSum.merge_not_finite (.inr h'))
      | _ => exact .refl _
  | avg h h' =>
      cases a with
      | avg k n =>
          exact .avg (KahanSum.merge_not_finite (.inr h)) (KahanSum.merge_not_finite (.inr h'))
      | _ => exact .refl _

theorem merge (h : a.Same a') (h' : b.Same b') : (a.merge b).Same (a'.merge b') :=
  (h.merge_left b).trans (h'.merge_right a')

theorem foldSum (h : a.Same a') (num : Num) : (foldSum a num).Same (foldSum a' num) := by
  cases h with
  | refl => exact .refl _
  | sum h h' =>
      cases num with
      | int v => exact .sum (KahanSum.add_not_finite _ h) (KahanSum.add_not_finite _ h')
      | float v => exact .sum (KahanSum.add_not_finite _ h) (KahanSum.add_not_finite _ h')
  | avg h h' => cases num <;> exact .avg h h'

theorem fold (h : a.Same a') (agg : Agg) (row : Row) :
    (agg.fold row a).Same (agg.fold row a') := by
  cases agg with
  | sum f =>
      rw [Agg.fold, Agg.fold]
      cases row[f]?.bind asNumber with
      | none => exact h
      | some num => exact h.foldSum num
  | avg f =>
      cases h with
      | refl => exact .refl _
      | sum h h' => exact .sum h h'
      | avg h h' =>
          rw [Agg.fold, Agg.fold]
          cases row[f]?.bind asF64 with
          | none => exact .avg h h'
          | some v => exact .avg (KahanSum.add_not_finite v h) (KahanSum.add_not_finite v h')
  | _ =>
      cases h with
      | refl => exact .refl _
      | sum h h' => exact .sum h h'
      | avg h h' => exact .avg h h'

theorem foldl (h : a.Same a') (agg : Agg) (rows : List Row) :
    (rows.foldl (fun acc row => agg.fold row acc) a).Same
      (rows.foldl (fun acc row => agg.fold row acc) a') := by
  induction rows generalizing a a' with
  | nil => exact h
  | cons row rows ih => exact ih (h.fold agg row)

/-- They write the same value. -/
theorem finalizeValue_eq (h : a.Same a') (json : SerdeJson) :
    a.finalizeValue json = a'.finalizeValue json := by
  cases h with
  | refl => rfl
  | sum h h' => rw [finalizeValue_sum_not_finite h, finalizeValue_sum_not_finite h']
  | avg h h' => rw [finalizeValue_avg_not_finite h, finalizeValue_avg_not_finite h']

end Accum.Same

namespace Agg

theorem sound_zero (agg : Agg) : agg.Sound agg.zero := by
  cases agg with
  | avg f => exact KahanSum.zero_sound
  | _ => trivial

theorem Sound.foldSum (h : (Agg.sum f).Sound acc) (num : Num) :
    (Agg.sum f).Sound (foldSum acc num) := by
  have hpromoted : ∀ x y : F64, ((KahanSum.zero.add x).add y).Sound :=
    fun x y => (KahanSum.zero_sound.add x).add y
  cases acc with
  | intSum s =>
      cases num with
      | int v =>
          rw [CeQuery.foldSum]
          cases s.checkedAdd v with
          | some t => trivial
          | none => exact hpromoted _ _
      | float v => exact hpromoted _ _
  | sum k =>
      cases num with
      | int v => exact KahanSum.Sound.add h _
      | float v => exact KahanSum.Sound.add h _
  | _ => exact h.elim

theorem Sound.fold (h : agg.Sound acc) (row : Row) : agg.Sound (agg.fold row acc) := by
  cases agg with
  | count =>
      cases acc with
      | count n => trivial
      | _ => exact h.elim
  | sum f =>
      rw [Agg.fold]
      cases row[f]?.bind asNumber with
      | none => exact h
      | some num => exact h.foldSum num
  | min f =>
      cases acc with
      | min m =>
          rw [Agg.fold]
          cases row[f]?.bind asF64 <;> trivial
      | _ => exact h.elim
  | max f =>
      cases acc with
      | max m =>
          rw [Agg.fold]
          cases row[f]?.bind asF64 <;> trivial
      | _ => exact h.elim
  | avg f =>
      cases acc with
      | avg k n =>
          rw [Agg.fold]
          cases row[f]?.bind asF64 with
          | none => exact h
          | some v => exact KahanSum.Sound.add h v
      | _ => exact h.elim

theorem sound_foldRows (agg : Agg) (rows : List Row) : agg.Sound (agg.foldRows rows) := by
  induction rows using List.reverseRecOn with
  | nil => exact agg.sound_zero
  | append_singleton rows row ih =>
      rw [Agg.foldRows, List.foldl_concat]
      exact Sound.fold ih row

theorem Sound.merge (ha : agg.Sound a) (hb : agg.Sound b) : agg.Sound (a.merge b) := by
  cases agg with
  | sum f =>
      cases a with
      | intSum x =>
          cases b with
          | intSum y =>
              rw [Accum.merge]
              cases x.checkedAdd y with
              | some s => trivial
              | none => exact (KahanSum.zero_sound.add _).add _
          | sum k => exact (KahanSum.zero_sound.add _).merge k
          | _ => exact hb.elim
      | sum k =>
          cases b with
          | intSum y => exact KahanSum.Sound.add ha _
          | sum k' => exact KahanSum.Sound.merge ha k'
          | _ => exact hb.elim
      | _ => exact ha.elim
  | avg f =>
      cases a with
      | avg k n =>
          cases b with
          | avg k' n' => exact KahanSum.Sound.merge ha k'
          | _ => exact hb.elim
      | _ => exact ha.elim
  | _ => cases a <;> cases b <;> trivial

/-- Merging the neutral element changes nothing that is written. -/
theorem Sound.merge_zero (h : agg.Sound acc) : (acc.merge agg.zero).Same acc := by
  cases agg with
  | count =>
      cases acc with
      | count n =>
          rw [zero, Accum.merge, U64.saturatingAdd_zero]
          exact .refl _
      | _ => exact h.elim
  | sum f =>
      cases acc with
      | intSum x =>
          rw [zero, Accum.merge, I128.checkedAdd_zero]
          exact .refl _
      | sum k =>
          rw [zero, Accum.merge]
          change (Accum.sum (k.add 0)).Same (.sum k)
          cases hfinite : k.sum.isFinite with
          | false => exact .sum (KahanSum.add_not_finite 0 hfinite) hfinite
          | true =>
              rw [KahanSum.add_zero_eq h hfinite]
              exact .refl _
      | _ => exact h.elim
  | min f =>
      cases acc with
      | min m =>
          rw [zero, Accum.merge, Option.merge_none_right]
          exact .refl _
      | _ => exact h.elim
  | max f =>
      cases acc with
      | max m =>
          rw [zero, Accum.merge, Option.merge_none_right]
          exact .refl _
      | _ => exact h.elim
  | avg f =>
      cases acc with
      | avg k n =>
          rw [zero, Accum.merge, U64.saturatingAdd_zero]
          cases hfinite : k.sum.isFinite with
          | false => exact .avg (KahanSum.merge_not_finite (.inl hfinite)) hfinite
          | true =>
              rw [KahanSum.merge_zero_eq h hfinite]
              exact .refl _
      | _ => exact h.elim

theorem Sound.zero_merge (h : agg.Sound acc) : (agg.zero.merge acc).Same acc := by
  cases agg with
  | count =>
      cases acc with
      | count n =>
          rw [zero, Accum.merge, U64.zero_saturatingAdd]
          exact .refl _
      | _ => exact h.elim
  | sum f =>
      cases acc with
      | intSum x =>
          rw [zero, Accum.merge, I128.zero_checkedAdd]
          exact .refl _
      | sum k =>
          rw [zero, Accum.merge]
          change (Accum.sum (KahanSum.zero.merge k)).Same (.sum k)
          cases hfinite : k.sum.isFinite with
          | false => exact .sum (KahanSum.merge_not_finite (.inr hfinite)) hfinite
          | true =>
              rw [KahanSum.zero_merge_eq h hfinite]
              exact .refl _
      | _ => exact h.elim
  | min f =>
      cases acc with
      | min m =>
          rw [zero, Accum.merge, Option.merge_none_left]
          exact .refl _
      | _ => exact h.elim
  | max f =>
      cases acc with
      | max m =>
          rw [zero, Accum.merge, Option.merge_none_left]
          exact .refl _
      | _ => exact h.elim
  | avg f =>
      cases acc with
      | avg k n =>
          rw [zero, Accum.merge, U64.zero_saturatingAdd]
          cases hfinite : k.sum.isFinite with
          | false => exact .avg (KahanSum.merge_not_finite (.inr hfinite)) hfinite
          | true =>
              rw [KahanSum.zero_merge_eq h hfinite]
              exact .refl _
      | _ => exact h.elim

end Agg

end Same

/-- The aggregates that read numbers from a column. -/
def Agg.numericOver (f : String) : List Agg :=
  [.sum f, .avg f, .min f, .max f]

/-- No number is read from the cell, but perhaps a zero in the integer lane. -/
structure Skipped (cell : Option Value) : Prop where
  asF64 : cell.bind asF64 = none
  asNumber : ∀ num, cell.bind asNumber = some num → num = .int I128.zero

/-- In every query, adding a row with this cell to a group changes none of the outputs
over the column, in whatever shard and place it is added. -/
def Unmoved (json : SerdeJson) (f : String) (cell : Option Value) : Prop :=
  ∀ (q : Query) (row : Row) (tree tree' : MergeTree (List Row)),
    row[f]? = cell → q.predicate.eval row = true → MergeTree.Inserted row tree tree' →
    ∀ accs, (q.evalTree json tree).groups[q.groupKey json row]? = some accs →
      ∃ accs', (q.evalTree json tree').groups[q.groupKey json row]? = some accs' ∧
        ∀ (i : Nat), ∀ agg ∈ Agg.numericOver f, q.aggregates[i]? = some agg →
          ∃ acc acc', accs[i]? = some acc ∧ accs'[i]? = some acc' ∧
            acc.finalizeValue json = acc'.finalizeValue json

/-! ## Skipped cells -/

section Skipped

variable {f : String} {row : Row} {agg : Agg} {acc : Accum} {xs ys : List Row}

/-- A row with a skipped cell changes no accumulator over the column. -/
theorem fold_skipped (h : Skipped row[f]?) (hagg : agg ∈ Agg.numericOver f)
    (hsound : agg.Sound acc) : (agg.fold row acc).Same acc := by
  obtain ⟨hf64, hnumber⟩ := h
  simp only [Agg.numericOver, List.mem_cons, List.not_mem_nil, or_false] at hagg
  rcases hagg with rfl | rfl | rfl | rfl
  · rw [Agg.fold]
    cases hnum : row[f]?.bind asNumber with
    | none => exact .refl _
    | some num =>
        rw [hnumber num hnum]
        cases acc with
        | intSum s =>
            dsimp only
            rw [foldSum, I128.checkedAdd_zero]
            exact .refl _
        | sum k =>
            change (Accum.sum (k.add 0)).Same (.sum k)
            cases hfinite : k.sum.isFinite with
            | false => exact .sum (KahanSum.add_not_finite 0 hfinite) hfinite
            | true =>
                rw [KahanSum.add_zero_eq hsound hfinite]
                exact .refl _
        | _ => exact hsound.elim
  · cases acc with
    | avg k n =>
        rw [Agg.fold, hf64]
        exact .refl _
    | _ => exact hsound.elim
  · cases acc with
    | min m =>
        rw [Agg.fold, hf64]
        exact .refl _
    | _ => exact hsound.elim
  · cases acc with
    | max m =>
        rw [Agg.fold, hf64]
        exact .refl _
    | _ => exact hsound.elim

theorem foldRows_insert (h : Skipped row[f]?) (hagg : agg ∈ Agg.numericOver f) :
    (agg.foldRows (xs ++ ys)).Same (agg.foldRows (xs ++ row :: ys)) := by
  rw [Agg.foldRows, Agg.foldRows, List.foldl_append, List.foldl_append, List.foldl_cons]
  exact (fold_skipped h hagg (agg.sound_foldRows xs)).symm.foldl agg ys

end Skipped

/-! ## Groups -/

namespace Query

variable {json : SerdeJson} {q : Query} {key : List String} {agg : Agg} {g g' : Agg → Accum}
  {tree tree' : MergeTree (List Row)} {row : Row} {f : String}

/-- The accumulator of an aggregate over the members of a group, where a shard without
members counts as the neutral element. -/
def accumOf (json : SerdeJson) (q : Query) (key : List String) (agg : Agg)
    (tree : MergeTree (List Row)) : Accum :=
  tree.eval agg.zero Accum.merge fun rows => agg.foldRows (q.members json key rows)

theorem sound_groupOf (h : q.groupOf json key tree = some g) : agg.Sound (g agg) :=
  groupOf_rule (R := fun _ acc => agg.Sound acc) (fun rows => agg.sound_foldRows rows)
    (fun _ _ _ _ ha hb => ha.merge hb) h

/-- That shards without members take no part does not show. -/
theorem groupOf_same (tree : MergeTree (List Row)) :
    (((q.groupOf json key tree).map (· agg)).getD agg.zero).Same (q.accumOf json key agg tree) := by
  induction tree with
  | identity => exact .refl _
  | part rows =>
      change (((q.groupOfShard json key rows).map (· agg)).getD agg.zero).Same
        (agg.foldRows (q.members json key rows))
      cases hgroup : q.groupOfShard json key rows with
      | none =>
          rw [groupOfShard_eq_none_iff.mp hgroup]
          exact .refl _
      | some g =>
          obtain ⟨_, rfl⟩ := groupOfShard_eq_some_iff.mp hgroup
          exact .refl _
  | merge left right ihl ihr =>
      have hmerge := ihl.merge ihr
      refine Accum.Same.trans ?_ hmerge
      change (((Option.merge _ (q.groupOf json key left) (q.groupOf json key right)).map
        (· agg)).getD agg.zero).Same _
      cases hleft : q.groupOf json key left with
      | none =>
          rw [Option.merge_none_left]
          apply Accum.Same.symm
          apply Agg.Sound.zero_merge
          cases hright : q.groupOf json key right with
          | none => exact agg.sound_zero
          | some g => exact sound_groupOf hright
      | some f =>
          cases hright : q.groupOf json key right with
          | none => exact (sound_groupOf hleft).merge_zero.symm
          | some g => exact .refl _

theorem accumOf_inserted (h : Skipped row[f]?) (hagg : agg ∈ Agg.numericOver f)
    (hpasses : q.predicate.eval row = true) (hins : MergeTree.Inserted row tree tree') :
    (q.accumOf json (q.groupKey json row) agg tree).Same
      (q.accumOf json (q.groupKey json row) agg tree') := by
  apply hins.eval Accum.Same.refl fun _ _ _ _ h h' => h.merge h'
  intro xs ys
  have hmember : q.members json (q.groupKey json row) (row :: ys) =
      row :: q.members json (q.groupKey json row) ys :=
    List.filter_cons_of_pos (by simp [hpasses])
  rw [members_append, members_append, hmember]
  exact foldRows_insert h hagg

/-- A group that is there stays there. -/
theorem exists_groupOf_of_inserted (hins : MergeTree.Inserted row tree tree')
    (h : q.groupOf json key tree = some g) : ∃ g', q.groupOf json key tree' = some g' := by
  rw [← Option.ne_none_iff_exists']
  intro hnone
  rw [groupOf_eq_none_iff] at hnone
  have hsub : (q.members json key tree.parts.flatten).Sublist
      (q.members json key tree'.parts.flatten) := hins.sublist.filter _
  rw [hnone, List.sublist_nil, ← groupOf_eq_none_iff] at hsub
  cases h.symm.trans hsub

theorem unmoved_of_skipped {cell : Option Value} (h : Skipped cell) : Unmoved json f cell := by
  rintro q row tree tree' rfl hpasses hins accs haccs
  rw [getElem?_eval, Option.map_eq_some_iff] at haccs
  obtain ⟨g, hg, rfl⟩ := haccs
  obtain ⟨g', hg'⟩ := exists_groupOf_of_inserted hins hg
  refine ⟨q.aggregates.map g', by rw [getElem?_eval, hg']; rfl, ?_⟩
  intro i agg hagg hi
  refine ⟨g agg, g' agg, by rw [List.getElem?_map, hi]; rfl,
    by rw [List.getElem?_map, hi]; rfl, ?_⟩
  have hbefore := @groupOf_same json q (q.groupKey json row) agg tree
  have hafter := @groupOf_same json q (q.groupKey json row) agg tree'
  rw [hg] at hbefore
  rw [hg'] at hafter
  exact ((hbefore.trans (accumOf_inserted h hagg hpasses hins)).trans
    hafter.symm).finalizeValue_eq json

end Query

/-! ## Cells that are not skipped -/

section Moved

variable {json : SerdeJson} {f : String} {cell : Option Value}

/-- One aggregate over all rows. -/
private def wholeQuery (agg : Agg) : Query where
  dataset := "t"
  aggregates := [agg]
  predicate := .true
  groupBy := []
  orderBy := []
  limit := none
  projection := none

/-- A row that has no more than one cell. -/
private def cellRow (f : String) (cell : Option Value) : Row :=
  cell.elim ∅ fun v => (∅ : Row).insert f v

private theorem getElem?_cellRow : (cellRow f cell)[f]? = cell := by
  cases cell with
  | none => exact Std.ExtTreeMap.getElem?_empty
  | some v => exact Std.ExtTreeMap.getElem?_insert_self

/-- A second row with the cell changes no output. -/
private theorem Unmoved.finalizeValue_eq (h : Unmoved json f cell) {agg : Agg}
    (hagg : agg ∈ Agg.numericOver f) (first : Option Value) :
    (agg.fold (cellRow f first) agg.zero).finalizeValue json =
      (agg.fold (cellRow f cell) (agg.fold (cellRow f first) agg.zero)).finalizeValue json := by
  obtain ⟨accs', haccs', hout⟩ := h (wholeQuery agg) (cellRow f cell) (.part [cellRow f first])
    (.part [cellRow f first, cellRow f cell]) getElem?_cellRow rfl (.part [cellRow f first] [])
    [agg.foldRows [cellRow f first]] rfl
  obtain ⟨acc, acc', hacc, hacc', heq⟩ := hout 0 agg hagg rfl
  cases hacc
  cases haccs'
  cases hacc'
  exact heq

/-- A finite number that is read from the cell shows in the minimum. -/
private theorem Unmoved.not_finite (h : Unmoved json f cell) {x : F64}
    (hcell : cell.bind asF64 = some x) : x.isFinite = false := by
  have hfirst : (Agg.min f).fold (cellRow f none) (.min none) = .min none := by
    rw [Agg.fold, getElem?_cellRow]
    rfl
  have hsecond : (Agg.min f).fold (cellRow f cell) (.min none) = .min (some x) := by
    rw [Agg.fold, getElem?_cellRow, hcell]
    rfl
  have hmin := h.finalizeValue_eq (show .min f ∈ Agg.numericOver f by simp [Agg.numericOver]) none
  rw [Agg.zero, hfirst, hsecond, Accum.finalizeValue, Accum.finalizeValue, Value.ofF64] at hmin
  by_contra hfinite
  rw [dif_pos ((Bool.not_eq_false _).mp hfinite)] at hmin
  cases hmin

/-- A number that is not finite and read from the cell shows in the mean. -/
private theorem Unmoved.asF64_eq_none (h : Unmoved json f cell) : cell.bind asF64 = none := by
  cases hcell : cell.bind asF64 with
  | none => rfl
  | some x =>
      exfalso
      have hfirst : (Agg.avg f).fold (cellRow f (some (.ofU64 U64.one)))
          (.avg KahanSum.zero U64.zero) =
            .avg (KahanSum.zero.add (intToF64 1)) (U64.zero.saturatingAdd U64.one) := by
        rw [Agg.fold, getElem?_cellRow]
        rfl
      have hsecond : (Agg.avg f).fold (cellRow f cell)
          (.avg (KahanSum.zero.add (intToF64 1)) (U64.zero.saturatingAdd U64.one)) =
            .avg ((KahanSum.zero.add (intToF64 1)).add x)
              ((U64.zero.saturatingAdd U64.one).saturatingAdd U64.one) := by
        rw [Agg.fold, getElem?_cellRow, hcell]
      have havg := h.finalizeValue_eq (show .avg f ∈ Agg.numericOver f by simp [Agg.numericOver])
        (some (.ofU64 U64.one))
      have hfinite : ((KahanSum.zero.add (intToF64 1)).total /
          intToF64 (U64.zero.saturatingAdd U64.one).val).isFinite = true := by decide
      rw [Agg.zero, hfirst, hsecond,
        finalizeValue_avg_not_finite (KahanSum.add_not_finite' _ (h.not_finite hcell)),
        Accum.finalizeValue, if_neg (by decide), Value.ofF64, dif_pos hfinite] at havg
      cases havg

private theorem Unmoved.asNumber_eq_zero (h : Unmoved json f cell) (hconverts : json.ConvertsI128)
    (hkeeps : json.KeepsI128) {num : Num} (hcell : cell.bind asNumber = some num) :
    num = .int I128.zero := by
  have hfirst : (Agg.sum f).fold (cellRow f none) (.intSum I128.zero) = .intSum I128.zero := by
    rw [Agg.fold, getElem?_cellRow]
    rfl
  have hsecond : (Agg.sum f).fold (cellRow f cell) (.intSum I128.zero) =
      foldSum (.intSum I128.zero) num := by
    rw [Agg.fold, getElem?_cellRow, hcell]
  have hsum := h.finalizeValue_eq (show .sum f ∈ Agg.numericOver f by simp [Agg.numericOver]) none
  rw [Agg.zero, hfirst, hsecond, Accum.finalizeValue] at hsum
  obtain ⟨v, hv⟩ := Option.isSome_iff_exists.mp ((hconverts I128.zero).mpr (by decide))
  have hvalue : v.integer = some 0 := hkeeps I128.zero v hv
  rw [hv] at hsum
  cases num with
  | int n =>
      rw [foldSum, I128.zero_checkedAdd] at hsum
      have hint := hkeeps n v hsum.symm
      rw [hvalue, Option.some.injEq] at hint
      exact congrArg Num.int (BoundedInt.ext hint.symm)
  | float x =>
      rw [foldSum, Accum.finalizeValue, Option.some.injEq] at hsum
      rw [hsum, Value.ofF64] at hvalue
      split at hvalue <;> cases hvalue

end Moved

/-- The outputs over a column do not move exactly if the cell is skipped. -/
theorem unmoved_iff (json : SerdeJson) (f : String) (cell : Option Value)
    (hconverts : json.ConvertsI128) (hkeeps : json.KeepsI128) :
    Unmoved json f cell ↔ Skipped cell := by
  constructor
  · intro h
    exact ⟨h.asF64_eq_none, fun _ => h.asNumber_eq_zero hconverts hkeeps⟩
  · exact Query.unmoved_of_skipped

/-- A word that is no number. -/
theorem unmoved_oops : Unmoved .sample "v" (some (.string "oops")) :=
  (unmoved_iff .sample "v" (some (.string "oops")) SerdeJson.sample_convertsI128
    SerdeJson.sample_keepsI128).mpr
    ⟨rfl, fun _ h => by cases h⟩

/-- The word for what is not a number makes a null of the mean. -/
theorem not_unmoved_nan : ¬Unmoved .sample "v" (some (.string "nan")) := by
  intro h
  have hnone : ((some (Value.string "nan")).bind asF64).isSome = false := by
    rw [h.asF64_eq_none]
    rfl
  revert hnone
  decide

end CeQuery
