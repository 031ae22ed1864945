import CeQuery.Combine.Groups
import CeQuery.Combine.IntegerSum
import CeQuery.Foundation.ExactAddition

/-!
# Sums and means of whole numbers

A compensated sum depends on the order of its additions, unless none of them rounds. None
does while all numbers are whole and have less than 53 bits together (`SmallWhole`),
however they are written: as integers, as floats, or as texts of either. Then a sum has
nothing to compensate (`KahanSum.IsWhole`), and however the rows are put into shards and
merged, the sum of a group is its exact total and the mean is one division
(`sum_whole`, `mean_whole`).
-/

namespace CeQuery

/-- The integer that a whole number is. -/
def Num.whole : Num → Int
  | .int n => n.val
  | .float x => F64.scaled x.toModel.unpack / 2 ^ 52

/-- The number as it is added to a compensated sum. -/
def Num.addend : Num → F64
  | .int n => intToF64 n.val
  | .float x => x

/-- The number has no fraction. -/
def Num.IsWhole : Num → Prop
  | .int _ => True
  | .float x => F64.IsInteger (Num.float x).whole x.toModel.unpack

def wholeTotal (nums : List Num) : Int :=
  (nums.map Num.whole).sum

/-- The numbers are whole, and their absolute values have at most 53 bits together. -/
structure SmallWhole (nums : List Num) : Prop where
  whole : ∀ num ∈ nums, num.IsWhole
  small : (nums.map fun num => num.whole.natAbs).sum < 2 ^ 53

/-- The running sum is an integer, and there is nothing to compensate. -/
structure KahanSum.IsWhole (k : KahanSum) (n : Int) : Prop where
  sum : F64.IsInteger n k.sum.toModel.unpack
  notNegZero : F64.NotNegZero k.sum
  comp : F64.IsInteger 0 k.comp.toModel.unpack

section Total

variable {nums xs ys : List Num}

theorem total_append : wholeTotal (xs ++ ys) = wholeTotal xs + wholeTotal ys := by
  rw [wholeTotal, List.map_append, List.sum_append, wholeTotal, wholeTotal]

theorem natAbs_total_le (nums : List Num) :
    (wholeTotal nums).natAbs ≤ (nums.map fun num => num.whole.natAbs).sum := by
  induction nums with
  | nil => exact Nat.le_refl 0
  | cons num nums ih =>
      rw [wholeTotal] at ih
      rw [wholeTotal, List.map_cons, List.sum_cons, List.map_cons, List.sum_cons]
      omega

theorem SmallWhole.sublist (h : SmallWhole ys) (hsub : xs.Sublist ys) : SmallWhole xs where
  whole num hnum := h.whole num (hsub.subset hnum)
  small := ((hsub.map _).sum_le_sum fun _ _ => Nat.zero_le _).trans_lt h.small

theorem SmallWhole.perm (h : SmallWhole xs) (hperm : xs.Perm ys) : SmallWhole ys where
  whole num hnum := h.whole num (hperm.mem_iff.mpr hnum)
  small := (hperm.map _).sum_eq.symm.trans_lt h.small

theorem total_perm (hperm : xs.Perm ys) : wholeTotal xs = wholeTotal ys :=
  (hperm.map _).sum_eq

theorem SmallWhole.total_lt (h : SmallWhole nums) : (wholeTotal nums).natAbs < 2 ^ 53 :=
  (natAbs_total_le nums).trans_lt h.small

/-- Two parts of small numbers stay small together. -/
theorem SmallWhole.parts_lt (h : SmallWhole (xs ++ ys)) :
    (wholeTotal xs).natAbs + (wholeTotal ys).natAbs < 2 ^ 53 := by
  have hsmall := h.small
  rw [List.map_append, List.sum_append] at hsmall
  have := natAbs_total_le xs
  have := natAbs_total_le ys
  omega

theorem isInteger_intToF64 {n : Int} (hn : n.natAbs < 2 ^ 53) :
    F64.IsInteger n (intToF64 n).toModel.unpack := by
  have hrounded := F64.isInteger_ofInt (Nat.lt_trans hn (by decide))
  rwa [nearest_eq_self hn] at hrounded

theorem notNegZero_intToF64 {n : Int} (hn : n.natAbs < 2 ^ 53) : F64.NotNegZero (intToF64 n) := by
  by_cases hzero : n = 0
  · subst hzero
    exact nofun
  · exact F64.notNegZero_of_isInteger (isInteger_intToF64 hn) hzero

theorem Num.IsWhole.isInteger {num : Num} (h : num.IsWhole) (hsmall : num.whole.natAbs < 2 ^ 53) :
    F64.IsInteger num.whole num.addend.toModel.unpack := by
  cases num with
  | int n => exact isInteger_intToF64 hsmall
  | float x => exact h

end Total

/-! ## Compensated sums -/

namespace KahanSum

variable {k l : KahanSum} {m n : Int} {v : F64}

theorem isWhole_zero : zero.IsWhole 0 where
  sum := ⟨trivial, rfl⟩
  notNegZero := nofun
  comp := ⟨trivial, rfl⟩

/-- An addition that does not round leaves nothing to compensate. -/
theorem IsWhole.add (h : k.IsWhole n) (hv : F64.IsInteger m v.toModel.unpack)
    (hsmall : n.natAbs + m.natAbs < 2 ^ 53) : (k.add v).IsWhole (n + m) := by
  have hsum : F64.IsInteger (n + m) (k.sum + v).toModel.unpack :=
    F64.isInteger_add h.sum hv (by omega)
  refine ⟨hsum, h.notNegZero.add v, ?_⟩
  rw [KahanSum.add]
  dsimp only
  split
  · have hrest : F64.IsInteger (n - (n + m)) (k.sum - (k.sum + v)).toModel.unpack :=
      F64.isInteger_sub h.sum hsum (by omega)
    have hlost := F64.isInteger_add hrest hv (by omega)
    have hcomp := F64.isInteger_add h.comp hlost (by omega)
    rwa [show 0 + (n - (n + m) + m) = 0 by omega] at hcomp
  · have hrest : F64.IsInteger (m - (n + m)) (v - (k.sum + v)).toModel.unpack :=
      F64.isInteger_sub hv hsum (by omega)
    have hlost := F64.isInteger_add hrest h.sum (by omega)
    have hcomp := F64.isInteger_add h.comp hlost (by omega)
    rwa [show 0 + (m - (n + m) + n) = 0 by omega] at hcomp

theorem IsWhole.merge (h : k.IsWhole n) (hl : l.IsWhole m)
    (hsmall : n.natAbs + m.natAbs < 2 ^ 53) : (k.merge l).IsWhole (n + m) := by
  obtain ⟨hsum, hnot, hcomp⟩ := h.add hl.sum hsmall
  exact ⟨hsum, hnot, F64.isInteger_add hcomp hl.comp (by decide)⟩

/-- An integer that is carried over to a compensated sum. -/
theorem isWhole_promoted (hn : n.natAbs < 2 ^ 53) : (zero.add (intToF64 n)).IsWhole n := by
  have hadd := isWhole_zero.add (isInteger_intToF64 hn) (by omega)
  rwa [Int.zero_add] at hadd

/-- The total of a whole sum is the integer. -/
theorem IsWhole.total_eq (h : k.IsWhole n) (hn : n.natAbs < 2 ^ 53) : k.total = intToF64 n := by
  have hsum := F64.isInteger_add h.sum h.comp (by omega)
  rw [Int.add_zero] at hsum
  exact F64.eq_of_isInteger hsum (isInteger_intToF64 hn) (h.notNegZero.add _)
    (notNegZero_intToF64 hn)

end KahanSum

/-! ## Accumulators -/

/-- A sum of whole numbers is exact. It stays in the lane of integers as long as all of
them are integers. -/
def Accum.SumOf (nums : List Num) : Accum → Prop
  | .intSum n => (∀ num ∈ nums, num.integer.isSome = true) ∧ n.val = wholeTotal nums
  | .sum k => (∃ num ∈ nums, num.integer = none) ∧ k.IsWhole (wholeTotal nums)
  | _ => False

/-- A mean of whole numbers has their exact sum and their number. -/
def Accum.MeanOf (nums : List Num) : Accum → Prop
  | .avg k n => k.IsWhole (wholeTotal nums) ∧ n = U64.saturated nums.length
  | _ => False

/-- The numbers that a mean reads in a column. -/
def meanCells (f : String) (rows : List Row) : List Num :=
  (numericCells f rows).map Num.float

theorem meanCells_append {f : String} (xs ys : List Row) :
    meanCells f (xs ++ ys) = meanCells f xs ++ meanCells f ys := by
  rw [meanCells, numericCells_append, List.map_append, meanCells, meanCells]

section Accum

variable {f : String} {acc a b : Accum} {nums xs ys : List Num} {num : Num} {rows : List Row}

private theorem total_singleton : wholeTotal [num] = num.whole := by
  rw [wholeTotal, List.map_singleton, List.sum_singleton]

theorem Accum.SumOf.foldSum (hsmall : SmallWhole (nums ++ [num])) (h : acc.SumOf nums) :
    (foldSum acc num).SumOf (nums ++ [num]) := by
  have hparts := hsmall.parts_lt
  have hnum := (hsmall.whole num (by simp)).isInteger (by rw [total_singleton] at hparts; omega)
  rw [total_singleton] at hparts
  cases acc with
  | intSum s =>
      obtain ⟨hints, hs⟩ := h
      cases num with
      | int v =>
          have hv : (Num.int v).whole = v.val := rfl
          rw [CeQuery.foldSum, BoundedInt.checkedAdd_of_range (by omega) (by omega)]
          refine ⟨?_, ?_⟩
          · rw [List.forall_mem_append]
            exact ⟨hints, List.forall_mem_singleton.mpr rfl⟩
          · rw [total_append, total_singleton, ← hs]
            rfl
      | float x =>
          refine ⟨⟨_, List.mem_append_right _ List.mem_cons_self, rfl⟩, ?_⟩
          rw [total_append, total_singleton, ← hs]
          exact (KahanSum.isWhole_promoted (by omega)).add hnum (by omega)
  | sum k =>
      obtain ⟨⟨other, hother, hfloat⟩, hk⟩ := h
      have hsum := hk.add hnum hparts
      rw [← total_singleton, ← total_append] at hsum
      cases num <;> exact ⟨⟨other, List.mem_append_left _ hother, hfloat⟩, hsum⟩
  | _ => exact h.elim

theorem Accum.SumOf.merge (hsmall : SmallWhole (xs ++ ys)) (ha : a.SumOf xs) (hb : b.SumOf ys) :
    (a.merge b).SumOf (xs ++ ys) := by
  have hparts := hsmall.parts_lt
  cases a with
  | intSum x =>
      obtain ⟨hxs, hx⟩ := ha
      cases b with
      | intSum y =>
          obtain ⟨hys, hy⟩ := hb
          rw [Accum.merge, BoundedInt.checkedAdd_of_range (by omega) (by omega)]
          refine ⟨List.forall_mem_append.mpr ⟨hxs, hys⟩, ?_⟩
          rw [total_append, ← hx, ← hy]
      | sum l =>
          obtain ⟨⟨other, hother, hfloat⟩, hl⟩ := hb
          refine ⟨⟨other, List.mem_append_right _ hother, hfloat⟩, ?_⟩
          rw [total_append, ← hx]
          exact (KahanSum.isWhole_promoted (by omega)).merge hl (by omega)
      | _ => exact hb.elim
  | sum k =>
      obtain ⟨⟨other, hother, hfloat⟩, hk⟩ := ha
      cases b with
      | intSum y =>
          obtain ⟨_, hy⟩ := hb
          refine ⟨⟨other, List.mem_append_left _ hother, hfloat⟩, ?_⟩
          rw [total_append, ← hy]
          exact hk.add (isInteger_intToF64 (by omega)) (by omega)
      | sum l =>
          refine ⟨⟨other, List.mem_append_left _ hother, hfloat⟩, ?_⟩
          rw [total_append]
          exact hk.merge hb.2 hparts
      | _ => exact hb.elim
  | _ => exact ha.elim

theorem Accum.MeanOf.merge (hsmall : SmallWhole (xs ++ ys)) (ha : a.MeanOf xs)
    (hb : b.MeanOf ys) : (a.merge b).MeanOf (xs ++ ys) := by
  cases a with
  | avg k m =>
      obtain ⟨hk, rfl⟩ := ha
      cases b with
      | avg l n =>
          obtain ⟨hl, rfl⟩ := hb
          refine ⟨?_, ?_⟩
          · rw [total_append]
            exact hk.merge hl hsmall.parts_lt
          · rw [U64.saturatingAdd_saturated, List.length_append]
      | _ => exact hb.elim
  | _ => exact ha.elim

/-- Folded rows hold the sum of their numbers. -/
theorem sumOf_foldRows (hsmall : SmallWhole (summands f rows)) :
    ((Agg.sum f).foldRows rows).SumOf (summands f rows) := by
  rw [foldRows_sum]
  generalize summands f rows = nums at hsmall ⊢
  induction nums using List.reverseRecOn with
  | nil =>
      rw [List.foldl_nil, Accum.SumOf]
      exact ⟨fun _ hnum => absurd hnum List.not_mem_nil, I128.zero_val⟩
  | append_singleton nums num ih =>
      rw [List.foldl_concat]
      exact (ih (hsmall.sublist (List.sublist_append_left _ _))).foldSum hsmall

theorem meanOf_foldRows (hsmall : SmallWhole (meanCells f rows)) :
    ((Agg.avg f).foldRows rows).MeanOf (meanCells f rows) := by
  induction rows using List.reverseRecOn with
  | nil => exact ⟨KahanSum.isWhole_zero, rfl⟩
  | append_singleton rows row ih =>
      have hcells : meanCells f (rows ++ [row]) =
          meanCells f rows ++ ((row[f]?.bind asF64).map Num.float).toList := by
        rw [meanCells_append, meanCells.eq_1 f [row], numericCells_singleton]
        cases row[f]?.bind asF64 <;> rfl
      rw [hcells] at hsmall ⊢
      have hfirst := ih (hsmall.sublist (List.sublist_append_left _ _))
      rw [Agg.foldRows, List.foldl_concat]
      change ((Agg.avg f).fold row ((Agg.avg f).foldRows rows)).MeanOf _
      cases hacc : (Agg.avg f).foldRows rows with
      | avg k n =>
          rw [hacc] at hfirst
          obtain ⟨hk, rfl⟩ := hfirst
          cases hcell : row[f]?.bind asF64 with
          | none =>
              rw [Agg.fold, hcell, Option.map_none, Option.toList_none, List.append_nil]
              exact ⟨hk, rfl⟩
          | some v =>
              rw [hcell, Option.map_some, Option.toList_some] at hsmall
              have hparts := hsmall.parts_lt
              rw [total_singleton] at hparts
              have hv := (hsmall.whole (.float v) (by simp)).isInteger (by omega)
              rw [Agg.fold, hcell, Option.map_some, Option.toList_some]
              refine ⟨?_, ?_⟩
              · rw [total_append, total_singleton]
                exact hk.add hv hparts
              · rw [U64.saturatingAdd_one, List.length_append]
                rfl
      | _ =>
          rw [hacc] at hfirst
          exact hfirst.elim

theorem Accum.SumOf.perm (h : acc.SumOf xs) (hperm : xs.Perm ys) : acc.SumOf ys := by
  cases acc with
  | intSum n =>
      obtain ⟨hints, hn⟩ := h
      exact ⟨fun num hnum => hints num (hperm.mem_iff.mpr hnum), hn.trans (total_perm hperm)⟩
  | sum k =>
      obtain ⟨⟨num, hnum, hfloat⟩, hk⟩ := h
      exact ⟨⟨num, hperm.mem_iff.mp hnum, hfloat⟩, total_perm hperm ▸ hk⟩
  | _ => exact h.elim

theorem Accum.MeanOf.perm (h : acc.MeanOf xs) (hperm : xs.Perm ys) : acc.MeanOf ys := by
  cases acc with
  | avg k n =>
      obtain ⟨hk, hn⟩ := h
      exact ⟨total_perm hperm ▸ hk, hn.trans (congrArg U64.saturated hperm.length_eq)⟩
  | _ => exact h.elim

end Accum

/-! ## Output values -/

/-- The value that is written for a sum of whole numbers. -/
def SumValue (json : SerdeJson) (nums : List Num) (v : Value) : Prop :=
  if ∀ num ∈ nums, num.integer.isSome = true then
    ∃ n : I128, n.val = wholeTotal nums ∧ json.ofI128 n = some v
  else v = .ofF64 (intToF64 (wholeTotal nums))

/-- The value that is written for a mean of whole numbers. -/
def meanValue (nums : List Num) : Value :=
  if nums.isEmpty then .null
  else .ofF64 (intToF64 (wholeTotal nums) / intToF64 (U64.saturated nums.length).val)

section Values

variable {json : SerdeJson} {f : String} {acc : Accum} {nums : List Num} {v : Value}

theorem Accum.SumOf.finalizeValue (hsmall : SmallWhole nums) (h : acc.SumOf nums)
    (hv : acc.finalizeValue json = some v) : SumValue json nums v := by
  rw [SumValue]
  cases acc with
  | intSum n =>
      rw [if_pos h.1]
      exact ⟨n, h.2, hv⟩
  | sum k =>
      obtain ⟨⟨num, hnum, hfloat⟩, hk⟩ := h
      rw [if_neg fun hall => by simpa [hfloat] using hall num hnum]
      rw [Accum.finalizeValue, hk.total_eq hsmall.total_lt] at hv
      exact (Option.some.inj hv).symm
  | _ => exact h.elim

theorem Accum.MeanOf.finalizeValue (hsmall : SmallWhole nums) (h : acc.MeanOf nums) :
    acc.finalizeValue json = some (meanValue nums) := by
  cases acc with
  | avg k n =>
      obtain ⟨hk, rfl⟩ := h
      rw [Accum.finalizeValue, meanValue, hk.total_eq hsmall.total_lt]
      cases nums with
      | nil => rfl
      | cons num nums =>
          have hcount : (U64.saturated (num :: nums).length).val ≠ 0 := by
            rw [U64.saturated, List.length_cons]
            dsimp only
            omega
          rw [if_neg hcount, List.isEmpty_cons, if_neg Bool.false_ne_true]
  | _ => exact h.elim

theorem Agg.outputName_inj {a b : Agg} : a.outputName = b.outputName ↔ a = b := by
  rw [← String.toList_inj]
  cases a <;> cases b <;>
    simp [Agg.outputName, String.toList_append, String.toList_inj]

/-- Under the name of an aggregate stands the value of its accumulator. -/
theorem finalizeAccs_value {aggs : List Agg} {g : Agg → Accum}
    {values out : BTreeMap String Value}
    (hout : finalizeAccs json aggs (aggs.map g) values = some out) {agg : Agg}
    (hagg : agg ∈ aggs ∨
      ∃ v, (g agg).finalizeValue json = some v ∧ values[agg.outputName]? = some v) :
    ∃ v, (g agg).finalizeValue json = some v ∧ out[agg.outputName]? = some v := by
  induction aggs generalizing values with
  | nil =>
      cases hout
      exact hagg.resolve_left List.not_mem_nil
  | cons first aggs ih =>
      obtain ⟨v, hv, hout⟩ := Option.bind_eq_some_iff.mp hout
      apply ih hout
      by_cases hfirst : agg = first
      · subst hfirst
        exact .inr ⟨v, hv, Std.ExtTreeMap.getElem?_insert_self⟩
      · refine hagg.imp (fun hmem => (List.mem_cons.mp hmem).resolve_left hfirst) ?_
        rintro ⟨w, hw, hget⟩
        refine ⟨w, hw, ?_⟩
        rw [Std.ExtTreeMap.getElem?_insert, if_neg, hget]
        exact fun h => hfirst (Agg.outputName_inj.mp (Std.LawfulEqOrd.eq_of_compare h)).symm

end Values

namespace Query

variable {json : SerdeJson} {q : Query} {f : String} {rows : List Row}
  {tree : MergeTree (List Row)} {out : List GroupResult} {key : List String} {g : Agg → Accum}

/-- An output row is finalised from the accumulators of its group. -/
theorem exists_groupOf (hout : (q.evalTree json tree).finalize json = some out)
    {row : GroupResult} (hrow : row ∈ out) : ∃ g, q.groupOf json row.key tree = some g ∧
      ∀ agg ∈ q.aggregates, ∃ v, (g agg).finalizeValue json = some v ∧
        row.values[agg.outputName]? = some v := by
  obtain ⟨accs, hget, hvalues⟩ := Partial.finalize_mem hout hrow
  rw [getElem?_eval, Option.map_eq_some_iff] at hget
  obtain ⟨g, hg, rfl⟩ := hget
  have haggs : (q.evalTree json tree).aggregates = q.aggregates := eval_aggregates tree
  rw [haggs] at hvalues
  exact ⟨g, hg, fun agg hagg => finalizeAccs_value hvalues (.inl hagg)⟩

/-- What holds of folded small numbers and is kept by merging them holds of the group. -/
theorem groupOf_small {agg : Agg} {cells : List Row → List Num}
    {R : List Num → Accum → Prop} (happend : ∀ xs ys, cells (xs ++ ys) = cells xs ++ cells ys)
    (hfold : ∀ rows, SmallWhole (cells rows) → R (cells rows) (agg.foldRows rows))
    (hmerge : ∀ xs ys a b, SmallWhole (xs ++ ys) → R xs a → R ys b → R (xs ++ ys) (a.merge b))
    (hg : q.groupOf json key tree = some g)
    (hsmall : SmallWhole (cells (q.members json key tree.parts.flatten))) :
    R (cells (q.members json key tree.parts.flatten)) (g agg) := by
  refine groupOf_rule (R := fun rows acc => SmallWhole (cells rows) → R (cells rows) acc) hfold ?_
    hg hsmall
  intro xs ys a b ha hb hsmall
  rw [happend] at hsmall ⊢
  exact hmerge _ _ _ _ hsmall (ha (hsmall.sublist (List.sublist_append_left _ _)))
    (hb (hsmall.sublist (List.sublist_append_right _ _)))

theorem sumOf_groupOf
    (hsmall : SmallWhole (summands f (q.members json key tree.parts.flatten)))
    (hg : q.groupOf json key tree = some g) :
    (g (.sum f)).SumOf (summands f (q.members json key tree.parts.flatten)) :=
  groupOf_small (R := fun nums acc => acc.SumOf nums) (summands_append f)
    (fun _ => sumOf_foldRows) (fun _ _ _ _ => .merge) hg hsmall

theorem meanOf_groupOf
    (hsmall : SmallWhole (meanCells f (q.members json key tree.parts.flatten)))
    (hg : q.groupOf json key tree = some g) :
    (g (.avg f)).MeanOf (meanCells f (q.members json key tree.parts.flatten)) :=
  groupOf_small (R := fun nums acc => acc.MeanOf nums) meanCells_append
    (fun _ => meanOf_foldRows) (fun _ _ _ _ => .merge) hg hsmall

/-- However the rows are put into shards and merged, a sum of whole numbers is exact. -/
theorem sum_whole (hdist : tree.parts.flatten.Perm rows) (hf : .sum f ∈ q.aggregates)
    (hout : (q.evalTree json tree).finalize json = some out) {row : GroupResult}
    (hrow : row ∈ out) (hsmall : SmallWhole (summands f (q.members json row.key rows))) :
    ∃ v, row.values["sum_" ++ f]? = some v ∧
      SumValue json (summands f (q.members json row.key rows)) v := by
  obtain ⟨g, hg, hvalues⟩ := exists_groupOf hout hrow
  have hgroup : (q.members json row.key tree.parts.flatten).Perm (q.members json row.key rows) :=
    members_perm hdist
  have hperm := summands_perm f hgroup
  have hsum := sumOf_groupOf (hsmall.perm hperm.symm) hg
  obtain ⟨v, hv, hget⟩ := hvalues _ hf
  exact ⟨v, hget, (hsum.perm hperm).finalizeValue hsmall hv⟩

/-- And so is a mean, but for its one division. -/
theorem mean_whole (hdist : tree.parts.flatten.Perm rows) (hf : .avg f ∈ q.aggregates)
    (hout : (q.evalTree json tree).finalize json = some out) {row : GroupResult}
    (hrow : row ∈ out) (hsmall : SmallWhole (meanCells f (q.members json row.key rows))) :
    row.values["avg_" ++ f]? = some (meanValue (meanCells f (q.members json row.key rows))) := by
  obtain ⟨g, hg, hvalues⟩ := exists_groupOf hout hrow
  have hgroup : (q.members json row.key tree.parts.flatten).Perm (q.members json row.key rows) :=
    members_perm hdist
  have hperm := (numericCells_perm f hgroup).map Num.float
  have hmean := meanOf_groupOf (hsmall.perm hperm.symm) hg
  obtain ⟨v, hv, hget⟩ := hvalues _ hf
  rw [(hmean.perm hperm).finalizeValue hsmall] at hv
  rw [Option.some.inj hv]
  exact hget

end Query

end CeQuery
