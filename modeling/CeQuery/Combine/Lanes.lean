import CeQuery.Combine.Groups

/-!
# The lane in which a sum ends

A sum leaves the lane of integers when a running total does not fit, and never comes
back. So the order of the rows, the shards and the merges can decide in which lane it
ends. They cannot if the total itself does not fit: then no way can end with it, and
an accumulator in the lane has the exact total (`Accum.Tallies`). They cannot either
if no running total of any way leaves the range, which are those between the sum of
the negative cells and the sum of the positive ones (`Steady`). In all other cases
they do (`laneAgrees_iff`).
-/

namespace CeQuery

/-- The integer fits 128 bits. -/
def FitsI128 (n : Int) : Prop :=
  -2 ^ 127 ≤ n ∧ n ≤ 2 ^ 127 - 1

instance (n : Int) : Decidable (FitsI128 n) :=
  inferInstanceAs (Decidable (_ ∧ _))

/-- Neither the positive nor the negative integers leave the range when they are added
on their own. -/
def Steady (ns : List Int) : Prop :=
  FitsI128 (ns.filter (0 < ·)).sum ∧ FitsI128 (ns.filter (· < 0)).sum

/-- The total does not fit, or no order of the additions leaves the range on the way. -/
def LaneSafe (ns : List Int) : Prop :=
  FitsI128 ns.sum → Steady ns

instance (ns : List Int) : Decidable (LaneSafe ns) :=
  inferInstanceAs (Decidable (FitsI128 _ → FitsI128 _ ∧ FitsI128 _))

/-- Both sums are integers, or both are floats. -/
def Accum.SameLane : Accum → Accum → Prop
  | .intSum _, .intSum _ => True
  | .sum _, .sum _ => True
  | _, _ => False

/-- An accumulator in the integer lane has the exact total. -/
def Accum.Tallies (ns : List Int) : Accum → Prop
  | .intSum n => n.val = ns.sum
  | .sum _ => True
  | _ => False

/-- However the rows are ordered, put into shards and merged, the sums of `f` in a group
end in the same lane, and with the exact total of the cells if it fits. -/
def Query.LaneAgrees (json : SerdeJson) (q : Query) (key : List String) (f : String)
    (rows : List Row) : Prop :=
  ∀ tree tree' : MergeTree (List Row),
    tree.parts.flatten.Perm rows → tree'.parts.flatten.Perm rows →
    ∀ accs accs' : List Accum, (q.evalTree json tree).groups[key]? = some accs →
      (q.evalTree json tree').groups[key]? = some accs' →
      ∀ i : Nat, q.aggregates[i]? = some (.sum f) → ∃ acc acc' : Accum,
        accs[i]? = some acc ∧ accs'[i]? = some acc' ∧ acc.SameLane acc' ∧
          (FitsI128 (integralCells f (q.members json key rows)).sum →
            ∃ n, n.val = (integralCells f (q.members json key rows)).sum ∧
              acc = .intSum n ∧ acc' = .intSum n)

/-! ## Positive and negative integers -/

section Signs

variable {ns zs : List Int}

theorem sum_filter_pos_nonneg : 0 ≤ (ns.filter (0 < ·)).sum := by
  apply List.sum_nonneg
  intro n hn
  have := of_decide_eq_true (List.mem_filter.mp hn).2
  omega

theorem sum_filter_neg_nonpos : (ns.filter (· < 0)).sum ≤ 0 := by
  induction ns with
  | nil => exact Int.le_refl 0
  | cons n ns ih =>
      rw [List.filter_cons]
      split
      · rename_i hn
        have := of_decide_eq_true hn
        rw [List.sum_cons]
        omega
      · exact ih

theorem sum_eq_filter (ns : List Int) :
    ns.sum = (ns.filter (0 < ·)).sum + (ns.filter (· < 0)).sum := by
  induction ns with
  | nil => rfl
  | cons n ns ih =>
      rw [List.sum_cons, ih, List.filter_cons, List.filter_cons]
      rcases lt_trichotomy n 0 with hn | rfl | hn
      · simp [hn, Int.not_lt.mpr (Int.le_of_lt hn)]
        omega
      · simp
      · simp [hn, Int.not_lt.mpr (Int.le_of_lt hn)]
        omega

theorem Steady.append_left (h : Steady (ns ++ zs)) : Steady ns := by
  rw [Steady, FitsI128, FitsI128, List.filter_append, List.sum_append, List.filter_append,
    List.sum_append] at h
  have := @sum_filter_pos_nonneg ns
  have := @sum_filter_pos_nonneg zs
  have := @sum_filter_neg_nonpos ns
  have := @sum_filter_neg_nonpos zs
  rw [Steady, FitsI128, FitsI128]
  omega

theorem Steady.perm (h : Steady ns) (hperm : ns.Perm zs) : Steady zs := by
  rw [Steady, ← (hperm.filter _).sum_eq, ← (hperm.filter _).sum_eq]
  exact h

theorem Steady.append_right (h : Steady (ns ++ zs)) : Steady zs :=
  (h.perm List.perm_append_comm).append_left

theorem Steady.fits (h : Steady ns) : FitsI128 ns.sum := by
  have := @sum_filter_pos_nonneg ns
  have := @sum_filter_neg_nonpos ns
  rw [Steady, FitsI128, FitsI128] at h
  rw [FitsI128, sum_eq_filter]
  omega

end Signs

/-! ## What a sum tells -/

section Fold

variable {f : String} {acc a b : Accum} {num : Num} {n : I128} {ns ms : List Int}
  {xs ys rows : List Row}

theorem Accum.Tallies.foldSum (h : acc.Tallies ns) (num : Num) :
    (foldSum acc num).Tallies (ns ++ num.integer.toList) := by
  cases acc with
  | intSum s =>
      cases num with
      | float v => trivial
      | int v =>
          cases hadd : s.checkedAdd v with
          | none =>
              rw [CeQuery.foldSum, hadd]
              trivial
          | some t =>
              rw [CeQuery.foldSum, hadd]
              change t.val = (ns ++ [v.val]).sum
              have hs : s.val = ns.sum := h
              rw [BoundedInt.narrow_eq_some hadd, hs, List.sum_append, List.sum_singleton]
  | sum k => cases num <;> trivial
  | _ => exact h.elim

theorem Accum.Tallies.merge (ha : a.Tallies ns) (hb : b.Tallies ms) :
    (a.merge b).Tallies (ns ++ ms) := by
  cases a with
  | intSum x =>
      cases b with
      | intSum y =>
          have hx : x.val = ns.sum := ha
          have hy : y.val = ms.sum := hb
          cases hadd : x.checkedAdd y with
          | none =>
              rw [Accum.merge, hadd]
              trivial
          | some s =>
              rw [Accum.merge, hadd]
              change s.val = (ns ++ ms).sum
              rw [BoundedInt.narrow_eq_some hadd, hx, hy, List.sum_append]
      | sum k => trivial
      | _ => exact hb.elim
  | sum k =>
      cases b with
      | intSum y => trivial
      | sum k' => trivial
      | _ => exact hb.elim
  | _ => exact ha.elim

/-- The folded rows tally their cells. -/
theorem tallies_foldRows (f : String) (rows : List Row) :
    ((Agg.sum f).foldRows rows).Tallies (integralCells f rows) := by
  rw [foldRows_sum]
  induction rows using List.reverseRecOn with
  | nil => rfl
  | append_singleton rows row ih =>
      rw [summands_append, summands_singleton, List.foldl_append, integralCells_append,
        integralCells_singleton]
      cases row[f]?.bind asNumber with
      | none =>
          rw [Option.toList_none, List.filterMap_nil, List.append_nil]
          exact ih
      | some num =>
          have hcell : [num].filterMap Num.integer = num.integer.toList := by
            cases num <;> rfl
          rw [Option.toList_some, hcell]
          exact ih.foldSum num

/-- A sum that is in the integer lane was in it before. -/
theorem exists_intSum_of_foldRows_append
    (h : (Agg.sum f).foldRows (xs ++ ys) = .intSum n) :
    ∃ m, (Agg.sum f).foldRows xs = .intSum m := by
  have hstep : ∀ acc num n, foldSum acc num = .intSum n → ∃ m, acc = .intSum m := by
    intro acc num n h
    cases acc <;> cases num <;> first | exact ⟨_, rfl⟩ | cases h
  have hrun : ∀ (nums : List Num) (acc : Accum), nums.foldl foldSum acc = .intSum n →
      ∃ m, acc = .intSum m := by
    intro nums
    induction nums with
    | nil => exact fun acc h => ⟨n, h⟩
    | cons num nums ih =>
        intro acc h
        obtain ⟨m, hm⟩ := ih _ h
        exact hstep _ _ _ hm
  rw [foldRows_sum, summands_append, List.foldl_append] at h
  rw [foldRows_sum]
  exact hrun _ _ h

/-- The total of each beginning of the rows fits if the sum ends in the integer lane. -/
theorem fits_of_foldRows_append (h : (Agg.sum f).foldRows (xs ++ ys) = .intSum n) :
    FitsI128 (integralCells f xs).sum := by
  obtain ⟨m, hm⟩ := exists_intSum_of_foldRows_append h
  have htally := tallies_foldRows f xs
  rw [hm] at htally
  have hval : m.val = (integralCells f xs).sum := htally
  rw [← hval]
  exact ⟨m.lo_le, m.le_hi⟩

/-- Rows with integers that are steady are described by their sum. -/
theorem described_foldRows (hcells : ∀ num ∈ summands f rows, num.integer.isSome = true)
    (hsteady : Steady (integralCells f rows)) :
    (Agg.sum f).Describes rows ((Agg.sum f).foldRows rows) := by
  induction rows using List.reverseRecOn with
  | nil => exact Agg.describes_zero _
  | append_singleton rows row ih =>
      have hfits := hsteady.fits
      rw [summands_append] at hcells
      rw [integralCells_append] at hsteady
      have hbefore := ih (fun num hnum => hcells num (List.mem_append_left _ hnum))
        hsteady.append_left
      rw [Agg.foldRows, List.foldl_concat]
      apply hbefore.fold
      rw [Agg.Carried, summands_append]
      exact ⟨hcells, hfits⟩

end Fold

/-! ## The two directions -/

namespace Query

variable {json : SerdeJson} {q : Query} {key : List String} {f : String} {rows : List Row}
  {tree : MergeTree (List Row)} {g : Agg → Accum}

theorem tallies_groupOf (h : q.groupOf json key tree = some g) :
    (g (.sum f)).Tallies (integralCells f (q.members json key tree.parts.flatten)) := by
  apply groupOf_rule (R := fun rows acc => acc.Tallies (integralCells f rows)) _ _ h
  · exact tallies_foldRows f
  · intro xs ys a b ha hb
    rw [integralCells_append]
    exact ha.merge hb

theorem described_groupOf
    (hcells : ∀ num ∈ summands f (q.members json key tree.parts.flatten),
      num.integer.isSome = true)
    (hsteady : Steady (integralCells f (q.members json key tree.parts.flatten)))
    (h : q.groupOf json key tree = some g) :
    (Agg.sum f).Describes (q.members json key tree.parts.flatten) (g (.sum f)) := by
  refine groupOf_rule (R := fun rows acc => (∀ num ∈ summands f rows, num.integer.isSome = true) →
    Steady (integralCells f rows) → (Agg.sum f).Describes rows acc) ?_ ?_ h hcells hsteady
  · exact fun _ => described_foldRows
  · intro xs ys a b ha hb hcells hsteady
    have hfits := hsteady.fits
    rw [summands_append] at hcells
    rw [integralCells_append] at hsteady
    apply Agg.Describes.merge
    · rw [Agg.Carried, summands_append]
      exact ⟨hcells, hfits⟩
    · exact ha (fun num hnum => hcells num (List.mem_append_left _ hnum)) hsteady.append_left
    · exact hb (fun num hnum => hcells num (List.mem_append_right _ hnum)) hsteady.append_right

/-- If the cells are safe, every sum ends with the exact total, unless this does not
fit. -/
theorem ends_of_laneSafe
    (hcells : ∀ num ∈ summands f (q.members json key rows), num.integer.isSome = true)
    (hsafe : LaneSafe (integralCells f (q.members json key rows)))
    (hdist : tree.parts.flatten.Perm rows) (h : q.groupOf json key tree = some g) :
    (¬FitsI128 (integralCells f (q.members json key rows)).sum ∧ ∃ k, g (.sum f) = .sum k) ∨
      ∃ n, n.val = (integralCells f (q.members json key rows)).sum ∧ g (.sum f) = .intSum n := by
  have hmembers : (q.members json key tree.parts.flatten).Perm (q.members json key rows) :=
    members_perm hdist
  have htotal := (integralCells_perm f hmembers).sum_eq
  have htally := tallies_groupOf (f := f) h
  cases hacc : g (.sum f) with
  | intSum n =>
      rw [hacc] at htally
      have hval : n.val = _ := htally
      exact .inr ⟨n, hval.trans htotal, rfl⟩
  | sum k =>
      refine .inl ⟨?_, k, rfl⟩
      intro hfits
      have hsteady := (hsafe hfits).perm (integralCells_perm f hmembers).symm
      have hdescribed := described_groupOf
        (fun num hnum => hcells num ((summands_perm f hmembers).subset hnum)) hsteady h
      rw [hacc] at hdescribed
      exact hdescribed
  | _ =>
      rw [hacc] at htally
      exact htally.elim

theorem laneAgrees_of_laneSafe
    (hcells : ∀ num ∈ summands f (q.members json key rows), num.integer.isSome = true)
    (hsafe : LaneSafe (integralCells f (q.members json key rows))) :
    q.LaneAgrees json key f rows := by
  intro tree tree' hdist hdist' accs accs' haccs haccs' i hi
  rw [getElem?_eval, Option.map_eq_some_iff] at haccs haccs'
  obtain ⟨g, hg, rfl⟩ := haccs
  obtain ⟨g', hg', rfl⟩ := haccs'
  refine ⟨g (.sum f), g' (.sum f), by rw [List.getElem?_map, hi]; rfl,
    by rw [List.getElem?_map, hi]; rfl, ?_⟩
  rcases ends_of_laneSafe hcells hsafe hdist hg with ⟨hfits, k, hk⟩ | ⟨n, hn, hacc⟩
  · rcases ends_of_laneSafe hcells hsafe hdist' hg' with ⟨_, k', hk'⟩ | ⟨n', hn', _⟩
    · rw [hk, hk']
      exact ⟨trivial, fun h => absurd h hfits⟩
    · rw [← hn'] at hfits
      exact absurd ⟨n'.lo_le, n'.le_hi⟩ hfits
  · rcases ends_of_laneSafe hcells hsafe hdist' hg' with ⟨hfits, _⟩ | ⟨n', hn', hacc'⟩
    · rw [← hn] at hfits
      exact absurd ⟨n.lo_le, n.le_hi⟩ hfits
    · have heq : n = n' := BoundedInt.ext (hn.trans hn'.symm)
      rw [hacc, hacc', heq]
      exact ⟨trivial, fun _ => ⟨n', hn', rfl, rfl⟩⟩

/-- The row has an integer in the column, and this has the property. -/
def cellHas (f : String) (p : Int → Bool) (row : Row) : Bool :=
  ((row[f]?.bind asNumber).bind Num.integer).any p

theorem integralCells_filter (p : Int → Bool) (rows : List Row) :
    integralCells f (rows.filter (cellHas f p)) = (integralCells f rows).filter p := by
  rw [integralCells, summands, integralCells, summands, List.filterMap_filterMap,
    List.filterMap_filterMap]
  induction rows with
  | nil => rfl
  | cons row rows ih =>
      rw [List.filter_cons, List.filterMap_cons]
      cases hcell : (row[f]?.bind asNumber).bind Num.integer with
      | none =>
          rw [if_neg (by simp [cellHas, hcell])]
          exact ih
      | some n =>
          rw [List.filter_cons]
          by_cases hn : p n = true
          · rw [if_pos (by simpa [cellHas, hcell] using hn), if_pos hn, List.filterMap_cons, hcell,
              ih]
          · rw [if_neg (by simpa [cellHas, hcell] using hn), if_neg hn]
            exact ih

/-- If the lanes agree and the total fits, a single shard ends with the total. -/
theorem LaneAgrees.foldRows_eq (hagrees : q.LaneAgrees json key f rows)
    (hf : .sum f ∈ q.aggregates)
    (hfits : FitsI128 (integralCells f (q.members json key rows)).sum) {rows' : List Row}
    (hperm : rows'.Perm rows) (hsome : q.members json key rows' ≠ []) :
    ∃ n, (Agg.sum f).foldRows (q.members json key rows') = .intSum n := by
  have hdist : (MergeTree.part rows').parts.flatten.Perm rows := by
    rwa [MergeTree.parts, List.flatten_singleton]
  have hgroup : (q.evalTree json (.part rows')).groups[key]? =
      some (q.aggregates.map fun agg => agg.foldRows (q.members json key rows')) := by
    rw [getElem?_eval]
    change (q.groupOfShard json key rows').map _ = _
    rw [groupOfShard_eq_some_iff.mpr ⟨hsome, rfl⟩]
    rfl
  obtain ⟨i, hi⟩ := List.mem_iff_getElem?.mp hf
  obtain ⟨acc, _, hacc, _, _, hexact⟩ :=
    hagrees _ _ hdist hdist _ _ hgroup hgroup i hi
  obtain ⟨n, _, rfl, _⟩ := hexact hfits
  rw [List.getElem?_map, hi] at hacc
  exact ⟨n, Option.some.inj hacc⟩

/-- Rows whose cells have a property can come first, and then their total is one on the
way. -/
theorem LaneAgrees.fits (hagrees : q.LaneAgrees json key f rows) (hf : .sum f ∈ q.aggregates)
    (hfits : FitsI128 (integralCells f (q.members json key rows)).sum)
    (p : Int → Bool) : FitsI128 ((integralCells f (q.members json key rows)).filter p).sum := by
  have hperm : (rows.filter (cellHas f p) ++ rows.filter fun row => !cellHas f p row).Perm rows :=
    List.filter_append_perm _ _
  have hfirst : q.members json key (rows.filter (cellHas f p)) =
      (q.members json key rows).filter (cellHas f p) := by
    rw [members, members, List.filter_filter, List.filter_filter]
    simp only [Bool.and_comm]
  rw [← integralCells_filter, ← hfirst]
  by_cases hsome : q.members json key (rows.filter (cellHas f p)) = []
  · rw [hsome]
    change FitsI128 0
    decide
  · obtain ⟨n, hn⟩ := hagrees.foldRows_eq hf hfits hperm (by
      rw [members_append]
      exact List.append_ne_nil_of_left_ne_nil hsome _)
    rw [members_append] at hn
    exact fits_of_foldRows_append hn

/-- The way through the shards cannot be seen in the sum of integer cells exactly if they
are safe. -/
theorem laneAgrees_iff (json : SerdeJson) (q : Query) (key : List String) (f : String)
    (rows : List Row) (hf : .sum f ∈ q.aggregates)
    (hcells : ∀ num ∈ summands f (q.members json key rows), num.integer.isSome = true) :
    q.LaneAgrees json key f rows ↔ LaneSafe (integralCells f (q.members json key rows)) := by
  constructor
  · intro hagrees hfits
    exact ⟨hagrees.fits hf hfits _, hagrees.fits hf hfits _⟩
  · exact laneAgrees_of_laneSafe hcells

private def totalQuery : Query where
  dataset := "t"
  aggregates := [.sum "v"]
  predicate := .true
  groupBy := []
  orderBy := []
  limit := none
  projection := none

private def entry (s : String) : Row :=
  .ofList [("v", Value.string s)]

/-- Two cells that fit together with either sign. -/
theorem laneAgrees_iff_two : totalQuery.LaneAgrees .sample [] "v" [entry "5", entry "-7"] :=
  (laneAgrees_iff .sample totalQuery [] "v" [entry "5", entry "-7"] (by decide) (by decide)).mpr
    (by decide)

private def greatest : Row :=
  entry "170141183460469231731687303715884105727"

/-- The greatest integer, one and its negative end in different lanes. -/
theorem lanes_differ : (∀ num ∈ summands "v" [greatest, entry "1", entry "-1"],
      num.integer.isSome = true) ∧
    ¬totalQuery.LaneAgrees .sample [] "v" [greatest, entry "1", entry "-1"] := by
  refine ⟨by decide, ?_⟩
  intro hagrees
  have hswap : [greatest, entry "-1", entry "1"].Perm [greatest, entry "1", entry "-1"] :=
    (List.Perm.swap _ _ _).cons _
  obtain ⟨acc, acc', hacc, hacc', hlane, _⟩ :=
    hagrees (.part [greatest, entry "1", entry "-1"]) (.part [greatest, entry "-1", entry "1"])
      (.refl _) hswap _ _ rfl rfl 0 rfl
  cases hacc
  cases hacc'
  exact hlane

end Query

end CeQuery
