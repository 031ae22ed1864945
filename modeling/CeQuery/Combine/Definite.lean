import CeQuery.Combine.WholeNumbers

/-!
# Answers that do not depend on the way

For some cells an aggregate has one value, however the rows are put into shards, ordered
and merged (`Agg.Definite`): counts always have; sums have if they stay in the lane of
integers or their cells are small whole numbers, and means in the latter case; extrema
have if no cell is a negative zero or not a number, as both zeros are equal. Two ways of
computing a query with definite aggregates from the same rows end with the same output
rows (`finalize_definite`).
-/

namespace CeQuery

/-- The value of the aggregate on these rows does not depend on the way it is computed. -/
def Agg.Definite (rows : List Row) : Agg → Prop
  | .count => True
  | .sum f => ExactSum f rows ∨ SmallWhole (summands f rows)
  | .min f => ∀ x ∈ numericCells f rows, x.isNaN = false ∧ F64.NotNegZero x
  | .max f => ∀ x ∈ numericCells f rows, x.isNaN = false ∧ F64.NotNegZero x
  | .avg f => SmallWhole (meanCells f rows)

/-- Every aggregate of the query is definite in every group of these rows. -/
def Query.Definite (json : SerdeJson) (q : Query) (rows : List Row) : Prop :=
  ∀ agg ∈ q.aggregates, ∀ key, agg.Definite (q.members json key rows)

/-! ## Values that follow from the cells -/

section Values

variable {json : SerdeJson} {f : String} {acc acc' : Accum} {nums : List Num} {xs ys : List F64}
  {m n : Option F64} {e : F64.End}

/-- Without a negative zero there is one extremum. -/
theorem F64.OptExtremum.unique (hm : F64.OptExtremum e xs m) (hn : F64.OptExtremum e xs n)
    (hcells : ∀ x ∈ xs, x.isNaN = false ∧ F64.NotNegZero x) : m = n := by
  cases m with
  | none =>
      have hnil : xs = [] := hm
      subst hnil
      cases n with
      | none => rfl
      | some y => exact absurd hn.mem List.not_mem_nil
  | some x =>
      cases n with
      | none =>
          have hnil : xs = [] := hn
          subst hnil
          exact absurd hm.mem List.not_mem_nil
      | some y =>
          have hx : F64.Extremum e xs x := hm
          have hy : F64.Extremum e xs y := hn
          obtain ⟨hle, hge⟩ := hx.equal hy fun z hz => (hcells z hz).1
          exact congrArg some (F64.eq_of_le_of_le hle hge (hcells x hx.mem).2 (hcells y hy.mem).2)

theorem Accum.SumOf.unique (hsmall : SmallWhole nums) (h : acc.SumOf nums) (h' : acc'.SumOf nums) :
    acc.finalizeValue json = acc'.finalizeValue json := by
  cases acc with
  | intSum s =>
      obtain ⟨hints, hs⟩ := h
      cases acc' with
      | intSum t =>
          have heq : s = t := BoundedInt.ext (hs.trans h'.2.symm)
          rw [heq]
      | sum l =>
          obtain ⟨⟨num, hnum, hfloat⟩, _⟩ := h'
          have hint := hints num hnum
          rw [hfloat] at hint
          cases hint
      | _ => exact h'.elim
  | sum k =>
      obtain ⟨⟨num, hnum, hfloat⟩, hk⟩ := h
      cases acc' with
      | intSum t =>
          have hint := h'.1 num hnum
          rw [hfloat] at hint
          cases hint
      | sum l =>
          rw [Accum.finalizeValue, Accum.finalizeValue, hk.total_eq hsmall.total_lt,
            h'.2.total_eq hsmall.total_lt]
      | _ => exact h'.elim
  | _ => exact h.elim

/-- A description leaves one value, but for means and zeros. -/
theorem Agg.Describes.unique {agg : Agg} {rows : List Row} (h : agg.Describes rows acc)
    (h' : agg.Describes rows acc') (hdefinite : agg.Definite rows) (hmean : ∀ f, agg ≠ .avg f) :
    acc = acc' := by
  cases agg with
  | avg f => exact absurd rfl (hmean f)
  | count =>
      cases acc <;> simp only [Describes] at h
      cases acc' <;> simp only [Describes] at h'
      rw [h, h']
  | sum f =>
      cases acc <;> simp only [Describes] at h
      cases acc' <;> simp only [Describes] at h'
      exact congrArg Accum.intSum (BoundedInt.ext (h.trans h'.symm))
  | min f =>
      cases acc <;> simp only [Describes] at h
      cases acc' <;> simp only [Describes] at h'
      exact congrArg Accum.min (F64.OptExtremum.unique h h' hdefinite)
  | max f =>
      cases acc <;> simp only [Describes] at h
      cases acc' <;> simp only [Describes] at h'
      exact congrArg Accum.max (F64.OptExtremum.unique h h' hdefinite)

theorem Agg.Exact.perm {agg : Agg} {xs ys : List Row} (h : agg.Exact xs) (hperm : xs.Perm ys) :
    agg.Exact ys := by
  cases agg with
  | sum f => exact ExactSum.perm h hperm
  | _ => trivial

/-- Accumulators that write the same values write the same row. -/
theorem finalizeAccs_map_congr {aggs : List Agg} {g g' : Agg → Accum}
    (h : ∀ agg ∈ aggs, (g agg).finalizeValue json = (g' agg).finalizeValue json)
    (values : BTreeMap String Value) :
    finalizeAccs json aggs (aggs.map g) values = finalizeAccs json aggs (aggs.map g') values := by
  induction aggs generalizing values with
  | nil => rfl
  | cons agg aggs ih =>
      rw [List.forall_mem_cons] at h
      rw [List.map_cons, List.map_cons, finalizeAccs, finalizeAccs, h.1]
      simp only [ih h.2]

/-- Partials whose groups write the same rows are finalised alike. -/
theorem Partial.finalize_congr {p p' : Partial}
    (h : ∀ key : List String, Option.Rel (fun accs accs' =>
      finalizeAccs json p.aggregates accs ∅ = finalizeAccs json p'.aggregates accs' ∅)
        p.groups[key]? p'.groups[key]?) :
    p.finalize json = p'.finalize json := by
  have hentries := BTreeMap.forall₂_toList h
  rw [Partial.finalize, Partial.finalize]
  generalize p.groups.toList = entries at hentries ⊢
  generalize p'.groups.toList = entries' at hentries ⊢
  induction hentries with
  | nil => rfl
  | cons hentry _ ih =>
      rw [List.mapM_cons, List.mapM_cons, ih, hentry.1, hentry.2]

end Values

/-! ## Two ways over the same rows -/

namespace Query

variable {json : SerdeJson} {q : Query} {key : List String} {rows : List Row} {agg : Agg}
  {tree tree' : MergeTree (List Row)} {g g' : Agg → Accum}

theorem describes_groupOf (hexact : agg.Exact (q.members json key tree.parts.flatten))
    (hg : q.groupOf json key tree = some g) :
    agg.Describes (q.members json key tree.parts.flatten) (g agg) := by
  refine groupOf_rule (R := fun rows acc => agg.Exact rows → agg.Describes rows acc)
    (fun _ => foldRows_describes) ?_ hg hexact
  intro xs ys a b ha hb hexact
  exact .merge hexact.carried (ha (hexact.sublist (List.sublist_append_left _ _)))
    (hb (hexact.sublist (List.sublist_append_right _ _)))

/-- What two ways over the same rows write for a definite aggregate is the same. -/
theorem finalizeValue_definite (hdist : tree.parts.flatten.Perm rows)
    (hdist' : tree'.parts.flatten.Perm rows) (hdefinite : agg.Definite (q.members json key rows))
    (hg : q.groupOf json key tree = some g) (hg' : q.groupOf json key tree' = some g') :
    (g agg).finalizeValue json = (g' agg).finalizeValue json := by
  have hperm : (q.members json key tree.parts.flatten).Perm (q.members json key rows) :=
    members_perm hdist
  have hperm' : (q.members json key tree'.parts.flatten).Perm (q.members json key rows) :=
    members_perm hdist'
  have hdescribed : (∀ f, agg ≠ .avg f) → agg.Exact (q.members json key rows) →
      (g agg).finalizeValue json = (g' agg).finalizeValue json := by
    intro hmean hexact
    have h := (describes_groupOf (hexact.perm hperm.symm) hg).perm hperm
    have h' := (describes_groupOf (hexact.perm hperm'.symm) hg').perm hperm'
    rw [h.unique h' hdefinite hmean]
  cases agg with
  | count => exact hdescribed nofun trivial
  | min f => exact hdescribed nofun trivial
  | max f => exact hdescribed nofun trivial
  | sum f =>
      obtain hexact | hsmall := hdefinite
      · exact hdescribed nofun hexact
      · have hcells := summands_perm f hperm
        have hcells' := summands_perm f hperm'
        have h := (sumOf_groupOf (hsmall.perm hcells.symm) hg).perm hcells
        have h' := (sumOf_groupOf (hsmall.perm hcells'.symm) hg').perm hcells'
        exact h.unique hsmall h'
  | avg f =>
      have hsmall : SmallWhole (meanCells f (q.members json key rows)) := hdefinite
      have hcells := (numericCells_perm f hperm).map Num.float
      have hcells' := (numericCells_perm f hperm').map Num.float
      rw [((meanOf_groupOf (hsmall.perm hcells.symm) hg).perm hcells).finalizeValue hsmall,
        ((meanOf_groupOf (hsmall.perm hcells'.symm) hg').perm hcells').finalizeValue hsmall]

/-- Two ways over the same rows end with the same output rows, if the aggregates are
definite. -/
theorem finalize_definite (hdist : tree.parts.flatten.Perm rows)
    (hdist' : tree'.parts.flatten.Perm rows) (hdefinite : q.Definite json rows) :
    (q.evalTree json tree).finalize json = (q.evalTree json tree').finalize json := by
  have haggs : (q.evalTree json tree).aggregates = q.aggregates := eval_aggregates tree
  have haggs' : (q.evalTree json tree').aggregates = q.aggregates := eval_aggregates tree'
  apply Partial.finalize_congr
  intro key
  rw [getElem?_eval, getElem?_eval, haggs, haggs']
  have hnone : q.groupOf json key tree = none ↔ q.groupOf json key tree' = none := by
    have hboth : (q.members json key tree.parts.flatten).Perm
        (q.members json key tree'.parts.flatten) := members_perm (hdist.trans hdist'.symm)
    rw [groupOf_eq_none_iff, groupOf_eq_none_iff]
    exact ⟨fun h => List.nil_perm.mp (h ▸ hboth), fun h => List.perm_nil.mp (h ▸ hboth)⟩
  cases hg : q.groupOf json key tree with
  | none =>
      rw [hnone.mp hg]
      exact .none
  | some g =>
      cases hg' : q.groupOf json key tree' with
      | none => exact absurd (hnone.mpr hg') (by rw [hg]; exact Option.some_ne_none g)
      | some g' =>
          refine .some (finalizeAccs_map_congr ?_ ∅)
          intro agg hagg
          exact finalizeValue_definite hdist hdist' (hdefinite agg hagg key) hg hg'

end Query

end CeQuery
