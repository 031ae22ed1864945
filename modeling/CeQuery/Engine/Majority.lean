import CeQuery.Engine.Quorum
import CeQuery.Foundation.Plurality
import CeQuery.Foundation.Ranking

/-!
# The partial a quorum chooses

When equal partials have equal canonical forms and different ones different
forms, the groups of copies are the partials that were collected, each with the
number of its copies and the position of the first one. The best group is then
the plurality of the partials, and `selectQuorum` returns it exactly when enough
copies hold it (`selectQuorum_ok_iff`).
-/

namespace CeQuery

deriving instance DecidableEq for KahanSum, Accum, Partial

section Greatest

variable {α : Type u} {cmp : α → α → Ordering}

theorem maxBy_eq_none {as : List α} : maxBy cmp as = none ↔ as = [] := by
  cases as with
  | nil => exact iff_of_true rfl rfl
  | cons a as => exact iff_of_false (Option.some_ne_none _) (List.cons_ne_nil a as)

/-- Nothing is greater than what `maxBy` finds. -/
theorem notAfter_maxBy [Std.TransCmp cmp] {as : List α} {a : α} (h : maxBy cmp as = some a) :
    ∀ b ∈ as, NotAfter cmp b a := by
  cases as with
  | nil => cases h
  | cons first rest =>
      cases h
      induction rest generalizing first with
      | nil =>
          intro b hb
          rw [List.mem_singleton.mp hb]
          exact NotAfter.refl first
      | cons x rest ih =>
          rw [List.foldl_cons]
          by_cases hgt : cmp first x = .gt
          · rw [if_pos hgt]
            have hbest := ih first
            rw [List.forall_mem_cons] at hbest ⊢
            refine ⟨hbest.1, List.forall_mem_cons.mpr ⟨?_, hbest.2⟩⟩
            have hx : NotAfter cmp x first := by
              simp [NotAfter, Std.OrientedCmp.gt_iff_lt.mp hgt]
            exact hx.trans hbest.1
          · rw [if_neg hgt]
            have hbest := ih x
            refine List.forall_mem_cons.mpr ⟨?_, hbest⟩
            exact NotAfter.trans hgt (List.forall_mem_cons.mp hbest).1

end Greatest

section Choice

variable {canonical : Partial → Option String} {copies : List (String × Partial)}
  {c : String × Partial} {quorum : Nat} {p : Partial}

/-- Equal partials have equal canonical forms, different ones different forms. -/
structure Distinguishes (canonical : Partial → Option String)
    (copies : List (String × Partial)) : Prop where
  prints : ∀ c ∈ copies, (canonical c.2).isSome = true
  injective : ∀ c ∈ copies, ∀ c' ∈ copies, canonical c.2 = canonical c'.2 → c.2 = c'.2

/-- The copies of one partial as a group. -/
def agreementOn (copies : List (String × Partial)) (p : Partial) : Agreement where
  count := (copies.map Prod.snd).count p
  firstSeen := (copies.map Prod.snd).idxOf p
  copy := p

/-- The group of a copy is that of the equal copies. -/
theorem copyGroup_of_mem (h : Distinguishes canonical copies) (hc : c ∈ copies) (i : Nat) :
    copyGroup canonical copies (copyKey canonical (c, i)) =
      copies.zipIdx.filter fun copy => decide (copy.1.2 = c.2) := by
  apply List.filter_congr
  intro copy hcopy
  have hmem : copy.1 ∈ copies := List.fst_mem_of_mem_zipIdx hcopy
  obtain ⟨text, htext⟩ := Option.isSome_iff_exists.mp (h.prints c hc)
  obtain ⟨text', htext'⟩ := Option.isSome_iff_exists.mp (h.prints copy.1 hmem)
  rw [copyKey, copyKey, htext, htext', decide_eq_decide, Option.getD_some, Option.getD_some]
  constructor
  · intro heq
    exact h.injective copy.1 hmem c hc (by rw [htext, htext', heq])
  · intro heq
    rw [heq, htext] at htext'
    exact (Option.some.inj htext').symm

theorem getElem?_groupCopies_of_mem (h : Distinguishes canonical copies) (hc : c ∈ copies)
    (i : Nat) : (groupCopies canonical copies)[copyKey canonical (c, i)]? =
      some (agreementOn copies c.2) := by
  rw [getElem?_groupCopies, copyGroup_of_mem h hc]
  cases hgroup : copies.zipIdx.filter fun copy => decide (copy.1.2 = c.2) with
  | nil =>
      obtain ⟨j, hj⟩ := List.mem_iff_getElem?.mp hc
      rw [List.filter_eq_nil_iff] at hgroup
      exact absurd (decide_eq_true rfl) (hgroup (c, j) (List.mem_zipIdx_iff_getElem?.mpr hj))
  | cons first rest =>
      have hfirst : first ∈ copies.zipIdx.filter fun copy => decide (copy.1.2 = c.2) :=
        hgroup ▸ List.mem_cons_self
      have hcopy : first.1.2 = c.2 := of_decide_eq_true (List.mem_filter.mp hfirst).2
      obtain ⟨hcount, hpos⟩ :=
        filter_zipIdx_eq_cons (p := fun copy : String × Partial => decide (copy.2 = c.2)) hgroup
      have hall : (copies.map Prod.snd).count c.2 = copies.countP fun copy => copy.2 = c.2 := by
        rw [List.count, List.countP_map]
        rfl
      have hidx : (copies.map Prod.snd).idxOf c.2 = copies.findIdx fun copy => copy.2 = c.2 := by
        rw [List.idxOf, List.findIdx_map]
        rfl
      dsimp only
      rw [agreementOn, hcount, hpos, hcopy, hall, hidx, Nat.zero_add]

/-- The groups are the partials of the copies. -/
theorem mem_agreements (h : Distinguishes canonical copies) {group : Agreement} :
    group ∈ (groupCopies canonical copies).toList.map (·.2) ↔
      ∃ p ∈ copies.map Prod.snd, group = agreementOn copies p := by
  rw [List.mem_map]
  constructor
  · rintro ⟨⟨key, entry⟩, hentry, rfl⟩
    have hget := Std.ExtTreeMap.mem_toList_iff_getElem?_eq_some.mp hentry
    obtain ⟨copy, hcopy⟩ : ∃ copy, copy ∈ copyGroup canonical copies key := by
      rw [getElem?_groupCopies] at hget
      cases hgroup : copyGroup canonical copies key with
      | nil =>
          rw [hgroup] at hget
          cases hget
      | cons copy _ => exact ⟨copy, List.mem_cons_self⟩
    obtain ⟨hat, rfl⟩ := mem_copyGroup.mp hcopy
    have hmem := List.mem_of_getElem? hat
    rw [getElem?_groupCopies_of_mem h hmem] at hget
    exact ⟨copy.1.2, List.mem_map_of_mem hmem, (Option.some.inj hget).symm⟩
  · rintro ⟨p, hp, rfl⟩
    obtain ⟨c, hc, rfl⟩ := List.mem_map.mp hp
    refine ⟨(copyKey canonical (c, 0), agreementOn copies c.2), ?_, rfl⟩
    exact Std.ExtTreeMap.mem_toList_iff_getElem?_eq_some.mpr (getElem?_groupCopies_of_mem h hc 0)

/-- The order of the groups: by the number of copies, then the earlier one. -/
abbrev compareAgreements (a b : Agreement) : Ordering :=
  (compare a.count b.count).then (compare b.firstSeen a.firstSeen)

instance : Std.TransCmp compareAgreements := by
  have hfirst : Std.TransCmp fun a b => compareOn Agreement.firstSeen b a := .opposite
  exact inferInstanceAs (Std.TransCmp (compareLex (compareOn Agreement.count)
    fun a b => compareOn Agreement.firstSeen b a))

theorem notAfter_compareAgreements {a b : Agreement} : NotAfter compareAgreements b a ↔
    b.count < a.count ∨ (b.count = a.count ∧ a.firstSeen ≤ b.firstSeen) := by
  rw [NotAfter, ne_eq, compareAgreements, Ordering.then_eq_gt, Nat.compare_eq_gt,
    Nat.compare_eq_eq, Nat.compare_eq_gt]
  omega

/-- The best group is the plurality of the partials. -/
theorem bestAgreement_eq (h : Distinguishes canonical copies) (hne : copies ≠ []) :
    ∃ p, IsPlurality (copies.map Prod.snd) p ∧
      bestAgreement (groupCopies canonical copies) = some (agreementOn copies p) := by
  cases hbest : bestAgreement (groupCopies canonical copies) with
  | none =>
      obtain ⟨c, hc⟩ := List.exists_mem_of_ne_nil copies hne
      have hgroup := (mem_agreements h).mpr ⟨c.2, List.mem_map_of_mem hc, rfl⟩
      rw [maxBy_eq_none.mp hbest] at hgroup
      cases hgroup
  | some group =>
      obtain ⟨p, hp, rfl⟩ := (mem_agreements h).mp (maxBy_mem hbest)
      have hgreatest : ∀ b ∈ copies.map Prod.snd, (copies.map Prod.snd).count b <
          (copies.map Prod.snd).count p ∨ ((copies.map Prod.snd).count b =
            (copies.map Prod.snd).count p ∧
              (copies.map Prod.snd).idxOf p ≤ (copies.map Prod.snd).idxOf b) := by
        intro b hb
        have hgroup := (mem_agreements h).mpr ⟨b, hb, rfl⟩
        exact notAfter_compareAgreements.mp (notAfter_maxBy hbest (agreementOn copies b) hgroup)
      refine ⟨p, ⟨hp, ?_, ?_⟩, rfl⟩
      · intro b hb
        obtain hlt | ⟨heq, _⟩ := hgreatest b hb
        · exact hlt.le
        · exact heq.le
      · intro b hb hcount
        obtain hlt | ⟨_, hfirst⟩ := hgreatest b hb
        · exact absurd hcount hlt.ne
        · exact hfirst

theorem selectQuorum_ok_iff (h : Distinguishes canonical copies) (hne : copies ≠ []) :
    selectQuorum canonical copies quorum = .ok p ↔ IsPlurality (copies.map Prod.snd) p ∧
      quorumNeed copies.length quorum ≤ (copies.map Prod.snd).count p := by
  obtain ⟨best, hbest, hgroup⟩ := bestAgreement_eq h hne
  have hcopies : ¬copies.isEmpty = true := by
    rwa [List.isEmpty_iff]
  rw [selectQuorum, if_neg hcopies, hgroup]
  dsimp only
  constructor
  · intro hok
    split at hok
    · rename_i hneed
      cases hok
      exact ⟨hbest, hneed⟩
    · cases hok
  · rintro ⟨hp, hneed⟩
    obtain rfl := hp.unique hbest
    exact if_pos hneed

theorem quorumNeed_pos {collected : Nat} (h : 0 < collected) : 0 < quorumNeed collected quorum := by
  rw [quorumNeed]
  split
  · exact h
  · omega

theorem Distinguishes.perm {copies' : List (String × Partial)} (h : Distinguishes canonical copies)
    (hperm : copies'.Perm copies) : Distinguishes canonical copies' where
  prints c hc := h.prints c (hperm.mem_iff.mp hc)
  injective c hc c' hc' := h.injective c (hperm.mem_iff.mp hc) c' (hperm.mem_iff.mp hc')

/-- A quorum returns the plurality of the partials, if enough copies hold it. So when
fewer copies than needed differ from the honest partial, nothing else is returned,
and when enough hold it and no other partial has as many copies, it is returned
in whatever order the copies came. -/
theorem selectQuorum_plurality (hne : copies ≠ []) (hdistinct : Distinguishes canonical copies) :
    (∀ p, selectQuorum canonical copies quorum = .ok p ↔ IsPlurality (copies.map Prod.snd) p ∧
      quorumNeed copies.length quorum ≤ (copies.map Prod.snd).count p) ∧
    ∀ honest,
      ((copies.map Prod.snd).countP (· ≠ honest) < quorumNeed copies.length quorum →
        ∀ p, selectQuorum canonical copies quorum = .ok p → p = honest) ∧
      (quorumNeed copies.length quorum ≤ (copies.map Prod.snd).count honest →
        (∀ p ∈ copies.map Prod.snd, p ≠ honest →
          (copies.map Prod.snd).count p < (copies.map Prod.snd).count honest) →
        ∀ copies', copies'.Perm copies → selectQuorum canonical copies' quorum = .ok honest) := by
  refine ⟨fun p => selectQuorum_ok_iff hdistinct hne, fun honest => ⟨?_, ?_⟩⟩
  · intro hothers p hok
    exact eq_of_countP_ne_lt hothers ((selectQuorum_ok_iff hdistinct hne).mp hok).2
  · intro hneed hmost copies' hperm
    have hpartials : (copies'.map Prod.snd).Perm (copies.map Prod.snd) := hperm.map Prod.snd
    have hne' : copies' ≠ [] := by
      rintro rfl
      exact hne hperm.symm.eq_nil
    rw [selectQuorum_ok_iff (hdistinct.perm hperm) hne', hperm.length_eq, hpartials.count_eq]
    refine ⟨isPlurality_of_outnumbers ?_ ?_, hneed⟩
    · have hpos : 0 < quorumNeed copies.length quorum :=
        quorumNeed_pos (List.length_pos_iff.mpr hne)
      rw [hpartials.mem_iff]
      exact List.count_pos_iff.mp (hpos.trans_le hneed)
    · intro p hp hother
      rw [hpartials.count_eq, hpartials.count_eq]
      exact hmost p (hpartials.mem_iff.mp hp) hother

end Choice

private def tallied (n : U64) : Partial where
  aggregates := [.count]
  groups := Std.ExtTreeMap.insert ∅ [] [.count n]

private def votes : List (String × Partial) :=
  [("host0", tallied (U64.wrap 9)), ("host1", tallied U64.one), ("host2", tallied U64.one)]

private theorem distinguishes_votes : Distinguishes Externals.sample.canonical votes where
  prints := by decide +kernel
  injective := by decide +kernel

/-- Two equal copies outvote the third. -/
theorem selectQuorum_two_of_three :
    selectQuorum Externals.sample.canonical votes 2 = .ok (tallied U64.one) :=
  ((selectQuorum_plurality (by decide) distinguishes_votes).2 (tallied U64.one)).2
    (by decide +kernel) (by decide +kernel) votes (.refl votes)

end CeQuery
