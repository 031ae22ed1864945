import CeQuery.Foundation.Ranking

/-!
# Stable sorts

A stable sort is determined by its comparison: when the elements are tagged with
their positions, the result is in the order of the comparison and, where it ties, of
the positions (`StableSorted`). For a total preorder there is exactly one such list,
and insertion makes it (`stableSorted_ranked`).
-/

namespace CeQuery

variable {α : Type u}

/-- A comparison of a total preorder. -/
structure IsPreorderCmp (cmp : α → α → Ordering) : Prop where
  refl : ∀ a, cmp a a = .eq
  swap : ∀ a b, cmp b a = (cmp a b).swap
  total : ∀ a b, cmp a b ≠ .gt ∨ cmp b a ≠ .gt
  trans : ∀ a b c, cmp a b ≠ .gt → cmp b c ≠ .gt → cmp a c ≠ .gt

theorem isPreorderCmp (cmp : α → α → Ordering) [Std.TransCmp cmp] : IsPreorderCmp cmp where
  refl _ := Std.ReflCmp.compare_self
  swap _ _ := Std.OrientedCmp.eq_swap
  total := NotAfter.total
  trans _ _ _ hab hbc := NotAfter.trans hab hbc

section Sorted

variable (cmp : α → α → Ordering)

/-- The comparison of tagged elements: ties are broken by the positions. -/
def Precedes (a b : α × Nat) : Prop :=
  cmp a.1 b.1 = .lt ∨ (cmp a.1 b.1 = .eq ∧ a.2 < b.2)

/-- The second list holds the elements of the first in the order of the comparison,
ties in the order of the first list. -/
def StableSorted (xs ys : List α) : Prop :=
  ∃ tagged : List (α × Nat), tagged.Perm xs.zipIdx ∧ tagged.Pairwise (Precedes cmp) ∧
    tagged.map Prod.fst = ys

variable {cmp} {xs ys zs : List α}

theorem StableSorted.perm (h : StableSorted cmp xs ys) : ys.Perm xs := by
  obtain ⟨tagged, hperm, _, rfl⟩ := h
  have hfst := hperm.map Prod.fst
  rwa [List.zipIdx_map_fst] at hfst

theorem StableSorted.congr {cmp' : α → α → Ordering}
    (hcmp : ∀ a ∈ xs, ∀ b ∈ xs, cmp a b = cmp' a b) (h : StableSorted cmp xs ys) :
    StableSorted cmp' xs ys := by
  obtain ⟨tagged, hperm, hsorted, hys⟩ := h
  refine ⟨tagged, hperm, ?_, hys⟩
  have hmem : ∀ a ∈ tagged, a.1 ∈ xs := fun a ha =>
    List.fst_mem_of_mem_zipIdx (hperm.mem_iff.mp ha)
  refine hsorted.imp_of_mem fun {a b} ha hb hab => ?_
  rwa [Precedes, ← hcmp a.1 (hmem a ha) b.1 (hmem b hb)]

/-- Where all elements tie, sorting changes nothing. -/
theorem ranked_of_forall_eq (h : ∀ a ∈ xs, ∀ b ∈ xs, cmp a b = .eq) : ranked cmp xs = xs := by
  have hsorted : xs.Pairwise (NotAfter cmp) := by
    refine List.pairwise_of_forall_mem_list fun a ha b hb hgt => ?_
    rw [h a ha b hb] at hgt
    cases hgt
  exact hsorted.insertionSort_eq

theorem ranked_congr {cmp' : α → α → Ordering} (hcmp : ∀ a ∈ xs, ∀ b ∈ xs, cmp a b = cmp' a b) :
    ranked cmp xs = ranked cmp' xs := by
  have hmap := List.map_insertionSort (NotAfter cmp) (NotAfter cmp') id xs
    fun a ha b hb => by rw [NotAfter, hcmp a ha b hb]; rfl
  simpa only [List.map_id] using hmap

variable [Std.TransCmp cmp]

theorem Precedes.asymm {a b : α × Nat} (hab : Precedes cmp a b) : ¬Precedes cmp b a := by
  have hswap : cmp b.1 a.1 = (cmp a.1 b.1).swap := Std.OrientedCmp.eq_swap
  rintro (hlt | ⟨heq, hpos⟩)
  · obtain hab | ⟨hab, _⟩ := hab <;> simp [hab, hlt] at hswap
  · obtain hab | ⟨_, hlt⟩ := hab
    · simp [hab, heq] at hswap
    · omega

/-- There is one stable sort. -/
theorem StableSorted.unique (hys : StableSorted cmp xs ys) (hzs : StableSorted cmp xs zs) :
    ys = zs := by
  obtain ⟨tagged, hperm, hsorted, rfl⟩ := hys
  obtain ⟨tagged', hperm', hsorted', rfl⟩ := hzs
  have hsame : tagged = tagged' := by
    apply (hperm.trans hperm'.symm).eq_of_pairwise _ hsorted hsorted'
    intro a b _ _ hab hba
    exact absurd hba hab.asymm
  rw [hsame]

/-- The tagged elements are sorted by an insertion that ignores the tags. -/
theorem orderedInsert_tagged {a : α × Nat} {tagged : List (α × Nat)}
    (hsorted : tagged.Pairwise (Precedes cmp)) (hfirst : ∀ b ∈ tagged, a.2 < b.2) :
    (tagged.orderedInsert (fun a b => NotAfter cmp a.1 b.1) a).Pairwise (Precedes cmp) := by
  induction tagged with
  | nil => simp
  | cons b tagged ih =>
      obtain ⟨hb, hrest⟩ := List.pairwise_cons.mp hsorted
      rw [List.forall_mem_cons] at hfirst
      have hprecedes : ∀ c : α × Nat, a.2 < c.2 → NotAfter cmp a.1 c.1 → Precedes cmp a c := by
        intro c hpos hle
        cases hcmp : cmp a.1 c.1 with
        | lt => exact .inl hcmp
        | eq => exact .inr ⟨hcmp, hpos⟩
        | gt => exact absurd hcmp hle
      by_cases hle : NotAfter cmp a.1 b.1
      · rw [List.orderedInsert_cons, if_pos hle, List.pairwise_cons]
        refine ⟨?_, hsorted⟩
        intro c hc
        obtain rfl | hc := List.mem_cons.mp hc
        · exact hprecedes _ hfirst.1 hle
        · have hbc : NotAfter cmp b.1 c.1 := by
            obtain hlt | ⟨heq, _⟩ := hb c hc
            · exact fun hgt => by simp [hlt] at hgt
            · exact fun hgt => by simp [heq] at hgt
          exact hprecedes c (hfirst.2 c hc) (hle.trans hbc)
      · rw [List.orderedInsert_cons, if_neg hle, List.pairwise_cons]
        refine ⟨?_, ih hrest hfirst.2⟩
        intro c hc
        obtain rfl | hc := (List.mem_orderedInsert _).mp hc
        · exact .inl (not_notAfter_iff.mp hle)
        · exact hb c hc

/-- Insertion sorts stably. -/
theorem stableSorted_ranked (xs : List α) : StableSorted cmp xs (ranked cmp xs) := by
  suffices htagged : ∀ n, (((xs.zipIdx n).insertionSort fun a b => NotAfter cmp a.1 b.1).Pairwise
      (Precedes cmp)) by
    refine ⟨_, List.perm_insertionSort _ _, htagged 0, ?_⟩
    rw [List.map_insertionSort _ (NotAfter cmp) Prod.fst _ fun _ _ _ _ => Iff.rfl,
      List.zipIdx_map_fst]
  induction xs with
  | nil => simp
  | cons x xs ih =>
      intro n
      rw [List.zipIdx_cons, List.insertionSort_cons]
      refine orderedInsert_tagged (ih (n + 1)) fun b hb => ?_
      have hpos := (List.mem_zipIdx ((List.mem_insertionSort _).mp hb)).1
      omega

/-- Sorting what is sorted changes nothing, also after cutting off the end. -/
theorem ranked_capped_ranked (limit : Option Nat) (xs : List α) :
    ranked cmp (capped limit (ranked cmp xs)) = capped limit (ranked cmp xs) :=
  (ranked_pairwise.sublist capped_sublist).insertionSort_eq

end Sorted

/-! ## Sorting by a coarser comparison -/

section Coarser

variable {cmp coarse : α → α → Ordering} [Std.TransCmp cmp] [Std.TransCmp coarse] {xs : List α}

/-- A sort by a coarser comparison is the sort, if no element that the coarser one
ties with an earlier element belongs before it. -/
theorem ranked_coarser (hcoarse : ∀ a b, NotAfter cmp a b → NotAfter coarse a b)
    (htied : xs.Pairwise fun a b => cmp b a = .lt → coarse a b ≠ .eq) :
    ranked coarse xs = ranked cmp xs := by
  obtain ⟨tagged, hperm, hsorted, htagged⟩ : StableSorted cmp xs (ranked cmp xs) :=
    stableSorted_ranked xs
  refine (stableSorted_ranked xs).unique ⟨tagged, hperm, ?_, htagged⟩
  have hindices : tagged.Pairwise fun a b => a.2 ≠ b.2 := by
    have hnodup : (tagged.map Prod.snd).Nodup := by
      rw [(hperm.map Prod.snd).nodup_iff, List.zipIdx_map_snd]
      exact List.nodup_range'
    exact List.pairwise_map.mp hnodup
  refine (hsorted.and hindices).imp_of_mem fun {a b} ha hb ⟨hprecedes, hne⟩ => ?_
  have hle : NotAfter cmp a.1 b.1 := by
    obtain hlt | ⟨heq, _⟩ := hprecedes
    · simp [NotAfter, hlt]
    · simp [NotAfter, heq]
  cases htie : coarse a.1 b.1 with
  | lt => exact .inl htie
  | gt => exact absurd htie (hcoarse _ _ hle)
  | eq =>
      refine .inr ⟨htie, ?_⟩
      obtain hlt | ⟨_, hpos⟩ := hprecedes
      · -- the elements are tied, so the one that is before the other comes first
        by_contra hlate
        have hget : ∀ {c}, c ∈ tagged → xs[c.2]? = some c.1 := fun hc =>
          List.mem_zipIdx_iff_getElem?.mp (hperm.mem_iff.mp hc)
        obtain ⟨hb', hgetb⟩ := List.getElem?_eq_some_iff.mp (hget hb)
        obtain ⟨ha', hgeta⟩ := List.getElem?_eq_some_iff.mp (hget ha)
        have hpair := List.pairwise_iff_getElem.mp htied b.2 a.2 hb' ha' (by omega)
        rw [hgetb, hgeta] at hpair
        refine hpair hlt ?_
        have hswap : coarse b.1 a.1 = (coarse a.1 b.1).swap := Std.OrientedCmp.eq_swap
        rw [hswap, htie]
        rfl
      · exact hpos

/-- A sort by a coarser comparison puts the first elements in front for every limit
exactly if it does not tie an element with an earlier one that it belongs before. -/
theorem isTop_coarser_iff (hcoarse : ∀ a b, NotAfter cmp a b → NotAfter coarse a b) :
    (∀ n, IsTop cmp (some n) xs ((ranked coarse xs).take n)) ↔
      xs.Pairwise fun a b => cmp b a = .lt → coarse a b ≠ .eq := by
  constructor
  · intro htop
    rw [List.pairwise_iff_forall_sublist]
    intro a b hab hlt htie
    have hle : NotAfter coarse a b := by
      simp [NotAfter, htie]
    have hsorted : [a, b].Sublist (ranked coarse xs) :=
      List.pair_sublist_insertionSort hle hab
    obtain ⟨front, rest, hsplit, ha, hb⟩ := List.cons_sublist_iff.mp hsorted
    obtain ⟨_, left, hperm, hlater⟩ := htop front.length
    rw [hsplit, List.take_left] at hperm hlater
    have hrest : left.Perm rest := by
      have hall : (front ++ rest).Perm xs := hsplit ▸ ranked_perm coarse xs
      exact (List.perm_append_left_iff front).mp (hperm.trans hall.symm)
    have hb : b ∈ left := hrest.mem_iff.mpr (List.singleton_sublist.mp hb)
    exact hlater b hb a ha hlt
  · intro htied n
    rw [ranked_coarser hcoarse htied]
    exact isTop_capped_ranked

end Coarser

end CeQuery
