import Mathlib.Data.List.Sort
import Mathlib.Data.List.Perm.Subperm

/-!
# The first elements of a sorted list

Lists are sorted by a comparison that is a total preorder. `IsTop` says that some
elements of a list are its first ones up to a limit: there are as many as the limit
asks for, and no element that is left out is before one of them.

When elements were lost before sorting, the first ones of what is left are the first
ones of all exactly if enough of the kept elements come no later than each of the
lost ones (`isTop_capped_iff`).
-/

namespace CeQuery

/-- The first elements up to the limit. -/
def capped {α : Type u} (limit : Option Nat) (xs : List α) : List α :=
  limit.elim xs xs.take

section Capped

variable {α : Type u} {β : Type v} {limit : Option Nat} {xs ys : List α}

@[simp] theorem capped_none : capped none xs = xs := rfl

@[simp] theorem capped_some (n : Nat) : capped (some n) xs = xs.take n := rfl

@[simp] theorem capped_nil : capped limit ([] : List α) = [] := by
  cases limit with
  | none => rfl
  | some n => exact List.take_nil

/-- Elements that are cut off do not come back. -/
theorem capped_append : capped limit (capped limit xs ++ ys) = capped limit (xs ++ ys) := by
  cases limit with
  | none => rfl
  | some n =>
      rw [capped_some, capped_some, capped_some, List.take_append, List.take_append,
        List.take_take, Nat.min_self]
      by_cases hlong : xs.length ≤ n
      · rw [List.take_of_length_le hlong]
      · have hrest : n - xs.length = 0 := by omega
        have htaken : n - (xs.take n).length = 0 := by
          rw [List.length_take]
          omega
        rw [hrest, htaken]

theorem capped_capped : capped limit (capped limit xs) = capped limit xs := by
  have hagain : capped limit (capped limit xs ++ []) = capped limit (xs ++ []) := capped_append
  simpa only [List.append_nil] using hagain

theorem capped_map (f : α → β) : capped limit (xs.map f) = (capped limit xs).map f := by
  cases limit with
  | none => rfl
  | some n => exact List.map_take.symm

theorem capped_sublist : (capped limit xs).Sublist xs := by
  cases limit with
  | none => exact .refl _
  | some n => exact List.take_sublist _ _

/-- The elements behind the limit. -/
def overflow (limit : Option Nat) (xs : List α) : List α :=
  limit.elim [] xs.drop

theorem capped_append_overflow : capped limit xs ++ overflow limit xs = xs := by
  cases limit with
  | none => exact List.append_nil _
  | some n => exact List.take_append_drop n xs

end Capped

/-- A list whose image is rearranged can be rearranged in the same way. -/
theorem exists_perm_of_map {α : Type u} {β : Type v} {f : α → β} {xs : List α} {ys : List β}
    (h : ys.Perm (xs.map f)) : ∃ zs : List α, zs.Perm xs ∧ ys = zs.map f := by
  induction xs generalizing ys with
  | nil => exact ⟨[], .nil, h.eq_nil⟩
  | cons x xs ih =>
      have hmem : f x ∈ ys := h.mem_iff.mpr (by simp)
      obtain ⟨before, after, rfl⟩ := List.append_of_mem hmem
      have hrest : (before ++ after).Perm (xs.map f) :=
        (List.perm_middle.symm.trans h).cons_inv
      obtain ⟨zs, hzs, hmap⟩ := ih hrest
      obtain ⟨left, right, rfl, rfl, rfl⟩ := List.append_eq_map_iff.mp hmap
      exact ⟨left ++ x :: right, List.perm_middle.trans (hzs.cons x), by simp⟩

section Ranking

variable {α : Type u} {β : Type v} (cmp : α → α → Ordering)

/-- The elements are the first ones of all, up to the limit. -/
def IsTop (limit : Option Nat) (all top : List α) : Prop :=
  top.length = limit.elim all.length (min · all.length) ∧
    ∃ left : List α, (top ++ left).Perm all ∧ ∀ x ∈ left, ∀ y ∈ top, cmp x y ≠ .lt

theorem isTop_perm {limit : Option Nat} {all all' top : List α} (h : all.Perm all') :
    IsTop cmp limit all top ↔ IsTop cmp limit all' top := by
  rw [IsTop]
  rw [h.length_eq]
  refine and_congr_right fun _ => exists_congr fun left => and_congr_left fun _ => ?_
  exact ⟨fun hperm => hperm.trans h, fun hperm => hperm.trans h.symm⟩

/-- The comparison of images. -/
theorem isTop_map_iff {cmp' : β → β → Ordering} {f : α → β}
    (hf : ∀ a b, cmp' (f a) (f b) = cmp a b) {limit : Option Nat} {all : List α} {top : List β} :
    IsTop cmp' limit (all.map f) top ↔
      top.length = limit.elim all.length (min · all.length) ∧
        ∃ kept left : List α, (kept ++ left).Perm all ∧ top = kept.map f ∧
          ∀ x ∈ left, ∀ y ∈ kept, cmp x y ≠ .lt := by
  rw [IsTop]
  rw [List.length_map]
  refine and_congr_right fun _ => ?_
  constructor
  · rintro ⟨left, hperm, hlater⟩
    obtain ⟨zs, hzs, hmap⟩ := exists_perm_of_map hperm
    obtain ⟨kept, left, rfl, rfl, rfl⟩ := List.append_eq_map_iff.mp hmap
    refine ⟨kept, left, hzs, rfl, ?_⟩
    intro x hx y hy
    rw [← hf]
    exact hlater _ (List.mem_map_of_mem hx) _ (List.mem_map_of_mem hy)
  · rintro ⟨kept, left, hperm, rfl, hlater⟩
    refine ⟨left.map f, ?_, ?_⟩
    · rw [← List.map_append]
      exact hperm.map f
    · intro x hx y hy
      obtain ⟨a, ha, rfl⟩ := List.mem_map.mp hx
      obtain ⟨b, hb, rfl⟩ := List.mem_map.mp hy
      rw [hf]
      exact hlater a ha b hb

/-- The first element is not after the second one. -/
abbrev NotAfter (a b : α) : Prop :=
  cmp a b ≠ .gt

/-- A stable sort. -/
abbrev ranked (xs : List α) : List α :=
  xs.insertionSort (NotAfter cmp)

theorem ranked_perm (xs : List α) : (ranked cmp xs).Perm xs :=
  List.perm_insertionSort (NotAfter cmp) xs

/-- The first of the ranking with one element more is this one or the first as before. -/
theorem head?_ranked_cons (x : α) (xs : List α) :
    (ranked cmp (x :: xs)).head? = some x ∨
      (ranked cmp (x :: xs)).head? = (ranked cmp xs).head? := by
  change ((ranked cmp xs).orderedInsert (NotAfter cmp) x).head? = some x ∨
    ((ranked cmp xs).orderedInsert (NotAfter cmp) x).head? = (ranked cmp xs).head?
  cases ranked cmp xs with
  | nil => exact .inl rfl
  | cons y ys =>
      rw [List.orderedInsert_cons]
      by_cases hle : NotAfter cmp x y
      · rw [if_pos hle]
        exact .inl rfl
      · rw [if_neg hle]
        exact .inr rfl

variable {cmp} [Std.TransCmp cmp] {limit : Option Nat} {xs kept lost : List α} {x : α}

theorem NotAfter.total (a b : α) : NotAfter cmp a b ∨ NotAfter cmp b a := by
  unfold NotAfter
  rw [(Std.OrientedCmp.eq_swap : cmp b a = (cmp a b).swap)]
  cases cmp a b <;> simp

theorem NotAfter.refl (a : α) : NotAfter cmp a a :=
  (NotAfter.total a a).elim id id

theorem NotAfter.trans {a b c : α} (hab : NotAfter cmp a b) (hbc : NotAfter cmp b c) :
    NotAfter cmp a c :=
  Ordering.isLE_iff_ne_gt.mp
    (Std.TransCmp.isLE_trans (Ordering.isLE_iff_ne_gt.mpr hab) (Ordering.isLE_iff_ne_gt.mpr hbc))

theorem not_notAfter_iff {a b : α} : ¬NotAfter cmp a b ↔ cmp b a = .lt := by
  rw [NotAfter, not_not, Std.OrientedCmp.gt_iff_lt]

instance : Std.Total (NotAfter cmp) := ⟨NotAfter.total⟩

instance : IsTrans α (NotAfter cmp) := ⟨fun _ _ _ => NotAfter.trans⟩

theorem ranked_pairwise : (ranked cmp xs).Pairwise (NotAfter cmp) :=
  List.pairwise_insertionSort (NotAfter cmp) xs

/-- In a sorted list the elements that come no later than `x` are in front. -/
theorem notAfter_of_mem_take (hsorted : xs.Pairwise (NotAfter cmp)) {n : Nat}
    (hn : n ≤ xs.countP (NotAfter cmp · x)) : ∀ y ∈ xs.take n, NotAfter cmp y x := by
  induction xs generalizing n with
  | nil => simp
  | cons y ys ih =>
      obtain ⟨hfirst, hrest⟩ := List.pairwise_cons.mp hsorted
      cases n with
      | zero => simp
      | succ n =>
          by_cases hy : NotAfter cmp y x
          · rw [List.countP_cons_of_pos (by simpa using hy)] at hn
            rw [List.take_succ_cons]
            intro z hz
            obtain rfl | hz := List.mem_cons.mp hz
            · exact hy
            · exact ih hrest (by omega) z hz
          · -- everything behind `y` is later than `x` as well
            have hnone : ys.countP (NotAfter cmp · x) = 0 := by
              rw [List.countP_eq_zero]
              intro z hz hzx
              exact hy ((hfirst z hz).trans (by simpa using hzx))
            rw [List.countP_cons_of_neg (by simpa using hy), hnone] at hn
            omega

/-- The first elements of a sorted list are its first ones. -/
theorem isTop_capped_ranked : IsTop cmp limit xs (capped limit (ranked cmp xs)) := by
  have hperm := ranked_perm cmp xs
  refine ⟨?_, overflow limit (ranked cmp xs), ?_, ?_⟩
  · cases limit with
    | none => exact hperm.length_eq
    | some n =>
        rw [capped_some, List.length_take, hperm.length_eq]
        rfl
  · rw [capped_append_overflow]
    exact hperm
  · have hsorted : (capped limit (ranked cmp xs) ++ overflow limit (ranked cmp xs)).Pairwise
        (NotAfter cmp) := capped_append_overflow.symm ▸ ranked_pairwise
    intro x hx y hy hlt
    have hle := (List.pairwise_append.mp hsorted).2.2 y hy x hx
    exact not_notAfter_iff.mpr hlt hle

/-- If the limit is reached with elements that come no later than each lost one, these
are the first ones of all. -/
theorem isTop_append_of_countP {n : Nat} (hlost : lost ≠ [])
    (h : ∀ x ∈ lost, n ≤ kept.countP (NotAfter cmp · x)) :
    IsTop cmp (some n) (kept ++ lost) ((ranked cmp kept).take n) := by
  have hperm := ranked_perm cmp kept
  obtain ⟨x, hx⟩ := List.exists_mem_of_ne_nil lost hlost
  have hn : n ≤ kept.length := (h x hx).trans List.countP_le_length
  obtain ⟨_, left, hleft, hlater⟩ := (isTop_capped_ranked : IsTop cmp (some n) kept _)
  rw [capped_some] at hleft hlater
  refine ⟨?_, left ++ lost, ?_, ?_⟩
  · rw [List.length_take, hperm.length_eq, Option.elim_some, List.length_append]
    omega
  · rw [← List.append_assoc]
    exact hleft.append_right lost
  · intro y hy z hz hlt
    obtain hy | hy := List.mem_append.mp hy
    · exact hlater y hy z hz hlt
    · have hcount : n ≤ (ranked cmp kept).countP (NotAfter cmp · y) := by
        rw [hperm.countP_eq]
        exact h y hy
      exact not_notAfter_iff.mpr hlt (notAfter_of_mem_take ranked_pairwise hcount z hz)

/-- Conversely, elements that come no later than a lost one are returned before it. -/
theorem countP_of_isTop_append {n : Nat}
    (h : IsTop cmp (some n) (kept ++ lost) ((ranked cmp kept).take n)) (hlost : lost ≠ []) :
    ∀ x ∈ lost, n ≤ kept.countP (NotAfter cmp · x) := by
  intro x hx
  have hperm := ranked_perm cmp kept
  obtain ⟨hlength, left, hleft, hlater⟩ := h
  rw [List.length_take, hperm.length_eq, Option.elim_some, List.length_append] at hlength
  have hpos := List.length_pos_iff.mpr hlost
  have hn : ((ranked cmp kept).take n).length = n := by
    rw [List.length_take, hperm.length_eq]
    omega
  by_contra hfew
  -- one of the returned elements is later than `x`, so no element up to `x` is left out
  have htop : ((ranked cmp kept).take n).countP (NotAfter cmp · x) ≤
      kept.countP (NotAfter cmp · x) :=
    (List.take_sublist _ _).countP_le.trans_eq (hperm.countP_eq _)
  obtain ⟨y, hy, hlate⟩ : ∃ y ∈ (ranked cmp kept).take n, ¬NotAfter cmp y x := by
    by_contra! hnone
    have hall : ((ranked cmp kept).take n).countP (NotAfter cmp · x) = n := by
      rw [List.countP_eq_length.mpr (by simpa using hnone), hn]
    omega
  have hout : left.countP (NotAfter cmp · x) = 0 := by
    rw [List.countP_eq_zero]
    intro z hz hzx
    have hzx : NotAfter cmp z x := by simpa using hzx
    have hyz : ¬¬NotAfter cmp y z := fun hlt => hlater z hz y hy (not_notAfter_iff.mp hlt)
    exact hlate ((not_not.mp hyz).trans hzx)
  have hsame := hleft.countP_eq (NotAfter cmp · x)
  have hself : 0 < lost.countP (NotAfter cmp · x) :=
    List.countP_pos_iff.mpr ⟨x, hx, by simpa using NotAfter.refl x⟩
  rw [List.countP_append, List.countP_append] at hsame
  omega

/-- The first elements of the kept ones are the first ones of all exactly if nothing is
lost or the limit is reached before every lost element. -/
theorem isTop_capped_iff :
    IsTop cmp limit (kept ++ lost) (capped limit (ranked cmp kept)) ↔
      lost = [] ∨ ∃ n, limit = some n ∧ ∀ x ∈ lost, n ≤ kept.countP (NotAfter cmp · x) := by
  by_cases hlost : lost = []
  · subst hlost
    rw [List.append_nil]
    exact ⟨fun _ => .inl rfl, fun _ => isTop_capped_ranked⟩
  · constructor
    · intro h
      cases limit with
      | none =>
          have hlength := h.1
          have hpos := List.length_pos_iff.mpr hlost
          rw [capped_none, (ranked_perm cmp kept).length_eq, Option.elim_none,
            List.length_append] at hlength
          omega
      | some n => exact .inr ⟨n, rfl, countP_of_isTop_append h hlost⟩
    · rintro (h | ⟨n, rfl, h⟩)
      · exact absurd h hlost
      · exact isTop_append_of_countP hlost h

end Ranking

section Strict

/-! Where only equal elements tie, a list has one ranking, whatever order it comes in. -/

variable {α : Type u} {cmp : α → α → Ordering} [Std.TransCmp cmp] [Std.LawfulEqCmp cmp]
  {xs ys : List α}

theorem NotAfter.antisymm {a b : α} (hab : NotAfter cmp a b) (hba : NotAfter cmp b a) : a = b := by
  rw [NotAfter, (Std.OrientedCmp.eq_swap : cmp b a = (cmp a b).swap)] at hba
  cases hcmp : cmp a b with
  | lt => simp [hcmp] at hba
  | eq => exact Std.LawfulEqCmp.eq_of_compare hcmp
  | gt => exact absurd hcmp hab

/-- There is one way to put the elements in order. -/
theorem eq_ranked (hperm : ys.Perm xs) (hsorted : ys.Pairwise (NotAfter cmp)) :
    ys = ranked cmp xs :=
  (hperm.trans (ranked_perm cmp xs).symm).eq_of_pairwise
    (fun _ _ _ _ hab hba => hab.antisymm hba) hsorted ranked_pairwise

theorem ranked_eq_of_perm (h : ys.Perm xs) : ranked cmp ys = ranked cmp xs :=
  eq_ranked ((ranked_perm cmp ys).trans h) ranked_pairwise

/-- Ranking what is left is deleting from the ranking. -/
theorem ranked_filter (keep : α → Bool) :
    ranked cmp (xs.filter keep) = (ranked cmp xs).filter keep :=
  (eq_ranked ((ranked_perm cmp xs).filter keep) (ranked_pairwise.filter keep)).symm

theorem ranked_strict (h : xs.Nodup) : (ranked cmp xs).Pairwise fun a b => cmp a b = .lt := by
  have hnodup : (ranked cmp xs).Nodup := (ranked_perm cmp xs).nodup_iff.mpr h
  refine (ranked_pairwise.and hnodup).imp fun {a b} hab => ?_
  obtain ⟨hle, hne⟩ := hab
  cases hcmp : cmp a b with
  | lt => rfl
  | eq => exact absurd (Std.LawfulEqCmp.eq_of_compare hcmp) hne
  | gt => exact absurd hcmp hle

end Strict

end CeQuery
