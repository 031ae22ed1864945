import Mathlib.Data.List.Basic
import Mathlib.Data.List.Count

/-!
# Plurality

The plurality of a list is the element that occurs most often, and among those
that occur equally often the one seen first. When one element outnumbers each of
the others, it is the plurality in every order of the list
(`isPlurality_of_outnumbers`); a count that the other elements together do not
reach belongs to it (`eq_of_countP_ne_lt`). Of distinct voters at most as many lie as
there are liars (`length_le_honest_add`).
-/

namespace CeQuery

/-- The elements with a property, tagged with their positions, are as many as these
elements, and the first one is at the first position. -/
theorem filter_zipIdx_eq_cons {α : Type u} {p : α → Bool} {xs : List α} {n : Nat}
    {first : α × Nat} {rest : List (α × Nat)}
    (h : ((xs.zipIdx n).filter fun x => p x.1) = first :: rest) :
    rest.length + 1 = xs.countP p ∧ first.2 = n + xs.findIdx p := by
  constructor
  · have hfst : ((xs.zipIdx n).filter fun x => p x.1).map Prod.fst = xs.filter p := by
      have hmap := List.filter_map (p := p) (f := Prod.fst) (l := xs.zipIdx n)
      rw [List.zipIdx_map_fst] at hmap
      exact hmap.symm
    rw [List.countP_eq_length_filter, ← hfst, h, List.map_cons, List.length_cons,
      List.length_map]
  · induction xs generalizing n with
    | nil => cases h
    | cons x xs ih =>
        rw [List.zipIdx_cons, List.filter_cons] at h
        dsimp only at h
        by_cases hx : p x = true
        · rw [if_pos hx] at h
          cases h
          rw [List.findIdx_cons, hx]
          rfl
        · rw [if_neg hx] at h
          rw [ih h, List.findIdx_cons, eq_false_of_ne_true hx]
          dsimp only [cond_false]
          omega

variable {α : Type u} [DecidableEq α]

/-- `a` occurs most often, and is the first such element. -/
structure IsPlurality (xs : List α) (a : α) : Prop where
  mem : a ∈ xs
  most : ∀ b ∈ xs, xs.count b ≤ xs.count a
  first : ∀ b ∈ xs, xs.count b = xs.count a → xs.idxOf a ≤ xs.idxOf b

variable {xs : List α} {a b : α}

theorem IsPlurality.unique (ha : IsPlurality xs a) (hb : IsPlurality xs b) : a = b := by
  have hcount : xs.count a = xs.count b := Nat.le_antisymm (hb.most a ha.mem) (ha.most b hb.mem)
  have hfirst : xs.idxOf a = xs.idxOf b :=
    Nat.le_antisymm (ha.first b hb.mem hcount.symm) (hb.first a ha.mem hcount)
  exact (List.idxOf_inj ha.mem).mp hfirst

/-- An element that outnumbers each of the others is the plurality. -/
theorem isPlurality_of_outnumbers (hmem : a ∈ xs)
    (h : ∀ b ∈ xs, b ≠ a → xs.count b < xs.count a) : IsPlurality xs a := by
  refine ⟨hmem, ?_, ?_⟩
  · intro b hb
    by_cases hba : b = a
    · subst hba
      exact Nat.le_refl _
    · exact Nat.le_of_lt (h b hb hba)
  · intro b hb hcount
    by_cases hba : b = a
    · subst hba
      exact Nat.le_refl _
    · exact absurd hcount (Nat.ne_of_lt (h b hb hba))

/-- Only one element occurs more often than all others together. -/
theorem eq_of_countP_ne_lt {need : Nat} (hothers : xs.countP (· ≠ a) < need)
    (hb : need ≤ xs.count b) : b = a := by
  by_contra hne
  have hle : xs.count b ≤ xs.countP (· ≠ a) := by
    apply List.countP_mono_left
    intro c _ hc
    rw [beq_iff_eq] at hc
    exact decide_eq_true (hc ▸ hne)
  omega

/-- All voters but as many as there are liars are honest. -/
theorem length_le_honest_add {voters : List α} (liars : List α) (hdistinct : voters.Nodup) :
    voters.length ≤ voters.countP (· ∉ liars) + liars.length := by
  have hlying : (voters.filter (· ∈ liars)).length ≤ liars.length := by
    apply (List.subperm_of_subset (hdistinct.filter _) ?_).length_le
    intro voter hvoter
    exact of_decide_eq_true (List.mem_filter.mp hvoter).2
  have hsplit := List.length_eq_countP_add_countP (· ∈ liars) (l := voters)
  rw [← List.countP_eq_length_filter] at hlying
  simp only [decide_not, decide_eq_true_eq] at hsplit ⊢
  omega

/-- More voters than there are liars include an honest one. -/
theorem exists_honest_of_length_lt {voters liars : List α} (hdistinct : voters.Nodup)
    (h : liars.length < voters.length) : ∃ voter ∈ voters, voter ∉ liars := by
  have hall := length_le_honest_add liars hdistinct
  have hpos : 0 < voters.countP (· ∉ liars) := by omega
  obtain ⟨voter, hmem, hhonest⟩ := List.countP_pos_iff.mp hpos
  exact ⟨voter, hmem, of_decide_eq_true hhonest⟩

end CeQuery
