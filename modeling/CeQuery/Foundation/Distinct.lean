import CeQuery.Foundation.Ranking
import Mathlib.Data.List.Dedup
import Mathlib.Data.List.Destutter

/-!
# Rankings without repetitions

In a ranked list equal elements stand side by side. So each element is left once if those
that equal the one before them are skipped, and what is left is the ranking of the
distinct elements (`destutter_ranked`). It depends on nothing but which elements there
are.
-/

namespace CeQuery

variable {α : Type u} [DecidableEq α]

theorem mem_destutter {x : α} {xs : List α} : x ∈ xs.destutter (· ≠ ·) ↔ x ∈ xs := by
  have hfrom : ∀ (xs : List α) (y : α), x ∈ xs.destutter' (· ≠ ·) y ↔ x = y ∨ x ∈ xs := by
    intro xs
    induction xs with
    | nil => simp
    | cons z zs ih =>
        intro y
        by_cases hsame : y = z
        · subst hsame
          rw [List.destutter'_cons_neg _ (not_not.mpr rfl), ih]
          simp
        · rw [List.destutter'_cons_pos _ hsame, List.mem_cons, ih, List.mem_cons]
  cases xs with
  | nil => exact Iff.rfl
  | cons y ys => rw [List.destutter_cons', hfrom, List.mem_cons]

variable {cmp : α → α → Ordering} [Std.TransCmp cmp] [Std.LawfulEqCmp cmp] {xs : List α}

omit [DecidableEq α] in
/-- In order and without equal neighbours is in strict order. -/
theorem strict_of_isChain (hsorted : xs.Pairwise (NotAfter cmp)) (hchain : xs.IsChain (· ≠ ·)) :
    xs.Pairwise fun a b => cmp a b = .lt := by
  induction xs with
  | nil => exact .nil
  | cons x xs ih =>
      obtain ⟨hfirst, hrest⟩ := List.pairwise_cons.mp hsorted
      have hstrict := ih hrest hchain.tail
      refine List.pairwise_cons.mpr ⟨?_, hstrict⟩
      cases xs with
      | nil => exact nofun
      | cons y ys =>
          have hxy : cmp x y = .lt := by
            cases hcmp : cmp x y with
            | lt => rfl
            | eq =>
                exact absurd (Std.LawfulEqCmp.eq_of_compare hcmp)
                  (List.isChain_cons_cons.mp hchain).1
            | gt => exact absurd hcmp (hfirst y List.mem_cons_self)
          intro z hz
          obtain rfl | hz := List.mem_cons.mp hz
          · exact hxy
          · exact Std.TransCmp.lt_trans hxy ((List.pairwise_cons.mp hstrict).1 z hz)

/-- Skipping what equals the element before it leaves a ranking of the distinct ones. -/
theorem destutter_ranked : (ranked cmp xs).destutter (· ≠ ·) = ranked cmp xs.dedup := by
  have hstrict : ((ranked cmp xs).destutter (· ≠ ·)).Pairwise fun a b => cmp a b = .lt :=
    strict_of_isChain (ranked_pairwise.sublist (List.destutter_sublist _ _))
      (List.isChain_destutter _ _)
  have hnodup : ((ranked cmp xs).destutter (· ≠ ·)).Nodup := by
    refine hstrict.imp ?_
    rintro a b hlt rfl
    have hself : cmp a a = .eq := Std.ReflCmp.compare_self
    rw [hself] at hlt
    cases hlt
  refine eq_ranked ?_ (hstrict.imp fun hlt => by simp [NotAfter, hlt])
  rw [List.perm_ext_iff_of_nodup hnodup (List.nodup_dedup xs)]
  intro x
  rw [mem_destutter, (ranked_perm cmp xs).mem_iff, List.mem_dedup]

end CeQuery
