import Mathlib.Data.List.Infix

/-!
# Shortest prefixes with enough successes

A search that takes the elements of a list in turn until enough of them have
succeeded takes a shortest prefix of the list with that many successes, or the
whole list when it has fewer. There is one such prefix (`ShortestPrefix.unique`).
-/

namespace CeQuery

variable {α : Type u}

/-- `tried` is the shortest prefix of `xs` with `needed` successes, or `xs` itself when
it has fewer. -/
structure ShortestPrefix (succeeds : α → Bool) (needed : Nat) (xs tried : List α) : Prop where
  isPrefix : tried <+: xs
  reached : needed ≤ tried.countP succeeds ∨ tried = xs
  shortest : ∀ shorter, shorter <+: tried → shorter ≠ tried → shorter.countP succeeds < needed

namespace ShortestPrefix

variable {succeeds : α → Bool} {needed : Nat} {xs tried tried' : List α} {a : α}

/-- Nothing is taken from nothing. -/
theorem nil : ShortestPrefix succeeds needed [] [] where
  isPrefix := List.nil_prefix
  reached := .inr rfl
  shortest _ hinit hne := absurd (List.prefix_nil.mp hinit) hne

/-- Nothing is taken when nothing is needed. -/
theorem zero : ShortestPrefix succeeds 0 xs [] where
  isPrefix := List.nil_prefix
  reached := .inl (Nat.zero_le _)
  shortest _ hinit hne := absurd (List.prefix_nil.mp hinit) hne

/-- An element is taken as long as successes are missing. -/
theorem cons (hneeded : 0 < needed)
    (h : ShortestPrefix succeeds (needed - if succeeds a then 1 else 0) xs tried) :
    ShortestPrefix succeeds needed (a :: xs) (a :: tried) := by
  refine ⟨List.prefix_cons_inj a |>.mpr h.isPrefix, ?_, ?_⟩
  · rw [List.countP_cons]
    obtain hreached | rfl := h.reached
    · exact .inl (by omega)
    · exact .inr rfl
  · intro shorter hinit hne
    cases shorter with
    | nil => exact hneeded
    | cons b shorter =>
        obtain ⟨rfl, hrest⟩ := List.cons_prefix_cons.mp hinit
        have hshorter := h.shortest shorter hrest fun heq => hne (by rw [heq])
        rw [List.countP_cons]
        omega

/-- A prefix that goes on after `needed` successes is not the shortest. -/
private theorem eq_of_isPrefix (h : ShortestPrefix succeeds needed xs tried)
    (h' : ShortestPrefix succeeds needed xs tried') (hinit : tried <+: tried') :
    tried = tried' := by
  by_contra hne
  have hfew := h'.shortest tried hinit hne
  obtain hreached | rfl := h.reached
  · omega
  · exact hne (hinit.eq_of_length_le h'.isPrefix.length_le)

theorem unique (h : ShortestPrefix succeeds needed xs tried)
    (h' : ShortestPrefix succeeds needed xs tried') : tried = tried' := by
  obtain hinit | hinit := List.prefix_or_prefix_of_prefix h.isPrefix h'.isPrefix
  · exact eq_of_isPrefix h h' hinit
  · exact (eq_of_isPrefix h' h hinit).symm

end ShortestPrefix

end CeQuery
