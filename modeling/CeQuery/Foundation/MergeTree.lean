import Mathlib.Tactic.Common

/-!
# Summaries that can be merged in any order and any grouping

A batch of inputs is cut into parts, each part is summarised on its own, and
the summaries are merged pairwise along some tree. `MergeTree` is such a
schedule: its leaves are the parts, and neutral elements may stand anywhere.

The merge need not be associative or commutative as an equation between
summaries. It suffices that it respects a relation `S inputs summary` which
does not see the order of the inputs (`Summary`). Then the root of every tree
is related to all inputs at once (`Summary.eval`), and two trees over the same
inputs can differ only as far as `S` allows.
-/

namespace CeQuery

/-- A schedule of pairwise merges over parts of type `α`. -/
inductive MergeTree (α : Type u) where
  | identity
  | part (a : α)
  | merge (left right : MergeTree α)

namespace MergeTree

variable {α : Type u} {σ : Type v} {ρ : Type w}

/-- The parts of a schedule in the order in which they are merged. -/
def parts : MergeTree α → List α
  | identity => []
  | part a => [a]
  | merge left right => left.parts ++ right.parts

/-- Carry the schedule out. -/
def eval (empty : σ) (combine : σ → σ → σ) (summarise : α → σ) : MergeTree α → σ
  | identity => empty
  | part a => summarise a
  | merge left right =>
      combine (left.eval empty combine summarise) (right.eval empty combine summarise)

/-- The schedule of a left fold: start from the neutral element and merge one
part after the other. -/
def leftFold (as : List α) : MergeTree α :=
  as.foldl (fun tree a => merge tree (part a)) identity

private theorem parts_foldl (as : List α) (tree : MergeTree α) :
    (as.foldl (fun tree a => merge tree (part a)) tree).parts = tree.parts ++ as := by
  induction as generalizing tree with
  | nil => simp
  | cons a as ih => simp [ih, parts]

@[simp] theorem parts_leftFold (as : List α) : (leftFold as).parts = as := by
  simp [leftFold, parts_foldl, parts]

private theorem eval_foldl (empty : σ) (combine : σ → σ → σ) (summarise : α → σ)
    (as : List α) (tree : MergeTree α) :
    (as.foldl (fun tree a => merge tree (part a)) tree).eval empty combine summarise =
      as.foldl (fun s a => combine s (summarise a)) (tree.eval empty combine summarise) := by
  induction as generalizing tree with
  | nil => rfl
  | cons a as ih => simp [ih, eval]

theorem eval_leftFold (empty : σ) (combine : σ → σ → σ) (summarise : α → σ) (as : List α) :
    (leftFold as).eval empty combine summarise =
      as.foldl (fun s a => combine s (summarise a)) empty :=
  eval_foldl empty combine summarise as identity

/-- `S inputs s` says what the summary `s` tells about `inputs`. It holds of the
neutral element, survives merging, and does not depend on the input order. -/
structure Summary (S : List ρ → σ → Prop) (empty : σ) (combine : σ → σ → σ) : Prop where
  nil : S [] empty
  append : ∀ {xs ys s t}, S xs s → S ys t → S (xs ++ ys) (combine s t)
  perm : ∀ {xs ys s}, S xs s → xs.Perm ys → S ys s

namespace Summary

variable {S : List ρ → σ → Prop} {empty : σ} {combine : σ → σ → σ}

/-- Every schedule over summarised parts summarises all inputs. -/
theorem eval (h : Summary S empty combine) {summarise : List ρ → σ}
    (hpart : ∀ xs, S xs (summarise xs)) (tree : MergeTree (List ρ)) :
    S tree.parts.flatten (tree.eval empty combine summarise) := by
  induction tree with
  | identity => exact h.nil
  | part xs =>
      simpa [parts, MergeTree.eval] using hpart xs
  | merge left right ihl ihr =>
      rw [parts, List.flatten_append]
      exact h.append ihl ihr

/-- The same for inputs that were distributed over the parts in any way. -/
theorem eval_perm (h : Summary S empty combine) {summarise : List ρ → σ}
    (hpart : ∀ xs, S xs (summarise xs)) (tree : MergeTree (List ρ)) {inputs : List ρ}
    (hdist : tree.parts.flatten.Perm inputs) :
    S inputs (tree.eval empty combine summarise) :=
  h.perm (h.eval hpart tree) hdist

end Summary

/-- The second schedule has one more input somewhere in a part of the first one. -/
inductive Inserted (x : ρ) : MergeTree (List ρ) → MergeTree (List ρ) → Prop
  | part (xs ys : List ρ) : Inserted x (part (xs ++ ys)) (part (xs ++ x :: ys))
  | left {l l' r : MergeTree (List ρ)} (h : Inserted x l l') :
      Inserted x (merge l r) (merge l' r)
  | right {l r r' : MergeTree (List ρ)} (h : Inserted x r r') :
      Inserted x (merge l r) (merge l r')

theorem Inserted.sublist {x : ρ} {tree tree' : MergeTree (List ρ)} (h : Inserted x tree tree') :
    tree.parts.flatten.Sublist tree'.parts.flatten := by
  induction h with
  | part xs ys =>
      rw [parts, parts, List.flatten_singleton, List.flatten_singleton]
      exact (List.sublist_cons_self x ys).append_left xs
  | left _ ih =>
      rw [parts, parts, List.flatten_append, List.flatten_append]
      exact ih.append_right _
  | right _ ih =>
      rw [parts, parts, List.flatten_append, List.flatten_append]
      exact ih.append_left _

/-- If an input cannot be told from a part, it cannot be told from the whole schedule. -/
theorem Inserted.eval {R : σ → σ → Prop} {empty : σ} {combine : σ → σ → σ}
    {summarise : List ρ → σ} {x : ρ} {tree tree' : MergeTree (List ρ)}
    (h : Inserted x tree tree') (hrefl : ∀ s, R s s)
    (hmerge : ∀ s s' t t', R s s' → R t t' → R (combine s t) (combine s' t'))
    (hpart : ∀ xs ys, R (summarise (xs ++ ys)) (summarise (xs ++ x :: ys))) :
    R (tree.eval empty combine summarise) (tree'.eval empty combine summarise) := by
  induction h with
  | part xs ys => exact hpart xs ys
  | left _ ih => exact hmerge _ _ _ _ ih (hrefl _)
  | right _ ih => exact hmerge _ _ _ _ (hrefl _) ih

end MergeTree

end CeQuery
