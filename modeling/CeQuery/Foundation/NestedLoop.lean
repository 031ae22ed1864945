import Mathlib.Algebra.GroupWithZero.Nat
import Mathlib.Data.List.FinRange
import Mathlib.Data.List.Perm.Basic

/-!
# Equi-joins as nested loops, and their co-partitioning

Rows of two lists are paired when they have the same key; a row without a key
pairs with none. `nestedJoin` is the join that compares every row of one side
with every row of the other.

`bucket` cuts a list of rows by a function of their keys. Rows that pair fall
into buckets of one index, so joining the buckets index by index finds every
pair once, in another order.
-/

namespace CeQuery

variable {α : Type u} {β : Type v} {γ : Type w} {κ : Type x} {ι : Type y}

private theorem flatMap_ite [DecidableEq ι] {is : List ι} (hnodup : is.Nodup) {j : ι}
    (hj : j ∈ is) (ys : List γ) : (is.flatMap fun i => if i = j then ys else []) = ys := by
  have hmiss : ∀ js : List ι, j ∉ js → (js.flatMap fun i => if i = j then ys else []) = [] := by
    intro js hj
    rw [List.flatMap_eq_nil_iff]
    intro i hi
    exact if_neg fun heq : i = j => hj (heq ▸ hi)
  obtain ⟨before, after, rfl⟩ := List.append_of_mem hj
  rw [List.nodup_middle, List.nodup_cons, List.mem_append, not_or] at hnodup
  simp [hmiss before hnodup.1.1, hmiss after hnodup.1.2]

/-- Visiting the elements fiber by fiber, in the order of the fibers, visits
each of them once. An element of no fiber contributes nothing. -/
theorem flatMap_fibers [DecidableEq ι] (fiber : α → Option ι) (f : α → List γ) (is : List ι)
    (hnodup : is.Nodup) (hout : ∀ a, fiber a = none → f a = []) (xs : List α)
    (hin : ∀ a ∈ xs, ∀ i, fiber a = some i → i ∈ is) :
    (is.flatMap fun i => (xs.filter fun a => fiber a = some i).flatMap f).Perm (xs.flatMap f) := by
  induction xs with
  | nil => simp
  | cons x xs ih =>
      rw [List.forall_mem_cons] at hin
      have hcons : ∀ i, ((x :: xs).filter fun a => fiber a = some i).flatMap f =
          (if fiber x = some i then f x else []) ++
            (xs.filter fun a => fiber a = some i).flatMap f := by
        intro i
        by_cases h : fiber x = some i <;> simp [h]
      have hhead : (is.flatMap fun i => if fiber x = some i then f x else []) = f x := by
        cases h : fiber x with
        | none => simp [hout x h]
        | some j =>
            simpa only [h, Option.some.injEq, eq_comm] using flatMap_ite hnodup (hin.1 j h) (f x)
      simp only [hcons, List.flatMap_cons]
      apply (List.flatMap_append_perm is _ _).symm.trans
      rw [hhead]
      exact (ih hin.2).append_left (f x)

section Join

variable [DecidableEq κ] (left : α → Option κ) (right : β → Option κ) (merge : α → β → γ)

/-- The pairs of one left row. -/
def matchesOf (ys : List β) (x : α) : List γ :=
  match left x with
  | some k => (ys.filter fun y => right y = some k).map (merge x)
  | none => []

/-- Pair every left row with the right rows of the same key: left rows in their
order, and for each of them its matches in theirs. -/
def nestedJoin (xs : List α) (ys : List β) : List γ :=
  xs.flatMap (matchesOf left right merge ys)

/-- The rows whose key is sent to the index `i`. -/
def bucket [DecidableEq ι] (key : α → Option κ) (slot : κ → ι) (i : ι) (xs : List α) : List α :=
  xs.filter fun x => (key x).map slot = some i

/-- The rows of one key pair with all the right rows of that key. -/
theorem flatMap_matchesOf_filter (k : κ) (xs : List α) (ys : List β) :
    (xs.filter fun x => left x = some k).flatMap (matchesOf left right merge ys) =
      (xs.filter fun x => left x = some k).flatMap fun x =>
        (ys.filter fun y => right y = some k).map (merge x) := by
  apply List.flatMap_congr
  intro x hx
  rw [matchesOf, of_decide_eq_true (List.mem_filter.mp hx).2]

/-- Each key adds as many pairs as it has left rows times right rows. -/
theorem length_nestedJoin (ks : List κ) (hnodup : ks.Nodup) (xs : List α) (ys : List β)
    (hin : ∀ x ∈ xs, ∀ k, left x = some k → k ∈ ks) :
    (nestedJoin left right merge xs ys).length =
      (ks.map fun k => (xs.countP fun x => left x = some k) *
        ys.countP fun y => right y = some k).sum := by
  have hfibers := flatMap_fibers left (matchesOf left right merge ys) ks hnodup
    (fun x h => by rw [matchesOf, h]) xs hin
  rw [nestedJoin, ← hfibers.length_eq, List.length_flatMap]
  congr 2
  funext k
  rw [flatMap_matchesOf_filter, List.length_flatMap, List.countP_eq_length_filter,
    List.countP_eq_length_filter]
  simp only [List.length_map]
  rw [List.map_const', List.sum_replicate_nat]

/-- Rows without a key take no part in the join. -/
theorem nestedJoin_filter_isSome (xs : List α) (ys : List β) :
    nestedJoin left right merge (xs.filter fun x => (left x).isSome)
      (ys.filter fun y => (right y).isSome) = nestedJoin left right merge xs ys := by
  have hright : matchesOf left right merge (ys.filter fun y => (right y).isSome) =
      matchesOf left right merge ys := by
    funext x
    rw [matchesOf, matchesOf]
    cases left x with
    | none => rfl
    | some k =>
        dsimp only
        rw [List.filter_filter]
        congr 2
        funext y
        cases right y <;> simp
  rw [nestedJoin, nestedJoin, hright]
  induction xs with
  | nil => rfl
  | cons x xs ih =>
      rw [List.flatMap_cons, ← ih]
      cases hx : left x with
      | none => simp [hx, matchesOf]
      | some k => simp [hx]

variable [DecidableEq ι] (slot : κ → ι)

/-- A row has the same matches in the bucket of its own index as in all rows. -/
theorem matchesOf_bucket {i : ι} {x : α} (h : (left x).map slot = some i) (ys : List β) :
    matchesOf left right merge (bucket right slot i ys) x =
      matchesOf left right merge ys x := by
  obtain ⟨k, hk, rfl⟩ := Option.map_eq_some_iff.mp h
  simp only [matchesOf, hk, bucket, List.filter_filter]
  congr 2
  funext y
  by_cases hy : right y = some k <;> simp [hy]

theorem nestedJoin_bucket (i : ι) (xs : List α) (ys : List β) :
    nestedJoin left right merge (bucket left slot i xs) (bucket right slot i ys) =
      (bucket left slot i xs).flatMap (matchesOf left right merge ys) := by
  rw [nestedJoin]
  apply List.flatMap_congr
  intro x hx
  rw [bucket, List.mem_filter, decide_eq_true_iff] at hx
  exact matchesOf_bucket left right merge slot hx.2 ys

/-- Joining the buckets index by index is the join, up to the order of the
pairs. -/
theorem nestedJoin_buckets_perm (is : List ι) (hnodup : is.Nodup) (hslot : ∀ k, slot k ∈ is)
    (xs : List α) (ys : List β) :
    (is.flatMap fun i => nestedJoin left right merge (bucket left slot i xs)
      (bucket right slot i ys)).Perm (nestedJoin left right merge xs ys) := by
  simp only [nestedJoin_bucket]
  refine flatMap_fibers (fun x => (left x).map slot) _ is hnodup ?_ xs ?_
  · intro x h
    rw [Option.map_eq_none_iff] at h
    rw [matchesOf, h]
  · intro x _ i h
    obtain ⟨k, _, rfl⟩ := Option.map_eq_some_iff.mp h
    exact hslot k

/-- With one index, the join of the buckets is the join. -/
theorem nestedJoin_bucket_eq (i : ι) (hslot : ∀ k, slot k = i) (xs : List α) (ys : List β) :
    nestedJoin left right merge (bucket left slot i xs) (bucket right slot i ys) =
      nestedJoin left right merge xs ys := by
  rw [nestedJoin_bucket, nestedJoin]
  induction xs with
  | nil => rfl
  | cons x xs ih =>
      rw [bucket] at ih ⊢
      cases h : left x with
      | none => simpa [h, matchesOf] using ih
      | some k => simpa [h, hslot k] using ih

end Join

end CeQuery
