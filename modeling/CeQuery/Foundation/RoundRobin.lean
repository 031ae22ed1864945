import Mathlib.Algebra.GroupWithZero.Nat
import Mathlib.Data.List.Infix
import Mathlib.Data.Nat.ModEq

/-!
# Dealing a list out

The elements of a list are dealt to `n` buckets in turn. The bucket `j` gets the
elements whose positions are congruent to `j` modulo `n`, in their order
(`getElem?_deal`), so its element `m` is the element `j + m * n` of the list
(`getElem?_dealt`). The sizes of the buckets differ by at most one.
-/

namespace CeQuery

variable {α : Type u}

/-- The elements whose positions, counted from `start`, are congruent to `j`. -/
def dealt (n j start : Nat) (xs : List α) : List α :=
  ((xs.zipIdx start).filter fun p => p.2 % n == j).map Prod.fst

/-- Put one element after the other into the next bucket. -/
def deal (n : Nat) (xs : List α) : List (List α) :=
  xs.zipIdx.foldl (fun buckets p => buckets.modify (p.2 % n) (· ++ [p.1])) (List.replicate n [])

variable {n j m start : Nat} {x : α} {xs : List α}

@[simp] theorem dealt_nil : dealt n j start ([] : List α) = [] := rfl

theorem dealt_cons : dealt n j start (x :: xs) =
    if start % n = j then x :: dealt n j (start + 1) xs else dealt n j (start + 1) xs := by
  rw [dealt, List.zipIdx_cons, List.filter_cons]
  by_cases h : start % n = j
  · rw [if_pos h, if_pos (beq_iff_eq.mpr h)]
    rfl
  · rw [if_neg h, if_neg (by simpa using h)]
    rfl

theorem dealt_sublist : (dealt n j start xs).Sublist xs := by
  have hpart : (dealt n j start xs).Sublist ((xs.zipIdx start).map Prod.fst) :=
    List.filter_sublist.map Prod.fst
  rwa [List.zipIdx_map_fst] at hpart

/-- What the buckets hold after the elements have been dealt. -/
theorem getElem?_foldl_modify (buckets : List (List α)) :
    ((xs.zipIdx start).foldl (fun buckets p => buckets.modify (p.2 % n) (· ++ [p.1]))
      buckets)[j]? = buckets[j]?.map (· ++ dealt n j start xs) := by
  induction xs generalizing start buckets with
  | nil => simp
  | cons x xs ih =>
      rw [List.zipIdx_cons, List.foldl_cons, ih, List.getElem?_modify, dealt_cons]
      by_cases h : start % n = j
      · rw [if_pos h]
        cases buckets[j]? <;> simp [h]
      · rw [if_neg h]
        cases buckets[j]? <;> simp [h]

/-- The bucket `j` holds the elements at the positions congruent to `j`. -/
theorem getElem?_deal (hj : j < n) : (deal n xs)[j]? = some (dealt n j 0 xs) := by
  rw [deal, getElem?_foldl_modify, List.getElem?_replicate_of_lt hj]
  rfl

theorem length_deal : (deal n xs).length = n := by
  have h : ∀ (ps : List (α × Nat)) (buckets : List (List α)),
      (ps.foldl (fun buckets p => buckets.modify (p.2 % n) (· ++ [p.1])) buckets).length =
        buckets.length := by
    intro ps
    induction ps with
    | nil => exact fun _ => rfl
    | cons p ps ih =>
        intro buckets
        rw [List.foldl_cons, ih, List.length_modify]
  rw [deal, h, List.length_replicate]

/-- From a position on, the next element of a bucket is `d` elements away. -/
theorem getElem?_dealt_from {d : Nat} (hd : d < n) (hnext : (start + d) % n = j) :
    (dealt n j start xs)[m]? = xs[d + m * n]? := by
  induction xs generalizing start d m with
  | nil => simp
  | cons x xs ih =>
      rw [dealt_cons]
      cases d with
      | zero =>
          rw [Nat.add_zero] at hnext
          rw [if_pos hnext]
          cases m with
          | zero => simp
          | succ m =>
              have hround : (start + 1 + (n - 1)) % n = j := by
                have hsum : start + 1 + (n - 1) = start + n := by omega
                rw [hsum, Nat.add_mod_right, hnext]
              have hpos : 0 + (m + 1) * n = n - 1 + m * n + 1 := by
                rw [Nat.succ_mul]
                omega
              rw [List.getElem?_cons_succ, ih (by omega) hround, hpos, List.getElem?_cons_succ]
      | succ d =>
          have hlater : ¬start % n = j := by
            intro hnow
            have hmod : start + (d + 1) ≡ start + 0 [MOD n] := hnext.trans hnow.symm
            have hzero : (d + 1) % n = 0 % n := Nat.ModEq.add_left_cancel' start hmod
            rw [Nat.mod_eq_of_lt hd, Nat.zero_mod] at hzero
            omega
          have hpos : d + 1 + m * n = d + m * n + 1 := by omega
          rw [if_neg hlater, ih (Nat.lt_of_succ_lt hd) (by rw [← hnext, Nat.add_right_comm]; rfl),
            hpos, List.getElem?_cons_succ]

theorem getElem?_dealt (hj : j < n) : (dealt n j 0 xs)[m]? = xs[j + m * n]? :=
  getElem?_dealt_from hj (by rw [Nat.zero_add, Nat.mod_eq_of_lt hj])

/-- Reading the buckets in turn gives the list back. -/
theorem getElem?_eq_bind_deal (hn : 0 < n) (i : Nat) :
    xs[i]? = (deal n xs)[i % n]?.bind (·[i / n]?) := by
  rw [getElem?_deal (Nat.mod_lt i hn), Option.bind_some, getElem?_dealt (Nat.mod_lt i hn),
    Nat.mul_comm, Nat.mod_add_div]

/-- No bucket is more than one element ahead of another one. -/
theorem length_dealt_le {j' : Nat} (hj : j < n) (hj' : j' < n) :
    (dealt n j 0 xs).length ≤ (dealt n j' 0 xs).length + 1 := by
  have hindex : ∀ {k m : Nat}, k < n → (m < (dealt n k 0 xs).length ↔ k + m * n < xs.length) := by
    intro k m hk
    rw [← not_iff_not, Nat.not_lt, Nat.not_lt, ← List.getElem?_eq_none_iff,
      ← List.getElem?_eq_none_iff, getElem?_dealt hk]
  by_contra hlong
  have hlast : (dealt n j' 0 xs).length + 1 < (dealt n j 0 xs).length := by omega
  have hwithin := (hindex hj).mp hlast
  rw [Nat.succ_mul] at hwithin
  have habsurd : (dealt n j' 0 xs).length < (dealt n j' 0 xs).length :=
    (hindex hj').mpr (by omega)
  omega

/-- An element that is put into one of the buckets is added to their contents. -/
theorem flatten_modify_perm (buckets : List (List α)) (hj : j < buckets.length) :
    (buckets.modify j (· ++ [x])).flatten.Perm (x :: buckets.flatten) := by
  induction buckets generalizing j with
  | nil => exact absurd hj (Nat.not_lt_zero j)
  | cons bucket buckets ih =>
      cases j with
      | zero =>
          rw [List.modify_zero_cons, List.flatten_cons, List.flatten_cons, List.append_assoc]
          exact List.perm_middle
      | succ j =>
          rw [List.modify_succ_cons, List.flatten_cons, List.flatten_cons]
          exact ((ih (Nat.lt_of_succ_lt_succ hj)).append_left bucket).trans List.perm_middle

/-- The buckets together hold the elements of the list. -/
theorem flatten_deal_perm (hn : 0 < n) (xs : List α) : (deal n xs).flatten.Perm xs := by
  have hall : ∀ (ps : List (α × Nat)) (buckets : List (List α)), buckets.length = n →
      (ps.foldl (fun buckets p => buckets.modify (p.2 % n) (· ++ [p.1])) buckets).flatten.Perm
        (buckets.flatten ++ ps.map Prod.fst) := by
    intro ps
    induction ps with
    | nil => exact fun buckets _ => .of_eq (List.append_nil _).symm
    | cons p ps ih =>
        intro buckets hlength
        have hbucket : p.2 % n < buckets.length := by
          rw [hlength]
          exact Nat.mod_lt _ hn
        refine (ih _ (by rwa [List.length_modify])).trans ?_
        refine ((flatten_modify_perm buckets hbucket).append_right _).trans ?_
        rw [List.map_cons, List.cons_append]
        exact List.perm_middle.symm
  have hempty : (List.replicate n ([] : List α)).flatten = [] := by
    rw [List.flatten_eq_nil_iff]
    exact fun bucket hbucket => List.eq_of_mem_replicate hbucket
  have hdealt := hall xs.zipIdx (List.replicate n []) List.length_replicate
  rwa [hempty, List.nil_append, List.zipIdx_map_fst] at hdealt

end CeQuery
