import Mathlib.Tactic.Common
import Std.Data.ExtTreeMap.Lemmas

/-!
# Ordered maps that are built by grouping and by merging

`BTreeMap` is the extensional search tree of the standard library at the
canonical comparison of its keys: two maps with equal bindings are equal, and
iteration visits the keys in increasing order.

Two loops build such maps. `upsert` is one step of a grouping loop, which looks
a key up, creates its entry when there is none, and updates the entry. `absorb`
folds one map into another, combining the entries under common keys. The lemmas
here read the finished map at an arbitrary key, so that no later proof has to
follow the iteration.
-/

namespace CeQuery

abbrev BTreeMap (κ : Type u) (β : Type v) [Ord κ] : Type (max u v) := Std.ExtTreeMap κ β compare

namespace BTreeMap

variable {κ : Type u} {β : Type v} {ρ : Type w} [Ord κ] [Std.TransOrd κ]

/-- Update the entry under `k`, starting from `init` when there is none. -/
def upsert (m : BTreeMap κ β) (k : κ) (init : β) (f : β → β) : BTreeMap κ β :=
  m.alter k fun entry => some (f (entry.getD init))

/-- Fold every entry of `other` into `m`. An entry whose key is new is carried
over, entries under a common key are combined. -/
def absorb (combine : β → β → β) (m other : BTreeMap κ β) : BTreeMap κ β :=
  other.foldl (fun acc k b => acc.alter k fun
    | some a => some (combine a b)
    | none => some b) m

theorem getElem?_upsert_self (m : BTreeMap κ β) (k : κ) (init : β) (f : β → β) :
    (m.upsert k init f)[k]? = some (f (m[k]?.getD init)) := by
  simp [upsert]

/-- Folding distinct entries into a map touches each key at most once. -/
private theorem getElem?_foldl_alter (combine : β → β → β) (k : κ) (entries : List (κ × β))
    (m : BTreeMap κ β) (hdistinct : entries.Pairwise fun a b => ¬compare a.1 b.1 = .eq) :
    (entries.foldl (fun acc e => acc.alter e.1 fun
      | some a => some (combine a e.2)
      | none => some e.2) m)[k]? =
        m[k]?.merge combine ((entries.find? (fun e => compare e.1 k == .eq)).map (·.2)) := by
  induction entries generalizing m with
  | nil => cases h : m[k]? <;> simp [h]
  | cons e entries ih =>
      obtain ⟨hfresh, hrest⟩ := List.pairwise_cons.mp hdistinct
      rw [List.foldl_cons, ih _ hrest, Std.ExtTreeMap.getElem?_alter]
      by_cases hk : compare e.1 k = .eq
      · have hnone : entries.find? (fun e => compare e.1 k == .eq) = none := by
          rw [List.find?_eq_none]
          intro e' he' heq
          refine hfresh e' he' (Std.TransCmp.eq_trans hk ?_)
          exact Std.OrientedCmp.eq_symm (beq_iff_eq.mp heq)
        have hm : m[e.1]? = m[k]? := Std.ExtTreeMap.getElem?_congr hk
        cases h : m[k]? <;> simp [hnone, hm, h, hk]
      · simp [hk]

/-- Reading a merged map: each key carries what the two sides have under it. -/
theorem getElem?_absorb (combine : β → β → β) (m other : BTreeMap κ β) (k : κ) :
    (absorb combine m other)[k]? = m[k]?.merge combine other[k]? := by
  rw [absorb]
  rw [Std.ExtTreeMap.foldl_eq_foldl_toList,
    getElem?_foldl_alter combine k _ m Std.ExtTreeMap.distinct_keys_toList]
  congr 1
  cases hfind : other.toList.find? (fun e => compare e.1 k == .eq) with
  | none =>
      rw [Std.ExtTreeMap.find?_toList_eq_none_iff_not_mem] at hfind
      simp [hfind]
  | some e =>
      rw [Std.ExtTreeMap.find?_toList_eq_some_iff_getKey?_eq_some_and_getElem?_eq_some] at hfind
      exact hfind.2.symm

variable [Std.LawfulEqOrd κ]

section Iteration

variable {σ : Type w} {step : σ → κ → β → σ} {k : κ} {m : BTreeMap κ β}

omit [Ord κ] [Std.TransOrd κ] [Std.LawfulEqOrd κ] in
private theorem foldl_preserved {P : σ → Prop} (hskip : ∀ s k' b, k' ≠ k → P s → P (step s k' b))
    (entries : List (κ × β)) (hkeys : ∀ e ∈ entries, e.1 ≠ k) {s : σ} (hs : P s) :
    P (entries.foldl (fun s e => step s e.1 e.2) s) := by
  induction entries generalizing s with
  | nil => exact hs
  | cons e entries ih =>
      rw [List.forall_mem_cons] at hkeys
      exact ih hkeys.2 (hskip s e.1 e.2 hkeys.1 hs)

/-- An iteration over a map without the key `k` preserves what steps at other
keys preserve. -/
theorem foldl_miss {P : σ → Prop} (hget : m[k]? = none)
    (hskip : ∀ s k' b, k' ≠ k → P s → P (step s k' b)) {s : σ} (hs : P s) :
    P (m.foldl step s) := by
  rw [Std.ExtTreeMap.foldl_eq_foldl_toList]
  refine foldl_preserved hskip m.toList ?_ hs
  intro e he heq
  have hsome := Std.ExtTreeMap.mem_toList_iff_getElem?_eq_some.mp he
  rw [heq, hget] at hsome
  cases hsome

/-- An iteration over a map with an entry under `k` takes one step there, between
steps at other keys. -/
theorem foldl_hit {P Q : σ → Prop} {b : β} (hget : m[k]? = some b)
    (hskip : ∀ s k' b, k' ≠ k → P s → P (step s k' b)) (hhit : ∀ s, P s → Q (step s k b))
    (hkeep : ∀ s k' b, k' ≠ k → Q s → Q (step s k' b)) {s : σ} (hs : P s) :
    Q (m.foldl step s) := by
  have hmem : (k, b) ∈ m.toList := Std.ExtTreeMap.mem_toList_iff_getElem?_eq_some.mpr hget
  obtain ⟨before, after, hsplit⟩ := List.append_of_mem hmem
  have hdistinct := Std.ExtTreeMap.distinct_keys_toList (t := m)
  rw [hsplit, List.pairwise_append, List.pairwise_cons] at hdistinct
  obtain ⟨_, ⟨hafter, _⟩, hbefore⟩ := hdistinct
  rw [Std.ExtTreeMap.foldl_eq_foldl_toList, hsplit, List.foldl_append, List.foldl_cons]
  refine foldl_preserved hkeep after ?_ (hhit _ (foldl_preserved hskip before ?_ hs))
  · intro e he heq
    exact hafter e he (heq ▸ Std.ReflOrd.compare_self)
  · intro e he heq
    exact hbefore e he (k, b) List.mem_cons_self (heq ▸ Std.ReflOrd.compare_self)

end Iteration

theorem getElem?_upsert_of_ne (m : BTreeMap κ β) {k k' : κ} (init : β) (f : β → β)
    (h : k ≠ k') : (m.upsert k init f)[k']? = m[k']? := by
  simp [upsert, Std.ExtTreeMap.getElem?_alter, h]

/-- Reading a map produced by a grouping loop: under `k` stands the fold of the
inputs whose key is `k`, in their order, and nothing when there is none. The
first of them creates the entry. -/
theorem getElem?_foldl_upsert [DecidableEq κ] (key : ρ → κ) (init : ρ → β) (step : ρ → β → β)
    (k : κ) (inputs : List ρ) (m : BTreeMap κ β) :
    (inputs.foldl (fun acc r => acc.upsert (key r) (init r) (step r)) m)[k]? =
      match inputs.filter (fun r => key r = k) with
      | [] => m[k]?
      | r :: group =>
          some ((r :: group).foldl (fun b r => step r b) (m[k]?.getD (init r))) := by
  induction inputs generalizing m with
  | nil => rfl
  | cons r inputs ih =>
      rw [List.foldl_cons, ih]
      by_cases hr : key r = k
      · subst hr
        rw [getElem?_upsert_self, List.filter_cons_of_pos (by simp)]
        cases inputs.filter (fun r' => key r' = key r) <;> rfl
      · rw [getElem?_upsert_of_ne _ _ _ hr, List.filter_cons_of_neg (by simpa using hr)]

/-- Reading a map into which inputs were inserted in turn: the last of them with the key
`k` stands under it. -/
theorem getElem?_foldl_insert [DecidableEq κ] (key : ρ → κ) (value : ρ → β)
    (k : κ) (inputs : List ρ) (m : BTreeMap κ β) :
    (inputs.foldl (fun acc r => acc.insert (key r) (value r)) m)[k]? =
      ((inputs.filter fun r => key r = k).getLast?.map value).or m[k]? := by
  induction inputs generalizing m with
  | nil => rfl
  | cons r inputs ih =>
      rw [List.foldl_cons, ih]
      by_cases hkey : key r = k
      · rw [List.filter_cons_of_pos (by simpa using hkey), List.getLast?_cons, hkey,
          Std.ExtTreeMap.getElem?_insert_self]
        cases (inputs.filter fun r => key r = k).getLast? <;> rfl
      · rw [List.filter_cons_of_neg (by simpa using hkey), Std.ExtTreeMap.getElem?_insert,
          if_neg]
        simpa using hkey

/-- Reading a multimap: under `k` stand the inputs whose key is `k`, in their
order. An input without a key is skipped. -/
theorem getElem?_foldl_push [DecidableEq κ] (key : ρ → Option κ) (k : κ) (inputs : List ρ)
    (m : BTreeMap κ (List ρ)) :
    (inputs.foldl (fun acc r =>
      match key r with
      | some k => acc.upsert k [] fun group => group ++ [r]
      | none => acc) m)[k]?.getD [] =
        m[k]?.getD [] ++ inputs.filter fun r => key r = some k := by
  induction inputs generalizing m with
  | nil => simp
  | cons r inputs ih =>
      rw [List.foldl_cons, ih]
      cases hr : key r with
      | none => simp [hr]
      | some k' =>
          by_cases hk : k' = k
          · subst hk
            simp [hr, getElem?_upsert_self]
          · simp [hr, hk, getElem?_upsert_of_ne m _ _ hk]

section Insertions

variable [BEq κ] [LawfulBEq κ] [Std.LawfulBEqOrd κ]

/-- Each of the insertions adds an entry exactly if their keys are new and distinct. -/
theorem size_insertMany_eq_iff (m : BTreeMap κ β) (entries : List (κ × β)) :
    (m.insertMany entries).size = m.size + entries.length ↔
      (∀ e ∈ entries, e.1 ∉ m) ∧ (entries.map Prod.fst).Nodup := by
  constructor
  · intro hsize
    induction entries generalizing m with
    | nil => simp
    | cons e entries ih =>
        rw [Std.ExtTreeMap.insertMany_cons, List.length_cons] at hsize
        have hrest := Std.ExtTreeMap.size_insertMany_list_le (t := m.insert e.1 e.2) (l := entries)
        have hfirst := Std.ExtTreeMap.size_insert (t := m) (k := e.1) (v := e.2)
        have hnew : e.1 ∉ m := by
          intro hmem
          rw [if_pos (Std.ExtTreeMap.contains_iff_mem.mpr hmem)] at hfirst
          omega
        rw [if_neg (mt Std.ExtTreeMap.contains_iff_mem.mp hnew)] at hfirst
        obtain ⟨hfresh, hnodup⟩ := ih (m.insert e.1 e.2) (by omega)
        have hapart : ∀ e' ∈ entries, e.1 ≠ e'.1 ∧ e'.1 ∉ m := by
          intro e' he'
          have hmem := hfresh e' he'
          rw [Std.ExtTreeMap.mem_insert, not_or] at hmem
          exact ⟨fun heq => hmem.1 (heq ▸ Std.ReflOrd.compare_self), hmem.2⟩
        refine ⟨List.forall_mem_cons.mpr ⟨hnew, fun e' he' => (hapart e' he').2⟩, ?_⟩
        rw [List.map_cons, List.nodup_cons]
        refine ⟨fun hmem => ?_, hnodup⟩
        obtain ⟨e', he', heq⟩ := List.mem_map.mp hmem
        exact (hapart e' he').1 heq.symm
  · rintro ⟨hfresh, hnodup⟩
    apply Std.ExtTreeMap.size_insertMany_list
    · refine (List.pairwise_map.mp hnodup).imp fun hne heq => hne ?_
      exact Std.LawfulEqOrd.eq_of_compare heq
    · intro k hk
      rw [List.contains_eq_mem, decide_eq_false_iff_not, List.mem_map]
      rintro ⟨e, he, rfl⟩
      exact hfresh e he hk

end Insertions

section OfList

variable [BEq κ] [Std.LawfulBEqOrd κ] {entries : List (κ × β)}

/-- A map made of entries maps to these only. -/
theorem mem_of_getElem?_ofList {k : κ} {b : β}
    (hget : (Std.ExtTreeMap.ofList entries compare)[k]? = some b) : (k, b) ∈ entries := by
  rw [Std.ExtTreeMap.ofList_eq_insertMany_empty, Std.ExtTreeMap.getElem?_insertMany_list,
    Std.ExtTreeMap.getElem?_empty, Option.or_none, List.findSomeRev?_eq_findSome?_reverse] at hget
  obtain ⟨⟨k', b'⟩, hmem, hfound⟩ := List.exists_of_findSome?_eq_some hget
  obtain ⟨hkey, hvalue⟩ := Option.ite_none_right_eq_some.mp hfound
  cases hvalue
  rw [← Std.LawfulEqOrd.eq_of_compare hkey]
  exact List.mem_reverse.mp hmem

/-- A map made of entries with distinct keys has these entries. -/
theorem getElem?_ofList_eq_some_iff
    (hdistinct : entries.Pairwise fun a b => ¬compare a.1 b.1 = .eq) {k : κ} {b : β} :
    (Std.ExtTreeMap.ofList entries compare)[k]? = some b ↔ (k, b) ∈ entries :=
  ⟨mem_of_getElem?_ofList,
    fun hmem => Std.ExtTreeMap.getElem?_ofList_of_mem Std.ReflCmp.compare_self hdistinct hmem⟩

/-- A map is rebuilt from its entries. -/
theorem ofList_toList (m : BTreeMap κ β) : Std.ExtTreeMap.ofList m.toList compare = m := by
  apply Std.ExtTreeMap.ext_getElem?
  intro k
  apply Option.ext
  intro b
  rw [getElem?_ofList_eq_some_iff Std.ExtTreeMap.distinct_keys_toList]
  exact Std.ExtTreeMap.mem_toList_iff_getElem?_eq_some

/-- Entries in key order are listed as they are. -/
theorem toList_ofList (h : entries.Pairwise fun a b => compare a.1 b.1 = .lt) :
    (Std.ExtTreeMap.ofList entries compare).toList = entries := by
  have hdistinct : entries.Pairwise fun a b => ¬compare a.1 b.1 = .eq :=
    h.imp fun hlt heq => by simp [hlt] at heq
  have hlisted := Std.ExtTreeMap.ordered_keys_toList (t := Std.ExtTreeMap.ofList entries compare)
  have hnodup : ∀ es : List (κ × β), es.Pairwise (fun a b => compare a.1 b.1 = .lt) → es.Nodup :=
    fun es hes => hes.imp fun hlt heq => by simp [heq, Std.ReflCmp.compare_self] at hlt
  refine List.Perm.eq_of_pairwise ?_ hlisted h ?_
  · intro a b _ _ hab hba
    have hswap : compare a.1 b.1 = (compare b.1 a.1).swap := Std.OrientedCmp.eq_swap
    rw [hab, hba] at hswap
    cases hswap
  · rw [List.perm_ext_iff_of_nodup (hnodup _ hlisted) (hnodup _ h)]
    rintro ⟨k, b⟩
    rw [Std.ExtTreeMap.mem_toList_iff_getElem?_eq_some, getElem?_ofList_eq_some_iff hdistinct]

/-- Entries under the keys of a map, in its order, make the map exactly if they
are its entries. -/
theorem ofList_eq_iff {m : BTreeMap κ β} (hkeys : entries.map (·.1) = m.toList.map (·.1)) :
    Std.ExtTreeMap.ofList entries compare = m ↔ entries = m.toList := by
  constructor
  · intro h
    rw [← h, toList_ofList]
    have hordered : (m.toList.map (·.1)).Pairwise fun a b => compare a b = .lt :=
      List.pairwise_map.mpr Std.ExtTreeMap.ordered_keys_toList
    rw [← hkeys] at hordered
    exact List.pairwise_map.mp hordered
  · intro h
    rw [h, ofList_toList]

end OfList

/-! ## Maps with related entries -/

section Related

variable {γ : Type w} {R : β → γ → Prop} {m : BTreeMap κ β} {m' : BTreeMap κ γ}

omit [Ord κ] [Std.TransOrd κ] [Std.LawfulEqOrd κ] in
private theorem forall₂_of_map_fst {xs : List (κ × β)} {ys : List (κ × γ)}
    (hkeys : xs.map Prod.fst = ys.map Prod.fst)
    (h : ∀ x ∈ xs, ∀ y ∈ ys, x.1 = y.1 → R x.2 y.2) :
    List.Forall₂ (fun x y => x.1 = y.1 ∧ R x.2 y.2) xs ys := by
  induction xs generalizing ys with
  | nil =>
      rw [List.map_eq_nil_iff.mp hkeys.symm]
      exact .nil
  | cons x xs ih =>
      cases ys with
      | nil => cases hkeys
      | cons y ys =>
          obtain ⟨hkey, hkeys⟩ := List.cons.inj hkeys
          refine .cons ⟨hkey, h x List.mem_cons_self y List.mem_cons_self hkey⟩ (ih hkeys ?_)
          exact fun x hx y hy => h x (List.mem_cons_of_mem _ hx) y (List.mem_cons_of_mem _ hy)

/-- Maps with related entries under each key list related entries. -/
theorem forall₂_toList (h : ∀ k : κ, Option.Rel R m[k]? m'[k]?) :
    List.Forall₂ (fun e e' => e.1 = e'.1 ∧ R e.2 e'.2) m.toList m'.toList := by
  have hnodup : ∀ ks : List κ, ks.Pairwise (fun a b => compare a b = .lt) → ks.Nodup :=
    fun ks hks => hks.imp fun hlt heq => by simp [heq, Std.ReflCmp.compare_self] at hlt
  have hsorted : (m.toList.map Prod.fst).Pairwise fun a b => compare a b = .lt :=
    List.pairwise_map.mpr Std.ExtTreeMap.ordered_keys_toList
  have hsorted' : (m'.toList.map Prod.fst).Pairwise fun a b => compare a b = .lt :=
    List.pairwise_map.mpr Std.ExtTreeMap.ordered_keys_toList
  have hmem : ∀ k, k ∈ m.toList.map Prod.fst ↔ k ∈ m'.toList.map Prod.fst := by
    intro k
    have hsome : (m[k]?).isSome = (m'[k]?).isSome := by
      have hk := h k
      revert hk
      cases m[k]? <;> cases m'[k]? <;> first | exact fun _ => rfl | exact fun hk => nomatch hk
    rw [Std.ExtTreeMap.map_fst_toList_eq_keys, Std.ExtTreeMap.map_fst_toList_eq_keys,
      Std.ExtTreeMap.mem_keys, Std.ExtTreeMap.mem_keys, Std.ExtTreeMap.mem_iff_isSome_getElem?,
      Std.ExtTreeMap.mem_iff_isSome_getElem?, hsome]
  apply forall₂_of_map_fst
  · refine List.Perm.eq_of_pairwise ?_ hsorted hsorted' ?_
    · intro a b _ _ hab hba
      have hswap : compare a b = (compare b a).swap := Std.OrientedCmp.eq_swap
      rw [hab, hba] at hswap
      cases hswap
    · exact (List.perm_ext_iff_of_nodup (hnodup _ hsorted) (hnodup _ hsorted')).mpr hmem
  · rintro ⟨k, b⟩ hb ⟨k', c⟩ hc rfl
    have hk := h k
    rw [Std.ExtTreeMap.mem_toList_iff_getElem?_eq_some.mp hb,
      Std.ExtTreeMap.mem_toList_iff_getElem?_eq_some.mp hc] at hk
    cases hk with
    | some hbc => exact hbc

end Related

/-! ## Counting -/

section Counting

variable [DecidableEq κ] {keys all : List κ}

/-- A map of counters counts. -/
theorem getElem?_counters (keys : List κ) (k : κ) (m : BTreeMap κ Nat) :
    (keys.foldl (fun (m : BTreeMap κ Nat) k => m.upsert k 0 (· + 1)) m)[k]? =
      if k ∈ keys then some (m[k]?.getD 0 + keys.count k) else m[k]? := by
  induction keys generalizing m with
  | nil => simp
  | cons k' keys ih =>
      rw [List.foldl_cons, ih]
      by_cases hk : k' = k
      · subst hk
        rw [getElem?_upsert_self, if_pos List.mem_cons_self, List.count_cons_self]
        split
        · simp only [Option.getD_some, Option.some.injEq]
          omega
        · rename_i hnot
          rw [List.count_eq_zero_of_not_mem hnot]
      · rw [getElem?_upsert_of_ne m _ _ hk, List.count_cons_of_ne hk]
        simp only [List.mem_cons, Ne.symm hk, false_or]

/-- Counters are listed in the order of their keys. -/
theorem toList_counters (hall : all.Pairwise fun a b => compare a b = .lt)
    (hsub : ∀ k ∈ keys, k ∈ all) :
    (keys.foldl (fun (m : BTreeMap κ Nat) k => m.upsert k 0 (· + 1)) ∅).toList =
      (all.filter (· ∈ keys)).map fun k => (k, keys.count k) := by
  have hordered : ((all.filter (· ∈ keys)).map fun k => (k, keys.count k)).Pairwise
      fun a b => compare a.1 b.1 = .lt :=
    List.pairwise_map.mpr (hall.sublist List.filter_sublist)
  rw [← toList_ofList hordered]
  congr 1
  apply Std.ExtTreeMap.ext_getElem?
  intro k
  apply Option.ext
  intro n
  rw [getElem?_counters, getElem?_ofList_eq_some_iff]
  · simp only [Std.ExtTreeMap.getElem?_empty, Option.getD_none, Nat.zero_add, List.mem_map,
      List.mem_filter, Prod.mk.injEq, decide_eq_true_eq]
    constructor
    · intro h
      split at h
      · rename_i hmem
        exact ⟨k, ⟨hsub k hmem, hmem⟩, rfl, Option.some.inj h⟩
      · cases h
    · rintro ⟨_, ⟨_, hmem⟩, rfl, rfl⟩
      exact if_pos hmem
  · refine hordered.imp fun hlt heq => ?_
    rw [hlt] at heq
    cases heq

end Counting

end BTreeMap

end CeQuery
