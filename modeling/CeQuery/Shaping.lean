import CeQuery.Foundation.StableSort
import CeQuery.Order

/-!
# What ORDER BY and LIMIT return

The comparison by a list of keys is a total preorder, whatever the cells hold. So
there is one stable sort by it, and shaping a result returns the first rows of this
one. Grouped rows and raw rows differ only in where a key finds its cell
(`SortsStably`).
-/

namespace CeQuery

/-- Some row has a cell for the key. -/
def occursIn {ρ : Type} (cell : String → ρ → Option Value) (rows : List ρ) (key : OrderKey) :
    Bool :=
  rows.any fun row => (cell key.column row).isSome

/-- The sort is the stable sort by the keys, up to the limit. -/
structure SortsStably {ρ : Type} (cell : String → ρ → Option Value) (keys : List OrderKey)
    (limit : Option Nat) (sort : List ρ → List ρ) : Prop where
  preorder : IsPreorderCmp fun a b => cmpKeys cell a b keys
  /-- The result is the front of the only stable sort. -/
  front : ∀ rows, ∃ sorted, StableSorted (fun a b => cmpKeys cell a b keys) rows sorted ∧
    (∀ other, StableSorted (fun a b => cmpKeys cell a b keys) rows other → other = sorted) ∧
    sort rows = capped limit sorted
  /-- Keys on columns that no row has do not count. -/
  unknown : ∀ rows sorted, StableSorted (fun a b => cmpKeys cell a b keys) rows sorted ↔
    StableSorted (fun a b => cmpKeys cell a b (keys.filter (occursIn cell rows))) rows sorted
  unordered : ∀ rows, (∀ key ∈ keys, ∀ row ∈ rows, cell key.column row = none) →
    sort rows = capped limit rows
  again : ∀ rows, sort (sort rows) = sort rows

section Keys

variable {ρ : Type} {cell : String → ρ → Option Value} {keys : List OrderKey} {rows : List ρ}
  {a b : ρ}

/-- A key on a column that neither row has does not tell them apart. -/
theorem cmpKeys_cons_of_absent {key : OrderKey} (ha : cell key.column a = none)
    (hb : cell key.column b = none) : cmpKeys cell a b (key :: keys) = cmpKeys cell a b keys := by
  have hnull : cellCmp .null .null = .eq := rfl
  simp [cmpKeys, ha, hb, hnull]

theorem cmpKeys_filter (ha : a ∈ rows) (hb : b ∈ rows) :
    cmpKeys cell a b keys = cmpKeys cell a b (keys.filter (occursIn cell rows)) := by
  induction keys with
  | nil => rfl
  | cons key keys ih =>
      by_cases hknown : occursIn cell rows key = true
      · rw [List.filter_cons_of_pos hknown]
        simp only [cmpKeys, ih]
      · rw [List.filter_cons_of_neg hknown, ← ih]
        simp only [occursIn, List.any_eq_true, not_exists, not_and,
          Option.not_isSome_iff_eq_none] at hknown
        exact cmpKeys_cons_of_absent (hknown a ha) (hknown b hb)

theorem cmpKeys_of_absent (h : ∀ key ∈ keys, ∀ row ∈ rows, cell key.column row = none)
    (ha : a ∈ rows) (hb : b ∈ rows) : cmpKeys cell a b keys = .eq := by
  induction keys with
  | nil => rfl
  | cons key keys ih =>
      rw [List.forall_mem_cons] at h
      rw [cmpKeys_cons_of_absent (h.1 a ha) (h.1 b hb)]
      exact ih h.2

theorem sortsStably_ranked (limit : Option Nat) : SortsStably cell keys limit fun rows =>
    capped limit (ranked (fun a b => cmpKeys cell a b keys) rows) where
  preorder := isPreorderCmp _
  front rows := ⟨_, stableSorted_ranked rows, fun _ h => h.unique (stableSorted_ranked rows), rfl⟩
  unknown rows _ :=
    ⟨fun h => h.congr fun _ ha _ hb => cmpKeys_filter ha hb,
      fun h => h.congr fun _ ha _ hb => (cmpKeys_filter ha hb).symm⟩
  unordered rows h := by
    have hsorted : ranked (fun a b => cmpKeys cell a b keys) rows = rows :=
      ranked_of_forall_eq fun _ ha _ hb => cmpKeys_of_absent h ha hb
    rw [hsorted]
  again rows := by
    rw [ranked_capped_ranked, capped_capped]

end Keys

theorem orderRows_eq (rows : List GroupResult) (groupBy : List String) (keys : List OrderKey) :
    orderRows rows groupBy keys =
      ranked (fun a b => cmpKeys (fun column row => rowCell row groupBy column) a b keys) rows := by
  cases keys with
  | nil => exact (ranked_of_forall_eq fun _ _ _ _ => rfl).symm
  | cons key keys => rfl

theorem orderRawRows_eq (rows : List Row) (keys : List OrderKey) :
    orderRawRows rows keys =
      ranked (fun a b => cmpKeys (fun column (row : Row) => row[column]?) a b keys) rows := by
  cases keys with
  | nil => exact (ranked_of_forall_eq fun _ _ _ _ => rfl).symm
  | cons key keys => rfl

theorem applyLimit_eq (rows : List GroupResult) (limit : Option Usize) :
    applyLimit rows limit = capped (limit.map fun n => n.val.toNat) rows := by
  cases limit <;> rfl

/-- Shaping is the stable sort by the keys, up to the limit; so is the sort of raw
rows. -/
theorem shape_sortsStably :
    (∀ q : Query, SortsStably (fun column row => rowCell row q.groupBy column) q.orderBy
      (q.limit.map fun n => n.val.toNat) q.shape) ∧
    ∀ keys : List OrderKey, SortsStably (fun column (row : Row) => row[column]?) keys none
      (orderRawRows · keys) := by
  constructor
  · intro q
    have hshape : q.shape = fun rows => capped (q.limit.map fun n => n.val.toNat)
        (ranked (fun a b => cmpKeys (fun column row => rowCell row q.groupBy column) a b
          q.orderBy) rows) := by
      funext rows
      rw [Query.shape, applyLimit_eq, orderRows_eq]
    rw [hshape]
    exact sortsStably_ranked _
  · intro keys
    have hsort : (orderRawRows · keys) = fun rows => capped none
        (ranked (fun a b => cmpKeys (fun column (row : Row) => row[column]?) a b keys) rows) := by
      funext rows
      rw [orderRawRows_eq, capped_none]
    rw [hsort]
    exact sortsStably_ranked _

end CeQuery
