import CeQuery.Foundation.Codec
import CeQuery.Query.Agg

/-!
# Partials and their reduction

The map output of one shard: per group key one accumulator for each aggregate
of the query. Partials of different shards are merged group by group and turned
into output rows at the end.
-/

namespace CeQuery

/-- Group keys with one accumulator per aggregate. -/
abbrev Groups : Type := BTreeMap (List String) (List Accum)

/-- The map output of one shard, or the running merge of several. -/
structure Partial where
  aggregates : List Agg
  groups : Groups

/-- One finalised output group. -/
structure GroupResult where
  key : List String
  values : BTreeMap String Value

/-- Merge accumulators position by position; what the other list lacks stays. -/
def mergeAccs : List Accum → List Accum → List Accum
  | a :: accs, b :: others => a.merge b :: mergeAccs accs others
  | accs, _ => accs

/-- The named values of one group; nothing when a conversion panics. -/
def finalizeAccs (json : SerdeJson) :
    List Agg → List Accum → BTreeMap String Value → Option (BTreeMap String Value)
  | agg :: aggs, acc :: accs, values => do
      let value ← acc.finalizeValue json
      finalizeAccs json aggs accs (values.insert agg.outputName value)
  | _, _, values => some values

namespace Partial

/-- The identity element of `merge`. -/
def empty (aggregates : List Agg) : Partial :=
  { aggregates, groups := ∅ }

/-- Merge `other` into the partial, group by group. -/
def merge (self other : Partial) : Partial :=
  { self with groups := self.groups.absorb mergeAccs other.groups }

/-- Finalise into output groups in key order; nothing when a conversion panics. -/
def finalize (json : SerdeJson) (self : Partial) : Option (List GroupResult) :=
  self.groups.toList.mapM fun entry => do
    let values ← finalizeAccs json self.aggregates entry.2 ∅
    some { key := entry.1, values }

end Partial

section Finalize

variable {json : SerdeJson} {p : Partial}

private theorem mapM_isSome {α : Type u} {β : Type v} (g : α → Option β) (as : List α) :
    (as.mapM g).isSome = true ↔ ∀ a ∈ as, (g a).isSome = true := by
  induction as with
  | nil => simp
  | cons a as ih =>
      rw [List.forall_mem_cons, ← ih, List.mapM_cons]
      cases g a <;> cases as.mapM g <;> simp

/-- The output rows are the groups, finalised one by one. -/
theorem Partial.finalize_rows {out : List GroupResult} (h : p.finalize json = some out) :
    List.Forall₂ (fun entry row => entry.1 = row.key ∧
      finalizeAccs json p.aggregates entry.2 ∅ = some row.values) p.groups.toList out := by
  apply (Codec.mapM_eq_some_iff.mp h).imp
  intro entry row hrow
  simp only [Option.bind_eq_bind, Option.bind_eq_some_iff] at hrow
  obtain ⟨values, hvalues, hout⟩ := hrow
  cases hout
  exact ⟨rfl, hvalues⟩

/-- An output row is made of the accumulators under its key. -/
theorem Partial.finalize_mem {out : List GroupResult} (h : p.finalize json = some out)
    {row : GroupResult} (hrow : row ∈ out) : ∃ accs, p.groups[row.key]? = some accs ∧
      finalizeAccs json p.aggregates accs ∅ = some row.values := by
  obtain ⟨⟨key, accs⟩, hentry, hkey, hvalues⟩ :=
    Codec.exists_mem_of_forall₂ (Partial.finalize_rows h).flip hrow
  cases hkey
  exact ⟨accs, Std.ExtTreeMap.mem_toList_iff_getElem?_eq_some.mp hentry, hvalues⟩

/-- Finalising succeeds exactly if it does for every group. -/
theorem Partial.finalize_isSome : (p.finalize json).isSome = true ↔
    ∀ (key : List String) accs, p.groups[key]? = some accs →
      (finalizeAccs json p.aggregates accs ∅).isSome = true := by
  rw [Partial.finalize, mapM_isSome]
  constructor
  · intro h key accs hget
    have hmem := Std.ExtTreeMap.mem_toList_iff_getElem?_eq_some.mpr hget
    simpa [Option.isSome_bind] using h (key, accs) hmem
  · intro h entry hentry
    have hget := Std.ExtTreeMap.mem_toList_iff_getElem?_eq_some.mp hentry
    simpa [Option.isSome_bind] using h entry.1 entry.2 hget

/-- The output rows carry the keys of the groups, in the order of the map. -/
theorem Partial.finalize_keys {out : List GroupResult} (h : p.finalize json = some out) :
    out.map (·.key) = p.groups.keys := by
  rw [← Std.ExtTreeMap.map_fst_toList_eq_keys]
  symm
  rw [← List.forall₂_eq_eq_eq, List.forall₂_map_left_iff, List.forall₂_map_right_iff]
  exact (Partial.finalize_rows h).imp fun _ _ hrow => hrow.1

end Finalize

/-- Merge a collection of partials into one, from the left. -/
def reduce (aggregates : List Agg) (parts : List Partial) : Partial :=
  parts.foldl Partial.merge (.empty aggregates)

end CeQuery
