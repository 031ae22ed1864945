import CeQuery.Combine.MapReduce

/-!
# The accumulators of one group

Mapping and merging treat the groups apart from each other, and in a group the
aggregates. So the accumulator of an aggregate in a group can be followed alone: it
is folded from the members of the group in each shard that has any, and these are
merged along the tree (`getElem?_eval`). A shard without members takes no part.
`groupOf_rule` is the induction on the tree.
-/

namespace CeQuery

namespace Query

variable (json : SerdeJson) (q : Query) (key : List String)

/-- The partial of a schedule of merges over shards. -/
def evalTree (tree : MergeTree (List Row)) : Partial :=
  tree.eval (.empty q.aggregates) Partial.merge (q.mapShard json)

/-- The accumulators that the members of a group in one shard are folded into; none if
it has no members there. -/
def groupOfShard (rows : List Row) : Option (Agg → Accum) :=
  if (q.members json key rows).isEmpty then none
  else some fun agg => agg.foldRows (q.members json key rows)

/-- The accumulators of a group; none if it has no members in any shard. -/
def groupOf (tree : MergeTree (List Row)) : Option (Agg → Accum) :=
  tree.eval none (Option.merge fun a b agg => (a agg).merge (b agg)) (q.groupOfShard json key)

variable {json q key} {rows : List Row} {tree : MergeTree (List Row)} {g : Agg → Accum}

theorem mergeAccs_map (aggs : List Agg) (f g : Agg → Accum) :
    mergeAccs (aggs.map f) (aggs.map g) = aggs.map fun agg => (f agg).merge (g agg) := by
  induction aggs with
  | nil => rfl
  | cons agg aggs ih => rw [List.map_cons, List.map_cons, mergeAccs, ih, List.map_cons]

private theorem foldRow_map (row : Row) (aggs : List Agg) (f : Agg → Accum) :
    foldRow row aggs (aggs.map f) = aggs.map fun agg => agg.fold row (f agg) := by
  induction aggs with
  | nil => rfl
  | cons agg aggs ih => rw [List.map_cons, foldRow, ih, List.map_cons]

/-- Each aggregate folds the rows on its own. -/
theorem foldl_foldRow (rows : List Row) (aggs : List Agg) (f : Agg → Accum) :
    rows.foldl (fun accs row => foldRow row aggs accs) (aggs.map f) =
      aggs.map fun agg => rows.foldl (fun acc row => agg.fold row acc) (f agg) := by
  induction rows generalizing f with
  | nil => rfl
  | cons row rows ih =>
      rw [List.foldl_cons, foldRow_map, ih]
      rfl

theorem groupOfShard_eq_some_iff : q.groupOfShard json key rows = some g ↔
    q.members json key rows ≠ [] ∧ g = fun agg => agg.foldRows (q.members json key rows) := by
  rw [groupOfShard]
  cases q.members json key rows with
  | nil => simp
  | cons row group => simp [eq_comm]

theorem groupOfShard_eq_none_iff :
    q.groupOfShard json key rows = none ↔ q.members json key rows = [] := by
  rw [groupOfShard]
  cases q.members json key rows with
  | nil => simp
  | cons row group => simp

theorem getElem?_groupOfShard :
    (q.mapShard json rows).groups[key]? =
      (q.groupOfShard json key rows).map fun g => q.aggregates.map g := by
  rw [getElem?_mapShard, groupOfShard]
  cases q.members json key rows with
  | nil => rfl
  | cons row group =>
      change some _ = some _
      rw [foldl_foldRow]
      rfl

/-- Under a key stand the accumulators of its group. -/
theorem getElem?_eval (tree : MergeTree (List Row)) : (q.evalTree json tree).groups[key]? =
    (q.groupOf json key tree).map fun g => q.aggregates.map g := by
  induction tree with
  | identity => exact Std.ExtTreeMap.getElem?_empty
  | part rows => exact getElem?_groupOfShard
  | merge left right ihl ihr =>
      change ((q.evalTree json left).merge (q.evalTree json right)).groups[key]? =
        ((q.groupOf json key left).merge _ (q.groupOf json key right)).map _
      rw [Partial.merge, BTreeMap.getElem?_absorb, ihl, ihr]
      cases q.groupOf json key left with
      | none => cases q.groupOf json key right <;> rfl
      | some f =>
          cases q.groupOf json key right with
          | none => rfl
          | some g => exact congrArg some (mergeAccs_map _ f g)

theorem groupOf_eq_none_iff :
    q.groupOf json key tree = none ↔ q.members json key tree.parts.flatten = [] := by
  induction tree with
  | identity => exact iff_of_true rfl rfl
  | part rows =>
      rw [MergeTree.parts, List.flatten_singleton]
      exact groupOfShard_eq_none_iff
  | merge left right ihl ihr =>
      rw [MergeTree.parts, List.flatten_append, members_append, List.append_eq_nil_iff, ← ihl,
        ← ihr]
      exact Option.merge_eq_none_iff

/-- What holds of the folded members of every shard and is kept by merging holds of the
group. -/
theorem groupOf_rule {agg : Agg} {R : List Row → Accum → Prop}
    (hfold : ∀ rows, R rows (agg.foldRows rows))
    (hmerge : ∀ xs ys a b, R xs a → R ys b → R (xs ++ ys) (a.merge b))
    (h : q.groupOf json key tree = some g) :
    R (q.members json key tree.parts.flatten) (g agg) := by
  induction tree generalizing g with
  | identity => cases h
  | part rows =>
      obtain ⟨_, rfl⟩ := groupOfShard_eq_some_iff.mp h
      rw [MergeTree.parts, List.flatten_singleton]
      exact hfold _
  | merge left right ihl ihr =>
      rw [MergeTree.parts, List.flatten_append, members_append]
      change (q.groupOf json key left).merge _ (q.groupOf json key right) = some g at h
      cases hleft : q.groupOf json key left with
      | none =>
          rw [hleft, Option.merge_none_left] at h
          rw [groupOf_eq_none_iff.mp hleft]
          exact ihr h
      | some f =>
          cases hright : q.groupOf json key right with
          | none =>
              rw [hleft, hright, Option.merge_none_right] at h
              rw [groupOf_eq_none_iff.mp hright, List.append_nil]
              exact ihl (hleft.trans h)
          | some f' =>
              rw [hleft, hright] at h
              cases h
              exact hmerge _ _ _ _ (ihl hleft) (ihr hright)

end Query

end CeQuery
