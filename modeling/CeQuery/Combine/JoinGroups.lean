import CeQuery.Combine.Definite
import CeQuery.Join

/-!
# Grouping joined rows

The result of a join is a list of rows, and an aggregate query can go on from there: on
each pair of buckets where it was joined, or on the joined rows in new shards. Either way
it answers what it answers on the rows of the plain join.
-/

namespace CeQuery

/-- However the rows of the distributed join are put into shards and merged, the groups
are those of the hash join, and the same output rows if the aggregates are definite. -/
theorem joinGroups (json : SerdeJson) (bucketHash : String → U64) (left right : List Row)
    (keys : JoinKeys) (partitions : Nat) (q : Query) (tree : MergeTree (List Row))
    (hdist : tree.parts.flatten.Perm
      (distributedJoin json bucketHash left right keys partitions)) :
    (q.ExactSums (hashJoin json left right keys) →
      q.Reference json (hashJoin json left right keys) (q.evalTree json tree)) ∧
    (q.Definite json (hashJoin json left right keys) →
      (q.evalTree json tree).finalize json =
        (q.mapShard json (hashJoin json left right keys)).finalize json) := by
  have hjoined : tree.parts.flatten.Perm (hashJoin json left right keys) := by
    apply hdist.trans
    rw [distributedJoin_eq, hashJoin_eq_loopJoin]
    apply nestedJoin_buckets_perm
    · exact List.nodup_range
    · intro k
      exact List.mem_range.mpr (Nat.mod_lt _ (by omega))
  constructor
  · intro hexact
    exact Query.reference_eval hexact tree hjoined
  · intro hdefinite
    have hpart : (MergeTree.part (hashJoin json left right keys)).parts.flatten.Perm
        (hashJoin json left right keys) := by
      rw [MergeTree.parts, List.flatten_singleton]
    exact Query.finalize_definite hjoined hpart hdefinite

/-! ## Counting pairs -/

private def pairCount : Query where
  dataset := "pairs"
  aggregates := [.count]
  predicate := .true
  groupBy := ["uid"]
  orderBy := []
  limit := none
  projection := none

private def keyed (uid : String) : Row :=
  (∅ : Row).insert "uid" (.string uid)

/-- Two users, one with two orders, in two buckets that are merged in the other order. -/
theorem joinGroups_two_users :
    (pairCount.evalTree .sample (.merge (.part [mergeRows (keyed "bb") (keyed "bb")])
        (.part (List.replicate 2 (mergeRows (keyed "a") (keyed "a")))))).finalize .sample =
      (pairCount.mapShard .sample (hashJoin .sample [keyed "a", keyed "bb"]
        [keyed "a", keyed "bb", keyed "a"]
        { left := "uid", right := "uid" })).finalize .sample := by
  refine (joinGroups .sample (fun k => U64.wrap k.length) [keyed "a", keyed "bb"]
    [keyed "a", keyed "bb", keyed "a"] { left := "uid", right := "uid" } 2 pairCount _ ?_).2 ?_
  · have hjoin : distributedJoin .sample (fun k => U64.wrap k.length) [keyed "a", keyed "bb"]
        [keyed "a", keyed "bb", keyed "a"] { left := "uid", right := "uid" } 2 =
          [mergeRows (keyed "bb") (keyed "bb")] ++
            List.replicate 2 (mergeRows (keyed "a") (keyed "a")) := rfl
    rw [hjoin]
    exact .refl _
  · intro agg hagg key
    cases List.mem_singleton.mp hagg
    trivial

end CeQuery
