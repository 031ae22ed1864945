import CeQuery.Dataset
import CeQuery.Query.Predicate
import Mathlib.Data.List.Sort

/-!
# Planning

A shard is skipped when its statistics exclude every row the filter could
accept. The others are assigned to hosts by rendezvous hashing: the candidates
of a shard are ranked by a score of the pair, and the ranking is the order in
which they are tried.
-/

namespace CeQuery

/-- Can a shard with these statistics contain a row that the filter accepts? -/
def canMatch (stats : ShardStats) : Predicate → Bool
  | .true => true
  | .not _ => true
  | .or a b => canMatch stats a || canMatch stats b
  | .and a b => canMatch stats a && canMatch stats b
  | .cmp field op value =>
      match stats.numeric[field]? with
      | none => true
      | some (min, max) =>
          match asF64 value with
          | none => true
          | some v =>
              match op with
              | .gt => decide (v < max)
              | .ge => decide (v ≤ max)
              | .lt => decide (min < v)
              | .le => decide (min ≤ v)
              | .eq => decide (min ≤ v) && decide (v ≤ max)
              | .ne => true

/-- A shard without statistics is never skipped. -/
def shardCanMatch (stats : Option ShardStats) (predicate : Predicate) : Bool :=
  match stats with
  | none => true
  | some stats => canMatch stats predicate

/-- A planned unit of work: a shard and its candidate hosts, best first. The
host in turn is the head of the list; advancing to the next one drops it. -/
structure ShardTask where
  shard : Shard
  rankedHosts : List String

/-- Rank hosts by descending score, equal scores by host id. -/
def rankHosts (score : String → String → U64) (shardCid : String) (hosts : List String) :
    List String :=
  let scored := hosts.map fun h => ((score shardCid h).val, h)
  (scored.insertionSort fun a b =>
    (compare b.1 a.1).then (compare a.2 b.2) ≠ .gt).map (·.2)

/-- One task per shard, in shard order. -/
def plan (score : String → String → U64) (shards : List Shard) (hosts : List String) :
    List ShardTask :=
  shards.map fun s => { shard := s, rankedHosts := rankHosts score s.cid hosts }

/-- The host that is tried after `attempt` failures. -/
def fallbackHost (score : String → String → U64) (shardCid : String) (hosts : List String)
    (attempt : Nat) : Option String :=
  (rankHosts score shardCid hosts)[attempt]?

end CeQuery
