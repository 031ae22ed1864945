import CeQuery.Value

/-!
# Datasets, shards and shard statistics

A dataset is metadata: a name, a column list, and the ordered descriptors of its
shards. A descriptor may carry the least and the greatest number of each fully
numeric column, which the planner uses to skip shards.
-/

namespace CeQuery

/-- Per column the least and the greatest number in a shard. -/
structure ShardStats where
  numeric : BTreeMap String (F64 × F64)

/-- A shard's descriptor. The counts are zero when they are not known. -/
structure Shard where
  cid : String
  rows : U64
  bytes : U64
  stats : Option ShardStats

structure Dataset where
  name : String
  schema : List String
  shards : List Shard

/-- The state of the statistics loop: the columns that are numeric so far and
those that have shown a cell that is not. -/
structure StatsScan where
  numeric : BTreeMap String (F64 × F64)
  disqualified : Std.ExtTreeSet String compare

namespace StatsScan

/-- Take one cell into account. -/
def cell (s : StatsScan) (col : String) (val : Value) : StatsScan :=
  if s.disqualified.contains col then s
  else
    match asF64 val with
    | some v =>
        { s with
          numeric := s.numeric.upsert col (v, v) fun e => (F64.minNum e.1 v, F64.maxNum e.2 v) }
    | none =>
        { numeric := s.numeric.erase col
          disqualified := s.disqualified.insert col }

def row (s : StatsScan) (r : Row) : StatsScan :=
  r.foldl cell s

end StatsScan

/-- Minimum and maximum of every column that is present with numbers only. -/
def computeStats (rows : List Row) : ShardStats :=
  { numeric := (rows.foldl StatsScan.row { numeric := ∅, disqualified := ∅ }).numeric }

end CeQuery
