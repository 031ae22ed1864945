import CeQuery.Order
import CeQuery.Plan

/-!
# The vocabulary of a distributed run

Hosts are reached through `MapHost`, a response for each host and shard. The
other inputs of a run are its configuration and what the program takes from
outside: the JSON crate, the hash behind the rendezvous score, and whether the
build checks integer overflow.

A run ends in one of three ways: a report, an error, or a panic.
-/

namespace CeQuery

/-- Why a map attempt failed. -/
inductive MapError where
  | timeout
  | hostError (s : String)
  | missingBlob (s : String)
  | corrupt (s : String)
  deriving DecidableEq

def MapError.display : MapError → String
  | timeout => "timeout"
  | hostError s => "host error: " ++ s
  | missingBlob s => "missing blob: " ++ s
  | corrupt s => "corrupt result: " ++ s

/-- The hosts' side of a run: what a host answers for a shard of a query. -/
structure MapHost where
  map : String → Shard → Query → Except MapError Partial
  project : String → Shard → Query → Except MapError (List Row)

/-- What the engine takes from outside the program. -/
structure Externals extends SerdeJson where
  /-- The canonical JSON text of a partial; nothing when it cannot be printed. -/
  canonical : Partial → Option String
  /-- The rendezvous score of a shard and a host. -/
  score : String → String → U64
  /-- Whether the build panics when an integer addition overflows. -/
  overflowChecks : Bool

/-- An instance to evaluate the model with: canonical JSON of partials that count
all rows or hold a maximum that is not finite, and the scores of two shards on
three hosts, which are the first eight bytes of the SHA-256 digests of
`cid|host`. -/
def Externals.sample : Externals where
  toSerdeJson := .sample
  canonical p :=
    match p.aggregates, p.groups.toList with
    | [.count], [([], [.count n])] =>
        some ("\x7b\"aggregates\":[\"Count\"],\"groups\":[[[],[\x7b\"Count\":" ++ n.val.repr ++
          "\x7d]]]\x7d")
    | [.max f], [([], [.max m])] =>
        if m.any Float.isFinite then none
        else some ("\x7b\"aggregates\":[\x7b\"Max\":\"" ++ f ++
          "\"\x7d],\"groups\":[[[],[\x7b\"Max\":null\x7d]]]\x7d")
    | _, _ => none
  score
    | "s0", "host0" => ⟨14564403833004010224, by decide, by decide⟩
    | "s0", "host1" => ⟨5919962794763680109, by decide, by decide⟩
    | "s0", "host2" => ⟨6207534930002264917, by decide, by decide⟩
    | "s1", "host0" => ⟨13518439656345329811, by decide, by decide⟩
    | "s1", "host1" => ⟨419256620941587711, by decide, by decide⟩
    | "s1", "host2" => ⟨17100753222064312174, by decide, by decide⟩
    | _, _ => U64.zero
  overflowChecks := true

/-- Per-query cost ceilings; zero disables a bound. -/
structure CostLimits where
  maxScanBytes : U64
  maxScanRows : U64
  maxShards : Nat
  maxResultGroups : Nat

/-- A breach of a cost ceiling. -/
structure CostError where
  what : String
  actual : Int
  limit : Int
  deriving DecidableEq

/-- Tunables of a run. The deadline is in nanoseconds. -/
structure RunConfig where
  maxAttemptsPerShard : Nat
  maxInFlight : Nat
  redundancy : Nat
  quorum : Nat
  deadline : Option Nat
  limits : CostLimits

/-- Why redundant copies were refused. -/
inductive QuorumError where
  /-- No copies to verify. -/
  | noCopies
  /-- The largest agreeing group has `best` of `total` copies, fewer than needed. -/
  | disagreed (best total need : Nat)
  deriving DecidableEq

/-- Why a run failed. -/
inductive RunError where
  /-- The query failed validation. -/
  | invalid (reason : String)
  /-- There are no candidate hosts to run the query on. -/
  | noHosts
  /-- A projection run was asked for a query that is not a projection. -/
  | notProjection
  | cost (e : CostError)
  /-- The deadline passed while the shard was worked on. -/
  | deadline (shardCid : String)
  /-- The shard could not be served by any of its candidate hosts. -/
  | unserved (shardCid : String) (candidates : Nat) (lastErr : Option MapError)
  /-- The redundant copies of the shard could not be verified. -/
  | quorum (shardCid : String) (e : QuorumError)
  deriving DecidableEq

/-- How a run ends. -/
inductive Exit (α : Type u) where
  | ok (report : α)
  | error (e : RunError)
  | panic

/-- A completed run: the output rows, which host served each shard, and counts
of attempts, shards that failed over, and verified shards. -/
structure RunReport where
  results : List GroupResult
  servedBy : BTreeMap String String
  totalAttempts : Nat
  redistributed : Nat
  verified : Nat

/-- The sum of unsigned integers as the build computes it: an overflow panics or
wraps around. -/
def sumU64 (overflowChecks : Bool) (ns : List U64) : Option U64 :=
  ns.foldlM (fun (sum : U64) n =>
    match sum.checkedAdd n with
    | some total => some total
    | none => if overflowChecks then none else some (U64.wrap (sum.val + n.val))) U64.zero

/-- Check the declared cost of a dataset and report the first bound exceeded;
nothing when computing the cost panics. -/
def CostLimits.checkScan (overflowChecks : Bool) (limits : CostLimits) (shards : List Shard) :
    Option (Except CostError Unit) :=
  if limits.maxShards ≠ 0 ∧ shards.length > limits.maxShards then
    some (.error { what := "shards", actual := shards.length, limit := limits.maxShards })
  else do
    if limits.maxScanRows.val ≠ 0 then
      let rows ← sumU64 overflowChecks (shards.map (·.rows))
      if rows.val > limits.maxScanRows.val then
        return .error
          { what := "rows scanned", actual := rows.val, limit := limits.maxScanRows.val }
    if limits.maxScanBytes.val ≠ 0 then
      let bytes ← sumU64 overflowChecks (shards.map (·.bytes))
      if bytes.val > limits.maxScanBytes.val then
        return .error
          { what := "bytes scanned", actual := bytes.val, limit := limits.maxScanBytes.val }
    return .ok ()

end CeQuery
