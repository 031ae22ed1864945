import CeQuery.Engine.Walk
import CeQuery.Foundation.Window

/-!
# The fan-out and the reduce of an aggregate run

The shards that statistics cannot rule out become tasks, worked off through a
bounded window. Each task fills the slot of its shard; when the window has
drained the filled slots are reduced in shard order. The first task that fails
ends the run.
-/

namespace CeQuery

section

variable (env : Externals) (host : MapHost) (config : RunConfig) (q : Query)

/-- The shards that may hold a row the filter accepts. -/
def liveShards (shards : List Shard) : List Shard :=
  shards.filter fun s => shardCanMatch s.stats q.predicate

/-- The tasks of a run with their slot numbers. -/
def runTasks (live : List Shard) (hosts : List String) : List (Nat × ShardTask) :=
  (plan env.score live hosts).zipIdx.map fun (task, idx) => (idx, task)

/-- Work of one task of the window: map the shard and fill its slot. The clock
of a task gives the elapsed time at each of its deadline checks. -/
def fillSlot (clock : Nat → Nat → Nat) (outcomes : List (Option ShardOutcome))
    (task : Nat × ShardTask) : Except RunError (List (Option ShardOutcome)) := do
  let outcome ← mapOneShard env host config q (clock task.1) task.2
  .ok (outcomes.set task.1 (some outcome))

/-- The report of a run that maps no shard. -/
def emptyReport : Exit RunReport :=
  match (Partial.empty q.aggregates).finalize env.toSerdeJson with
  | none => .panic
  | some rows => .ok
      { results := q.shape rows
        servedBy := ∅
        totalAttempts := 0
        redistributed := 0
        verified := 0 }

/-- Reduce the filled slots and finalise. -/
def runReport (outcomes : List (Option ShardOutcome)) : Exit RunReport :=
  let accepted := outcomes.filterMap id
  match (reduce q.aggregates (accepted.map (·.shardPartial))).finalize env.toSerdeJson with
  | none => .panic
  | some rows =>
      if config.limits.maxResultGroups ≠ 0 ∧ rows.length > config.limits.maxResultGroups then
        .error (.cost
          { what := "result groups"
            actual := rows.length
            limit := config.limits.maxResultGroups })
      else .ok
        { results := q.shape rows
          servedBy := accepted.foldl (fun served o => served.insert o.shardCid o.servedBy) ∅
          totalAttempts := (accepted.map (·.attempts)).sum
          redistributed := accepted.countP (·.redistributed)
          verified := accepted.countP (·.verified) }

/-- The window of a run when its loop is entered. -/
def runWindow (live : List Shard) (hosts : List String) :
    Window (Nat × ShardTask) (List (Option ShardOutcome)) :=
  .prime (max config.maxInFlight 1) (runTasks env live hosts) (List.replicate live.length none)

/-- What `run` does before the first task is started: either it is over, or it
has a nonempty list of shards to map. -/
def runEntry (shards : List Shard) (hosts : List String) : Except (Exit RunReport) (List Shard) :=
  match q.validate with
  | .error reason => .error (.error (.invalid reason))
  | .ok () =>
      if shards.isEmpty then .error (emptyReport env q)
      else if hosts.isEmpty then .error (.error .noHosts)
      else
        match config.limits.checkScan env.overflowChecks shards with
        | none => .error .panic
        | some (.error e) => .error (.error (.cost e))
        | some (.ok ()) =>
            if (liveShards q shards).isEmpty then .error (emptyReport env q)
            else .ok (liveShards q shards)

/-- Execute an aggregate query, its tasks completing in the given order. There
is no result when the order is not one of the loop. -/
def run (clock : Nat → Nat → Nat) (shards : List Shard) (hosts : List String)
    (order : List Nat) : Option (Exit RunReport) :=
  match runEntry env config q shards hosts with
  | .error exit => some exit
  | .ok live =>
      match (runWindow env config live hosts).follow (fillSlot env host config q clock) order with
      | none => none
      | some (.error e) => some (.error e)
      | some (.ok outcomes) => some (runReport env config q outcomes)

end

end CeQuery
