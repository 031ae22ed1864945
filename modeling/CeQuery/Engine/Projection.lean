import CeQuery.Engine.Run

/-!
# Projection runs

A projection has no reduce: the rows of each shard are appended in the order in
which the shards complete. A cap bounds the rows held at once. With a `LIMIT` and
no `ORDER BY` the cap is the limit and reaching it ends the collection;
otherwise every shard is collected, and ordering and limit are applied at the
end.
-/

namespace CeQuery

/-- What projecting one shard produced. -/
structure ProjectOutcome where
  shardCid : String
  servedBy : String
  rows : List Row
  attempts : Nat

/-- A completed projection run. -/
structure ProjectionReport where
  rows : List Row
  servedBy : BTreeMap String String
  totalAttempts : Nat
  truncated : Bool

section

variable (env : Externals) (host : MapHost) (config : RunConfig) (q : Query)

/-- The walk of `mapWalk` that stops at the first answer. -/
def projectWalk (shard : Shard) (candidates : Nat) (clock : Nat → Nat) :
    List String → Nat → Option MapError → Except RunError ProjectOutcome
  | [], attempts, lastErr =>
      if deadlinePassed config (clock attempts) then .error (.deadline shard.cid)
      else .error (.unserved shard.cid candidates lastErr)
  | hostId :: rest, attempts, lastErr =>
      if deadlinePassed config (clock attempts) then .error (.deadline shard.cid)
      else if attempts ≥ max config.maxAttemptsPerShard 1 then
        .error (.unserved shard.cid candidates lastErr)
      else
        match host.project hostId shard q with
        | .ok rows => .ok
            { shardCid := shard.cid
              servedBy := hostId
              rows
              attempts := attempts + 1 }
        | .error e => projectWalk shard candidates clock rest (attempts + 1) (some e)

/-- Project one shard. -/
def projectOneShard (clock : Nat → Nat) (task : ShardTask) : Except RunError ProjectOutcome :=
  projectWalk host config q task.shard task.rankedHosts.length clock task.rankedHosts 0 none

/-- Whether the collection may stop as soon as enough rows are there. -/
def canEarlyStop : Bool :=
  q.limit.isSome && q.orderBy.isEmpty

/-- The number of rows to truncate at during collection. -/
def collectCap : Option Nat :=
  let memCap :=
    if config.limits.maxResultGroups = 0 then none else some config.limits.maxResultGroups
  if canEarlyStop q then (q.limit.map fun n => n.val.toNat).or memCap else memCap

/-- Take the outcome of one shard into the collection. Leaving the loop carries
either the collection so far or the error of a shard. -/
def collect (clock : Nat → Nat → Nat) (acc : ProjectionReport) (task : Nat × ShardTask) :
    Except (Except RunError ProjectionReport) ProjectionReport :=
  match projectOneShard host config q (clock task.1) task.2 with
  | .error e => .error (.error e)
  | .ok outcome =>
      let acc : ProjectionReport :=
        { rows := acc.rows ++ outcome.rows
          servedBy := acc.servedBy.insert outcome.shardCid outcome.servedBy
          totalAttempts := acc.totalAttempts + outcome.attempts
          truncated := acc.truncated }
      match collectCap config q with
      | none => .ok acc
      | some cap =>
          if acc.rows.length ≥ cap then
            let acc :=
              { acc with
                truncated := acc.rows.length > cap || acc.truncated
                rows := acc.rows.take cap }
            if canEarlyStop q then .error (.ok acc) else .ok acc
          else .ok acc

def emptyProjection : ProjectionReport :=
  { rows := [], servedBy := ∅, totalAttempts := 0, truncated := false }

/-- Apply `ORDER BY` over all collected rows and then the final `LIMIT`. -/
def finishProjection (acc : ProjectionReport) : ProjectionReport :=
  let rows := orderRawRows acc.rows q.orderBy
  match q.limit with
  | some n =>
      if rows.length > n.val.toNat then
        { acc with truncated := true, rows := rows.take n.val.toNat }
      else { acc with rows }
  | none => { acc with rows }

/-- What `runProjection` does before the first task is started. -/
def projectionEntry (shards : List Shard) (hosts : List String) :
    Except (Exit ProjectionReport) (List Shard) :=
  match q.validate with
  | .error reason => .error (.error (.invalid reason))
  | .ok () =>
      if !q.isProjection then .error (.error .notProjection)
      else if shards.isEmpty then .error (.ok emptyProjection)
      else if hosts.isEmpty then .error (.error .noHosts)
      else
        match config.limits.checkScan env.overflowChecks shards with
        | none => .error .panic
        | some (.error e) => .error (.error (.cost e))
        | some (.ok ()) => .ok (liveShards q shards)

/-- The window of a projection run when its loop is entered. -/
def projectionWindow (live : List Shard) (hosts : List String) :
    Window (Nat × ShardTask) ProjectionReport :=
  .prime (max config.maxInFlight 1) (runTasks env live hosts) emptyProjection

/-- Execute a projection query, its tasks completing in the given order. -/
def runProjection (clock : Nat → Nat → Nat) (shards : List Shard) (hosts : List String)
    (order : List Nat) : Option (Exit ProjectionReport) :=
  match projectionEntry env config q shards hosts with
  | .error exit => some exit
  | .ok live =>
      match (projectionWindow env config live hosts).follow (collect host config q clock) order with
      | none => none
      | some (.error (.error e)) => some (.error e)
      | some (.error (.ok acc)) => some (.ok (finishProjection q acc))
      | some (.ok acc) => some (.ok (finishProjection q acc))

end

end CeQuery
