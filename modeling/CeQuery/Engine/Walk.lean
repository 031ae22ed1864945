import CeQuery.Engine.Basic

/-!
# Serving one shard

A shard is offered to its candidate hosts in the order of their ranking until
enough of them have answered. A host that fails is skipped; the walk ends at the
attempt cap, at the end of the ranking, or when the deadline has passed before
an attempt. Redundant copies are compared in their canonical JSON form.
-/

namespace CeQuery

/-- What mapping one shard produced. -/
structure ShardOutcome where
  shardCid : String
  servedBy : String
  shardPartial : Partial
  attempts : Nat
  redistributed : Bool
  verified : Bool

/-- The state of the walk over the candidate hosts. -/
structure Walk where
  attempts : Nat
  lastErr : Option MapError
  copies : List (String × Partial)
  firstHost : Option String

namespace Walk

def init : Walk :=
  { attempts := 0, lastErr := none, copies := [], firstHost := none }

/-- The walk after a host has answered. -/
def accept (w : Walk) (hostId : String) (p : Partial) : Walk where
  attempts := w.attempts + 1
  lastErr := none
  copies := w.copies ++ [(hostId, p)]
  firstHost := w.firstHost.or (some hostId)

/-- The walk after a host has failed. -/
def fail (w : Walk) (e : MapError) : Walk :=
  { w with attempts := w.attempts + 1, lastErr := some e }

section

variable (w : Walk) (hostId : String) (p : Partial) (e : MapError)

@[simp] theorem accept_attempts : (w.accept hostId p).attempts = w.attempts + 1 := rfl
@[simp] theorem accept_copies : (w.accept hostId p).copies = w.copies ++ [(hostId, p)] := rfl
@[simp] theorem accept_firstHost :
    (w.accept hostId p).firstHost = w.firstHost.or (some hostId) := rfl
@[simp] theorem fail_attempts : (w.fail e).attempts = w.attempts + 1 := rfl
@[simp] theorem fail_copies : (w.fail e).copies = w.copies := rfl
@[simp] theorem fail_firstHost : (w.fail e).firstHost = w.firstHost := rfl

end

end Walk

/-- The overall deadline check between attempts. -/
def deadlinePassed (config : RunConfig) (elapsed : Nat) : Bool :=
  config.deadline.any fun deadline => deadline ≤ elapsed

section MapOneShard

variable (host : MapHost) (config : RunConfig) (q : Query) (shard : Shard)

/-- The loop of `mapOneShard` over the hosts from the one in turn on. `clock n`
is the elapsed time read before the attempt after the `n`-th. -/
def mapWalk (clock : Nat → Nat) : List String → Walk → Except RunError Walk
  | [], w =>
      if deadlinePassed config (clock w.attempts) then .error (.deadline shard.cid)
      else .ok w
  | hostId :: rest, w =>
      if deadlinePassed config (clock w.attempts) then .error (.deadline shard.cid)
      else if w.attempts ≥ max config.maxAttemptsPerShard 1 then .ok w
      else
        match host.map hostId shard q with
        | .ok p =>
            -- best-effort redundancy: without a further host the copies at hand are accepted
            if w.copies.length + 1 ≥ max config.redundancy 1 ∨ rest.isEmpty then
              .ok (w.accept hostId p)
            else mapWalk clock rest (w.accept hostId p)
        | .error e => mapWalk clock rest (w.fail e)

end MapOneShard

/-- The greatest element; of several equally great ones the last. -/
def maxBy (cmp : α → α → Ordering) : List α → Option α
  | [] => none
  | a :: as => some (as.foldl (fun best x => if cmp best x = .gt then best else x) a)

/-- A set of agreeing copies: how many there are, the position of the first one,
and that copy. -/
structure Agreement where
  count : Nat
  firstSeen : Nat
  copy : Partial

/-- Group the copies by their canonical form. A copy that cannot be printed gets
a key of its own. -/
def groupCopies (canonical : Partial → Option String) (copies : List (String × Partial)) :
    BTreeMap String Agreement :=
  copies.zipIdx.foldl (fun groups (copy, i) =>
    let key := (canonical copy.2).getD ("<unserializable " ++ toString i ++ ">")
    groups.upsert key { count := 0, firstSeen := i, copy := copy.2 }
      fun entry => { entry with count := entry.count + 1 }) ∅

/-- How many of the collected copies have to agree: the quorum, capped to the
number of copies, and all of them when no quorum is set. -/
def quorumNeed (collected quorum : Nat) : Nat :=
  if quorum = 0 then collected else min quorum collected

/-- The largest group of equal copies, the one seen first among equally large
groups. -/
def bestAgreement (groups : BTreeMap String Agreement) : Option Agreement :=
  maxBy (fun a b => (compare a.count b.count).then (compare b.firstSeen a.firstSeen))
    (groups.toList.map (·.2))

/-- Choose the agreed partial: the one of the best group, if it meets the quorum. -/
def selectQuorum (canonical : Partial → Option String) (copies : List (String × Partial))
    (quorum : Nat) : Except QuorumError Partial :=
  if copies.isEmpty then .error .noCopies
  else
    match bestAgreement (groupCopies canonical copies) with
    | some group =>
        if group.count ≥ quorumNeed copies.length quorum then .ok group.copy
        else .error (.disagreed group.count copies.length (quorumNeed copies.length quorum))
    | none => .error .noCopies

/-- Map one shard: walk its ranking, then verify redundant copies. -/
def mapOneShard (env : Externals) (host : MapHost) (config : RunConfig) (q : Query)
    (clock : Nat → Nat) (task : ShardTask) : Except RunError ShardOutcome := do
  let w ← mapWalk host config q task.shard clock task.rankedHosts .init
  match w.copies with
  | [] => .error (.unserved task.shard.cid task.rankedHosts.length w.lastErr)
  | first :: _ =>
      let verified := max config.redundancy 1 > 1 && w.copies.length > 1
      let chosen ←
        if verified then
          (selectQuorum env.canonical w.copies config.quorum).mapError (.quorum task.shard.cid)
        else .ok first.2
      .ok
        { shardCid := task.shard.cid
          servedBy := w.firstHost.getD first.1
          shardPartial := chosen
          attempts := w.attempts
          redistributed := w.attempts > w.copies.length
          verified }

end CeQuery
