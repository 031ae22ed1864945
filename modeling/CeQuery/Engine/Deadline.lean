import CeQuery.Engine.RunOrder
import CeQuery.Engine.Collection
import CeQuery.Foundation.Failover

/-!
# Answers after the deadline

A walk checks the deadline before each attempt, and returns with the reply that
completes its shard without a further check. Such a reply may come at any time.

`run_deadline_iff` states that no call is started after the
deadline, and that a run that reports has no reply from after it exactly if the calls
that complete its shards are answered before it.
-/

namespace CeQuery

section Walks

variable (host : MapHost) (config : RunConfig) (q : Query) (shard : Shard)

/-- A walk with one more call before it. -/
def record (attempt : Attempt) (walk : List Attempt × α) : List Attempt × α :=
  (attempt :: walk.1, walk.2)

/-- The walk `mapWalk` with the calls that it makes. -/
def mapWalkCalls (clock : Nat → Nat) :
    List String → Walk → List Attempt × Except RunError Walk
  | [], w =>
      if deadlinePassed config (clock w.attempts) then ([], .error (.deadline shard.cid))
      else ([], .ok w)
  | hostId :: rest, w =>
      if deadlinePassed config (clock w.attempts) then ([], .error (.deadline shard.cid))
      else if w.attempts ≥ max config.maxAttemptsPerShard 1 then ([], .ok w)
      else
        match host.map hostId shard q with
        | .ok p =>
            if w.copies.length + 1 ≥ max config.redundancy 1 ∨ rest.isEmpty then
              ([⟨w.attempts, true⟩], .ok (w.accept hostId p))
            else record ⟨w.attempts, true⟩ (mapWalkCalls clock rest (w.accept hostId p))
        | .error e => record ⟨w.attempts, false⟩ (mapWalkCalls clock rest (w.fail e))

/-- The walk `projectWalk` with the calls that it makes. -/
def projectWalkCalls (candidates : Nat) (clock : Nat → Nat) :
    List String → Nat → Option MapError → List Attempt × Except RunError ProjectOutcome
  | [], attempts, lastErr =>
      if deadlinePassed config (clock attempts) then ([], .error (.deadline shard.cid))
      else ([], .error (.unserved shard.cid candidates lastErr))
  | hostId :: rest, attempts, lastErr =>
      if deadlinePassed config (clock attempts) then ([], .error (.deadline shard.cid))
      else if attempts ≥ max config.maxAttemptsPerShard 1 then
        ([], .error (.unserved shard.cid candidates lastErr))
      else
        match host.project hostId shard q with
        | .ok rows =>
            ([⟨attempts, true⟩], .ok
              { shardCid := shard.cid
                servedBy := hostId
                rows
                attempts := attempts + 1 })
        | .error e =>
            record ⟨attempts, false⟩
              (projectWalkCalls candidates clock rest (attempts + 1) (some e))

/-- Whether a host answers for the shard. -/
def mapAnswers (hostId : String) : Bool :=
  (host.map hostId shard q).toOption.isSome

def projectAnswers (hostId : String) : Bool :=
  (host.project hostId shard q).toOption.isSome

end Walks

section Refinement

variable {host : MapHost} {config : RunConfig} {q : Query} {shard : Shard} {clock : Nat → Nat}
variable {hosts tried : List String} {candidates : Nat}

@[simp] theorem mapWalkCalls_snd (w : Walk) :
    (mapWalkCalls host config q shard clock hosts w).2 =
      mapWalk host config q shard clock hosts w := by
  induction hosts generalizing w with
  | nil =>
      rw [mapWalkCalls, mapWalk]
      split <;> rfl
  | cons hostId rest ih =>
      rw [mapWalkCalls, mapWalk]
      split
      · rfl
      · split
        · rfl
        · cases host.map hostId shard q with
          | ok p =>
              change (ite _ _ _ : List Attempt × Except RunError Walk).2 = ite _ _ _
              split
              · rfl
              · exact ih _
          | error e => exact ih _

@[simp] theorem projectWalkCalls_snd (attempts : Nat) (lastErr : Option MapError) :
    (projectWalkCalls host config q shard candidates clock hosts attempts lastErr).2 =
      projectWalk host config q shard candidates clock hosts attempts lastErr := by
  induction hosts generalizing attempts lastErr with
  | nil =>
      rw [projectWalkCalls, projectWalk]
      split <;> rfl
  | cons hostId rest ih =>
      rw [projectWalkCalls, projectWalk]
      split
      · rfl
      · split
        · rfl
        · cases host.project hostId shard q with
          | ok rows => rfl
          | error e => exact ih _ _

/-- The walk makes the calls of the loop, and ends with an error if the loop ends late. -/
structure Follows (walk : List Attempt × Except RunError α) (loop : Failover) : Prop where
  attempts : walk.1 = loop.attempts
  ok : ∀ a, walk.2 = .ok a → loop.late = false

theorem Follows.record {walk : List Attempt × Except RunError α} {loop : Failover}
    (h : Follows walk loop) (attempt : Attempt) :
    Follows (record attempt walk) (loop.after attempt) where
  attempts := congrArg (attempt :: ·) h.attempts
  ok := h.ok

theorem follows_late (e : RunError) :
    Follows (([], .error e) : List Attempt × Except RunError α)
      { attempts := [], late := true } where
  attempts := rfl
  ok _ := nofun

theorem follows_end (calls : List Attempt) (r : Except RunError α) :
    Follows (calls, r) { attempts := calls, late := false } where
  attempts := rfl
  ok _ _ := rfl

/-- Without further candidates a walk only looks at the clock. -/
theorem follows_exhausted {late : Bool} (e : RunError) (r : Except RunError α) :
    Follows (if late then ([], .error e) else ([], r)) { attempts := [], late } := by
  cases late with
  | false => exact follows_end _ _
  | true => exact follows_late _

/-- The loop that the walk of `mapOneShard` is. -/
def mapFailover (host : MapHost) (config : RunConfig) (q : Query) (shard : Shard)
    (clock : Nat → Nat) : List String → List String → Failover :=
  Failover.run (mapAnswers host q shard) (fun n => deadlinePassed config (clock n))
    (max config.maxAttemptsPerShard 1) (max config.redundancy 1)

/-- The loop that the walk of `projectOneShard` is. -/
def projectFailover (host : MapHost) (config : RunConfig) (q : Query) (shard : Shard)
    (clock : Nat → Nat) : List String → List String → Failover :=
  Failover.run (projectAnswers host q shard) (fun n => deadlinePassed config (clock n))
    (max config.maxAttemptsPerShard 1) 1

theorem mapWalkCalls_follows (w : Walk) (hattempts : w.attempts = tried.length)
    (hcopies : w.copies.length = tried.countP (mapAnswers host q shard)) :
    Follows (mapWalkCalls host config q shard clock hosts w)
      (mapFailover host config q shard clock tried hosts) := by
  induction hosts generalizing w tried with
  | nil =>
      rw [mapWalkCalls, mapFailover, Failover.run, hattempts]
      exact follows_exhausted _ _
  | cons hostId rest ih =>
      have hlength : w.attempts + 1 = (tried ++ [hostId]).length := by
        rw [hattempts, List.length_append]
        rfl
      have hcount : (tried ++ [hostId]).countP (mapAnswers host q shard) =
          w.copies.length + if mapAnswers host q shard hostId then 1 else 0 := by
        rw [List.countP_append, List.countP_singleton, hcopies]
      rw [mapWalkCalls, mapFailover, Failover.run, hattempts]
      split
      · exact follows_late _
      · split
        · exact follows_end _ _
        · cases hreply : host.map hostId shard q with
          | ok p =>
              have hanswers : mapAnswers host q shard hostId = true := by
                rw [mapAnswers, hreply]
                rfl
              rw [hanswers, if_pos rfl] at hcount
              simp only [Failover.Stops, hanswers, true_and, ← hcopies]
              split
              · exact follows_end _ _
              · refine Follows.record (ih (w.accept hostId p) hlength ?_) _
                rw [hcount, Walk.accept_copies, List.length_append]
                rfl
          | error e =>
              have hanswers : mapAnswers host q shard hostId = false := by
                rw [mapAnswers, hreply]
                rfl
              rw [hanswers] at hcount
              simp only [Failover.Stops, hanswers, Bool.false_eq_true, false_and, if_false]
              exact Follows.record (ih (w.fail e) hlength hcount.symm) _

theorem projectWalkCalls_follows (attempts : Nat) (lastErr : Option MapError)
    (hattempts : attempts = tried.length)
    (hnone : tried.countP (projectAnswers host q shard) = 0) :
    Follows (projectWalkCalls host config q shard candidates clock hosts attempts lastErr)
      (projectFailover host config q shard clock tried hosts) := by
  induction hosts generalizing tried attempts lastErr with
  | nil =>
      rw [projectWalkCalls, projectFailover, Failover.run, hattempts]
      exact follows_exhausted _ _
  | cons hostId rest ih =>
      have hlength : attempts + 1 = (tried ++ [hostId]).length := by
        rw [hattempts, List.length_append]
        rfl
      rw [projectWalkCalls, projectFailover, Failover.run, hattempts]
      split
      · exact follows_late _
      · split
        · exact follows_end _ _
        · cases hreply : host.project hostId shard q with
          | ok rows =>
              have hanswers : projectAnswers host q shard hostId = true := by
                rw [projectAnswers, hreply]
                rfl
              rw [if_pos ⟨hanswers, .inl (Nat.le_add_left _ _)⟩]
              exact follows_end _ _
          | error e =>
              have hanswers : projectAnswers host q shard hostId = false := by
                rw [projectAnswers, hreply]
                rfl
              simp only [Failover.Stops, hanswers, Bool.false_eq_true, false_and, if_false]
              refine Follows.record (ih _ (some e) (hattempts ▸ hlength) ?_) _
              rw [List.countP_append, List.countP_singleton, hnone, hanswers]
              rfl

end Refinement

/-! ## Tasks -/

section Tasks

variable {env : Externals} {host : MapHost} {config : RunConfig} {q : Query}
variable {clock arrival : Nat → Nat} {deadline : Nat} {task : ShardTask} {attempt : Attempt}

/-- The calls of hosts that mapping a shard makes. -/
def mapCalls (host : MapHost) (config : RunConfig) (q : Query) (clock : Nat → Nat)
    (task : ShardTask) : List Attempt :=
  (mapWalkCalls host config q task.shard clock task.rankedHosts .init).1

/-- The calls of hosts that projecting a shard makes. -/
def projectCalls (host : MapHost) (config : RunConfig) (q : Query) (clock : Nat → Nat)
    (task : ShardTask) : List Attempt :=
  (projectWalkCalls host config q task.shard task.rankedHosts.length clock task.rankedHosts 0
    none).1

/-- The call after `n` others brings the last copy of the shard that is needed, or the
last one that can be had. -/
def MapCompletes (host : MapHost) (config : RunConfig) (q : Query) (task : ShardTask) :
    Nat → Prop :=
  Failover.Completes (mapAnswers host q task.shard) (max config.maxAttemptsPerShard 1)
    (max config.redundancy 1) task.rankedHosts

/-- The call after `n` others brings the rows of the shard. -/
def ProjectCompletes (host : MapHost) (config : RunConfig) (q : Query) (task : ShardTask) :
    Nat → Prop :=
  Failover.Completes (projectAnswers host q task.shard) (max config.maxAttemptsPerShard 1) 1
    task.rankedHosts

theorem mapOneShard_follows : Follows
    (mapWalkCalls host config q task.shard clock task.rankedHosts .init)
    (mapFailover host config q task.shard clock [] task.rankedHosts) :=
  mapWalkCalls_follows .init rfl rfl

theorem projectOneShard_follows : Follows
    (projectWalkCalls host config q task.shard task.rankedHosts.length clock task.rankedHosts 0
      none)
    (projectFailover host config q task.shard clock [] task.rankedHosts) :=
  projectWalkCalls_follows 0 none rfl rfl

theorem deadlinePassed_eq (hdeadline : config.deadline = some deadline) :
    (fun n => deadlinePassed config (clock n)) = fun n => decide (deadline ≤ clock n) := by
  funext n
  rw [deadlinePassed, hdeadline]
  rfl

/-- No call is started after the deadline. -/
theorem mapCalls_in_time (hdeadline : config.deadline = some deadline)
    (h : attempt ∈ mapCalls host config q clock task) : clock attempt.index < deadline := by
  rw [mapCalls, mapOneShard_follows.attempts, mapFailover, deadlinePassed_eq hdeadline] at h
  simpa using Failover.started_in_time h

theorem projectCalls_in_time (hdeadline : config.deadline = some deadline)
    (h : attempt ∈ projectCalls host config q clock task) : clock attempt.index < deadline := by
  rw [projectCalls, projectOneShard_follows.attempts, projectFailover,
    deadlinePassed_eq hdeadline] at h
  simpa using Failover.started_in_time h

theorem mapOneShard_walk {o : ShardOutcome} (h : mapOneShard env host config q clock task = .ok o) :
    ∃ w, mapWalk host config q task.shard clock task.rankedHosts .init = .ok w := by
  rw [mapOneShard] at h
  cases hwalk : mapWalk host config q task.shard clock task.rankedHosts .init with
  | error e =>
      rw [hwalk] at h
      cases h
  | ok w => exact ⟨w, rfl⟩

/-- The copies of a shard arrive before the deadline exactly if the last one does. -/
theorem mapCalls_answered_iff {o : ShardOutcome} (hdeadline : config.deadline = some deadline)
    (htimed : Timed clock arrival) (h : mapOneShard env host config q clock task = .ok o) :
    (∀ attempt ∈ mapCalls host config q clock task, attempt.answered = true →
        arrival attempt.index < deadline) ↔
      ∀ n, MapCompletes host config q task n → clock n < deadline → arrival n < deadline := by
  obtain ⟨w, hwalk⟩ := mapOneShard_walk h
  have hlate := mapOneShard_follows.ok w ((mapWalkCalls_snd .init).trans hwalk)
  rw [mapCalls, mapOneShard_follows.attempts]
  rw [mapFailover, deadlinePassed_eq hdeadline] at hlate ⊢
  exact Failover.answered_in_time_iff htimed (by omega) hlate

theorem projectCalls_answered_iff {o : ProjectOutcome} (hdeadline : config.deadline = some deadline)
    (htimed : Timed clock arrival) (h : projectOneShard host config q clock task = .ok o) :
    (∀ attempt ∈ projectCalls host config q clock task, attempt.answered = true →
        arrival attempt.index < deadline) ↔
      ∀ n, ProjectCompletes host config q task n → clock n < deadline → arrival n < deadline := by
  have hlate := projectOneShard_follows.ok o ((projectWalkCalls_snd 0 none).trans h)
  rw [projectCalls, projectOneShard_follows.attempts]
  rw [projectFailover, deadlinePassed_eq hdeadline] at hlate ⊢
  exact Failover.answered_in_time_iff htimed Nat.one_pos hlate

end Tasks

/-! ## Runs -/

/-- Every reply that is accepted from the tasks arrives before the deadline. -/
def AcceptedBefore (deadline : Nat) (arrival : Nat → Nat → Nat)
    (calls : Nat × ShardTask → List Attempt) (tasks : List (Nat × ShardTask)) : Prop :=
  ∀ task ∈ tasks, ∀ attempt ∈ calls task, attempt.answered = true →
    arrival task.1 attempt.index < deadline

/-- Calls that complete the tasks are answered before the deadline if they are started
before it. -/
def CompletedBefore (deadline : Nat) (clock arrival : Nat → Nat → Nat)
    (completes : ShardTask → Nat → Prop) (tasks : List (Nat × ShardTask)) : Prop :=
  ∀ task ∈ tasks, ∀ n, completes task.2 n → clock task.1 n < deadline →
    arrival task.1 n < deadline

section Runs

variable {env : Externals} {host : MapHost} {config : RunConfig} {q : Query}
variable {clock arrival : Nat → Nat → Nat} {deadline : Nat} {shards : List Shard}
variable {hosts : List String} {order : List Nat}

/-- The tasks whose rows a projection run collects, in the order of their completion. -/
def collectedTasks (env : Externals) (host : MapHost) (config : RunConfig) (q : Query)
    (clock : Nat → Nat → Nat) (shards : List Shard) (hosts : List String) (order : List Nat) :
    List (Nat × ShardTask) :=
  (projectionWindow env config (liveShards q shards) hosts).taken
    (collect host config q clock) order

/-- A reported result maps each of its shards. -/
theorem run_served {report : RunReport}
    (hrun : run env host config q clock shards hosts order = some (.ok report)) :
    ∀ task ∈ runTasks env (liveShards q shards) hosts,
      ∃ o, mapOneShard env host config q (clock task.1) task.2 = .ok o := by
  obtain ⟨outcomes, _, hall, _⟩ := run_outcomes hrun
  intro task htask
  obtain ⟨o, _, ho⟩ := Codec.exists_mem_of_forall₂ hall htask
  exact ⟨o, ho⟩

theorem foldlM_collect_served {finished : List (Nat × ShardTask)} {acc acc' : ProjectionReport}
    (h : finished.foldlM (collect host config q clock) acc = .ok acc') :
    ∀ task ∈ finished, ∃ o, projectOneShard host config q (clock task.1) task.2 = .ok o := by
  induction finished generalizing acc with
  | nil => exact fun _ => nofun
  | cons first finished ih =>
      obtain ⟨acc₁, hfirst, hothers⟩ := foldlM_cons_ok_iff.mp h
      rw [List.forall_mem_cons]
      exact ⟨collect_served hfirst (by simp), ih hothers⟩

/-- A reported projection has projected the shards that it collected. -/
theorem runProjection_served {report : ProjectionReport}
    (hrun : runProjection env host config q clock shards hosts order = some (.ok report)) :
    ∀ task ∈ collectedTasks env host config q clock shards hosts order,
      ∃ o, projectOneShard host config q (clock task.1) task.2 = .ok o := by
  rw [runProjection] at hrun
  obtain ⟨e, hentry⟩ | hentry | ⟨rfl, _⟩ | hentry := projectionEntry_cases
    (rfl : projectionEntry env config q shards hosts = _)
  · rw [hentry] at hrun
    cases hrun
  · rw [hentry] at hrun
    cases hrun
  · intro task htask
    have hnone : collectedTasks env host config q clock [] hosts order = [] :=
      Window.taken_prime_nil _ _ _ _
    rw [hnone] at htask
    cases htask
  · rw [hentry] at hrun
    simp only at hrun
    have hwidth : 0 < max config.maxInFlight 1 := by omega
    split at hrun
    · cases hrun
    · cases hrun
    · rename_i hfollow
      obtain ⟨finished, task, rest, acc, htaken, _, hfold, hleft⟩ :=
        Window.interrupted_taken hfollow
      have hcollected : collectedTasks env host config q clock shards hosts order =
          finished ++ [task] := htaken
      rw [hcollected, List.forall_mem_append, List.forall_mem_singleton]
      exact ⟨foldlM_collect_served hfold, collect_served hleft (by simp)⟩
    · rename_i hfollow
      exact foldlM_collect_served (Window.drained_taken hwidth hfollow).2

/-- No host is called after the deadline, and a run that reports has accepted no reply
from after the deadline exactly if the calls that completed its shards were answered
before it. -/
theorem run_deadline_iff (hdeadline : config.deadline = some deadline)
    (htimed : ∀ slot, Timed (clock slot) (arrival slot)) :
    (∀ task ∈ runTasks env (liveShards q shards) hosts,
      (∀ attempt ∈ mapCalls host config q (clock task.1) task.2,
        clock task.1 attempt.index < deadline) ∧
      ∀ attempt ∈ projectCalls host config q (clock task.1) task.2,
        clock task.1 attempt.index < deadline) ∧
    (∀ report, run env host config q clock shards hosts order = some (.ok report) →
      (AcceptedBefore deadline arrival (fun task => mapCalls host config q (clock task.1) task.2)
          (runTasks env (liveShards q shards) hosts) ↔
        CompletedBefore deadline clock arrival (MapCompletes host config q)
          (runTasks env (liveShards q shards) hosts))) ∧
    ∀ report, runProjection env host config q clock shards hosts order = some (.ok report) →
      (AcceptedBefore deadline arrival
          (fun task => projectCalls host config q (clock task.1) task.2)
          (collectedTasks env host config q clock shards hosts order) ↔
        CompletedBefore deadline clock arrival (ProjectCompletes host config q)
          (collectedTasks env host config q clock shards hosts order)) := by
  refine ⟨?_, ?_, ?_⟩
  · exact fun _ _ => ⟨fun _ => mapCalls_in_time hdeadline, fun _ => projectCalls_in_time hdeadline⟩
  · intro report hrun
    refine forall₂_congr fun task htask => ?_
    obtain ⟨o, ho⟩ := run_served hrun task htask
    exact mapCalls_answered_iff hdeadline (htimed task.1) ho
  · intro report hrun
    refine forall₂_congr fun task htask => ?_
    obtain ⟨o, ho⟩ := runProjection_served hrun task htask
    exact projectCalls_answered_iff hdeadline (htimed task.1) ho

/-! One shard on one host, and a deadline of ten. -/

private def totalQuery : Query where
  dataset := "t"
  aggregates := [.count]
  predicate := .true
  groupBy := []
  orderBy := []
  limit := none
  projection := none

private def steadyHost : MapHost where
  map _ _ _ := .ok
    { aggregates := [.count]
      groups := Std.ExtTreeMap.insert ∅ [] [Accum.count U64.one] }
  project _ _ _ := .error .timeout

private def loneShards : List Shard :=
  [{ cid := "s0", rows := U64.one, bytes := U64.zero, stats := none }]

private def withinTen : RunConfig :=
  { RunConfig.twoAtATime with deadline := some 10 }

/-- Each call takes one. -/
theorem run_deadline_iff_prompt : ∃ report,
    run .sample steadyHost withinTen totalQuery (fun _ n => n) loneShards ["host0"] [0] =
        some (.ok report) ∧
      AcceptedBefore 10 (fun _ n => n + 1)
        (fun task => mapCalls steadyHost withinTen totalQuery (fun n => n) task.2)
        (runTasks .sample (liveShards totalQuery loneShards) ["host0"]) := by
  obtain ⟨report, hrun⟩ : ∃ report, run .sample steadyHost withinTen totalQuery (fun _ n => n)
      loneShards ["host0"] [0] = some (.ok report) := ⟨_, rfl⟩
  have htimed : Nat → Timed (fun n => n) (fun n => n + 1) :=
    fun _ => ⟨fun n => Nat.le_succ n, fun n => Nat.le_refl (n + 1)⟩
  refine ⟨report, hrun, ((run_deadline_iff rfl htimed).2.1 report hrun).mpr ?_⟩
  intro task _ n hcompletes _
  have hwithin : n < 4 := hcompletes.within
  show n + 1 < 10
  omega

/-- Each call takes fifty. The reply of the first call is late, and it is reported. -/
theorem late_answer_reported : ∃ report,
    run .sample steadyHost withinTen totalQuery (fun _ n => 50 * n) loneShards ["host0"] [0] =
        some (.ok report) ∧
      (∀ _ : Nat, Timed (fun n => 50 * n) fun n => 50 * n + 50) ∧
      ¬AcceptedBefore 10 (fun _ n => 50 * n + 50)
        (fun task => mapCalls steadyHost withinTen totalQuery (fun n => 50 * n) task.2)
        (runTasks .sample (liveShards totalQuery loneShards) ["host0"]) := by
  refine ⟨_, rfl, fun _ => ⟨fun n => Nat.le_add_right _ _, fun n => Nat.le_refl _⟩, ?_⟩
  intro haccepted
  have hlate : 50 < 10 :=
    haccepted _ (List.mem_singleton_self _) ⟨0, true⟩ (List.mem_singleton_self _) rfl
  omega

end Runs

end CeQuery
