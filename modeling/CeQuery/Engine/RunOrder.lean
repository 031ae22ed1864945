import CeQuery.Engine.Run
import Mathlib.Data.List.Forall2

/-!
# A run does not depend on the order of completion

The window keeps every task in exactly one place: pending, outstanding or
finished. Finishing a task fills the slot of its own shard and no other one
(`fillSlot_foldlM`), so a drained window has all slots filled and the reduce
sees one outcome per shard, in shard order (`runWindow_ok`). A run that is left
early was left at a task that fails in every order (`runWindow_error`).

Without a deadline the elapsed time is never looked at (`mapOneShard_clock`), and
the outcome of a task is a function of the task alone.
-/

namespace CeQuery

section Clock

variable {env : Externals} {host : MapHost} {config : RunConfig} {q : Query} {shard : Shard}

private theorem mapWalk_clock (h : config.deadline = none) (clock clock' : Nat → Nat)
    (ranked : List String) (w : Walk) :
    mapWalk host config q shard clock ranked w = mapWalk host config q shard clock' ranked w := by
  have hpassed : ∀ elapsed, deadlinePassed config elapsed = false := by
    simp [deadlinePassed, h]
  induction ranked generalizing w with
  | nil => simp [mapWalk, hpassed]
  | cons hostId rest ih => simp [mapWalk, hpassed, ih]

theorem mapOneShard_clock (h : config.deadline = none) (clock clock' : Nat → Nat)
    (task : ShardTask) :
    mapOneShard env host config q clock task = mapOneShard env host config q clock' task := by
  rw [mapOneShard, mapWalk_clock h clock clock']
  rfl

end Clock

section Slots

variable {env : Externals} {host : MapHost} {config : RunConfig} {q : Query}
variable {clock : Nat → Nat → Nat} {slots slots' : List (Option ShardOutcome)}
variable {tasks finished : List (Nat × ShardTask)}

/-- Filling a slot succeeds exactly if mapping the shard does. -/
theorem fillSlot_ok {task : Nat × ShardTask}
    (h : fillSlot env host config q clock slots task = .ok slots') :
    ∃ outcome, mapOneShard env host config q (clock task.1) task.2 = .ok outcome ∧
      slots' = slots.set task.1 (some outcome) := by
  rw [fillSlot] at h
  cases hwork : mapOneShard env host config q (clock task.1) task.2 with
  | error e =>
      rw [hwork] at h
      cases h
  | ok outcome =>
      rw [hwork] at h
      cases h
      exact ⟨outcome, rfl, rfl⟩

theorem fillSlot_error {task : Nat × ShardTask} {e : RunError}
    (h : fillSlot env host config q clock slots task = .error e) :
    mapOneShard env host config q (clock task.1) task.2 = .error e := by
  rw [fillSlot] at h
  cases hwork : mapOneShard env host config q (clock task.1) task.2 with
  | error e' =>
      rw [hwork] at h
      cases h
      rfl
  | ok outcome =>
      rw [hwork] at h
      cases h

/-- Filling the slots of distinct tasks: each of them holds its own outcome, the
other slots are as before. -/
private theorem fillSlot_foldlM (hdistinct : (finished.map (·.1)).Nodup)
    (h : finished.foldlM (fillSlot env host config q clock) slots = .ok slots') :
    slots'.length = slots.length ∧
      (∀ i, i ∉ finished.map (·.1) → slots'[i]? = slots[i]?) ∧
      ∀ task ∈ finished, ∃ outcome,
        mapOneShard env host config q (clock task.1) task.2 = .ok outcome ∧
          (task.1 < slots.length → slots'[task.1]? = some (some outcome)) := by
  induction finished generalizing slots with
  | nil =>
      cases h
      exact ⟨rfl, fun _ _ => rfl, by simp⟩
  | cons task finished ih =>
      rw [List.map_cons, List.nodup_cons] at hdistinct
      obtain ⟨hfresh, hrest⟩ := hdistinct
      obtain ⟨slots₁, hfill, hfold⟩ := foldlM_cons_ok_iff.mp h
      obtain ⟨outcome, hwork, hset⟩ := fillSlot_ok hfill
      obtain ⟨hlength, hother, hslots⟩ := ih hrest hfold
      have hlength₁ : slots₁.length = slots.length := by rw [hset, List.length_set]
      refine ⟨hlength.trans hlength₁, ?_, ?_⟩
      · intro i hi
        rw [List.map_cons, List.mem_cons, not_or] at hi
        rw [hother i hi.2, hset, List.getElem?_set_ne (Ne.symm hi.1)]
      · intro t ht
        obtain rfl | ht := List.mem_cons.mp ht
        · refine ⟨outcome, hwork, ?_⟩
          intro hlt
          rw [hother _ hfresh, hset, List.getElem?_set_self hlt]
        · rw [← hlength₁]
          exact hslots t ht

end Slots

/-- Slots that are all filled according to `R` are a list of outcomes. -/
private theorem exists_outcomes {R : Nat × ShardTask → ShardOutcome → Prop}
    {tasks : List (Nat × ShardTask)} {slots : List (Option ShardOutcome)}
    (hlength : tasks.length = slots.length)
    (hslots : ∀ (i : Nat) (task : Nat × ShardTask), tasks[i]? = some task →
      ∃ o, R task o ∧ slots[i]? = some (some o)) :
    ∃ outcomes, List.Forall₂ R tasks outcomes ∧ slots = outcomes.map some := by
  induction tasks generalizing slots with
  | nil =>
      have hnil : slots = [] := List.length_eq_zero_iff.mp hlength.symm
      exact ⟨[], .nil, hnil⟩
  | cons task tasks ih =>
      cases slots with
      | nil => cases hlength
      | cons slot slots =>
          obtain ⟨o, ho, hslot⟩ := hslots 0 task rfl
          obtain ⟨outcomes, hall, hrest⟩ :=
            ih (Nat.succ.inj hlength) fun i t ht => hslots (i + 1) t ht
          refine ⟨o :: outcomes, .cons ho hall, ?_⟩
          rw [List.getElem?_cons_zero, Option.some.injEq] at hslot
          rw [hslot, hrest, List.map_cons]

section RunWindow

variable {env : Externals} {host : MapHost} {config : RunConfig} {q : Query}
variable {clock : Nat → Nat → Nat} {live : List Shard} {hosts : List String}
variable {order : List Nat}

theorem runTasks_length : (runTasks env live hosts).length = live.length := by
  simp [runTasks, plan]

theorem getElem?_runTasks (i : Nat) :
    (runTasks env live hosts)[i]? = (plan env.score live hosts)[i]?.map fun task => (i, task) := by
  rw [runTasks, List.getElem?_map, List.getElem?_zipIdx, Option.map_map]
  simp [Function.comp_def]

theorem runTasks_slots : (runTasks env live hosts).map (·.1) = List.range live.length := by
  apply List.ext_getElem?
  intro i
  rw [List.getElem?_map, getElem?_runTasks, Option.map_map]
  by_cases hi : i < live.length <;> simp [plan, hi]

/-- A drained window has all slots filled, each with the outcome of its shard. -/
theorem runWindow_ok {slots : List (Option ShardOutcome)}
    (h : (runWindow env config live hosts).follow (fillSlot env host config q clock) order =
      some (.ok slots)) :
    ∃ outcomes, slots = outcomes.map some ∧
      List.Forall₂ (fun task o => mapOneShard env host config q (clock task.1) task.2 = .ok o)
        (runTasks env live hosts) outcomes := by
  have hwidth : 0 < max config.maxInFlight 1 :=
    Nat.lt_of_lt_of_le Nat.one_pos (Nat.le_max_right _ _)
  obtain ⟨finished, hperm, hfold⟩ := Window.drained hwidth h
  have hindices : (finished.map (·.1)).Perm (List.range live.length) :=
    runTasks_slots ▸ hperm.map (·.1)
  have hdistinct : (finished.map (·.1)).Nodup := hindices.nodup_iff.mpr List.nodup_range
  obtain ⟨hlength, _, hslots⟩ := fillSlot_foldlM hdistinct hfold
  rw [List.length_replicate] at hlength hslots
  have hall : ∀ (i : Nat) (task : Nat × ShardTask), (runTasks env live hosts)[i]? = some task →
      ∃ o, mapOneShard env host config q (clock task.1) task.2 = .ok o ∧
        slots[i]? = some (some o) := by
    intro i task hget
    have hslot : task.1 = i := by
      rw [getElem?_runTasks, Option.map_eq_some_iff] at hget
      obtain ⟨_, _, rfl⟩ := hget
      rfl
    obtain ⟨hi, _⟩ := List.getElem?_eq_some_iff.mp hget
    rw [runTasks_length] at hi
    obtain ⟨o, hwork, hfilled⟩ := hslots task (hperm.mem_iff.mpr (List.mem_of_getElem? hget))
    exact ⟨o, hwork, hslot ▸ hfilled (hslot ▸ hi)⟩
  obtain ⟨outcomes, hforall, hout⟩ :=
    exists_outcomes (runTasks_length.trans hlength.symm) hall
  exact ⟨outcomes, hout, hforall⟩

/-- A run is left early only at a task that fails. -/
theorem runWindow_error {e : RunError}
    (h : (runWindow env config live hosts).follow (fillSlot env host config q clock) order =
      some (.error e)) :
    ∃ task ∈ runTasks env live hosts,
      mapOneShard env host config q (clock task.1) task.2 = .error e := by
  obtain ⟨finished, task, rest, slots, hperm, _, herror⟩ := Window.interrupted h
  refine ⟨task, hperm.mem_iff.mp (by simp), ?_⟩
  exact fillSlot_error herror

/-- The result of a shard in a run without a deadline. -/
def Serves (env : Externals) (host : MapHost) (config : RunConfig) (q : Query)
    (hosts : List String) (shard : Shard) (o : ShardOutcome) : Prop :=
  mapOneShard env host config q (fun _ => 0)
    { shard, rankedHosts := rankHosts env.score shard.cid hosts } = .ok o

/-- The tasks of the window are the live shards with their rankings. -/
theorem forall₂_runTasks (hdeadline : config.deadline = none)
    {outcomes : List ShardOutcome} :
    List.Forall₂ (fun task o => mapOneShard env host config q (clock task.1) task.2 = .ok o)
        (runTasks env live hosts) outcomes ↔
      List.Forall₂ (Serves env host config q hosts) live outcomes := by
  have hfst : ((plan env.score live hosts).zipIdx).map Prod.fst = plan env.score live hosts :=
    List.zipIdx_map_fst 0 _
  rw [runTasks, List.forall₂_map_left_iff]
  have hclock : ∀ (task : ShardTask × Nat) (o : ShardOutcome),
      mapOneShard env host config q (clock task.2) task.1 = .ok o ↔
        mapOneShard env host config q (fun _ => 0) task.1 = .ok o := by
    intro task o
    rw [mapOneShard_clock hdeadline (clock task.2) fun _ => 0]
  simp only [hclock]
  rw [← List.forall₂_map_left_iff (f := Prod.fst)
    (R := fun task o => mapOneShard env host config q (fun _ => 0) task = .ok o), hfst, plan,
    List.forall₂_map_left_iff]
  rfl

/-- A shard has at most one outcome. -/
theorem serves_functional {live : List Shard} {outcomes outcomes' : List ShardOutcome}
    (h : List.Forall₂ (Serves env host config q hosts) live outcomes)
    (h' : List.Forall₂ (Serves env host config q hosts) live outcomes') :
    outcomes = outcomes' := by
  exact List.right_unique_forall₂' (fun _ _ _ ho ho' => Except.ok.inj (ho.symm.trans ho')) h h'

end RunWindow

/-- Two ways for a run to end that a caller cannot tell apart, up to which of
several errors is reported. -/
def Exit.Agrees : Exit α → Exit α → Prop
  | .ok a, .ok b => a = b
  | .error _, .error _ => True
  | .panic, .panic => True
  | _, _ => False

theorem Exit.Agrees.refl (r : Exit α) : r.Agrees r := by
  cases r <;> trivial

section RunOrder

variable {env : Externals} {host : MapHost} {config : RunConfig} {q : Query}
variable {shards : List Shard} {hosts : List String}

/-- What a run that enters its loop ends with: the reduce of one outcome per
live shard, or the failure of one of its shards. -/
theorem run_cases {clock : Nat → Nat → Nat} {order : List Nat} {r : Exit RunReport}
    {live : List Shard} (hentry : runEntry env config q shards hosts = .ok live)
    (hrun : run env host config q clock shards hosts order = some r) :
    (∃ outcomes,
        List.Forall₂ (fun task o => mapOneShard env host config q (clock task.1) task.2 = .ok o)
          (runTasks env live hosts) outcomes ∧ r = runReport env config q (outcomes.map some)) ∨
      ∃ e, r = .error e ∧ ∃ task ∈ runTasks env live hosts,
        mapOneShard env host config q (clock task.1) task.2 = .error e := by
  rw [run, hentry] at hrun
  simp only at hrun
  split at hrun
  · cases hrun
  · rename_i e hfollow
    cases hrun
    exact .inr ⟨e, rfl, runWindow_error hfollow⟩
  · rename_i slots hfollow
    cases hrun
    obtain ⟨outcomes, hslots, hall⟩ := runWindow_ok hfollow
    exact .inl ⟨outcomes, hall, by rw [hslots]⟩

/-- Without a deadline a run fails only if some live shard has no outcome. -/
theorem run_serves_cases {clock : Nat → Nat → Nat} {order : List Nat} {r : Exit RunReport}
    {live : List Shard} (hdeadline : config.deadline = none)
    (hentry : runEntry env config q shards hosts = .ok live)
    (hrun : run env host config q clock shards hosts order = some r) :
    (∃ outcomes, List.Forall₂ (Serves env host config q hosts) live outcomes ∧
        r = runReport env config q (outcomes.map some)) ∨
      ∃ e, r = .error e ∧
        ¬∃ outcomes, List.Forall₂ (Serves env host config q hosts) live outcomes := by
  obtain ⟨outcomes, hall, hr⟩ | ⟨e, hr, task, hmem, herror⟩ := run_cases hentry hrun
  · exact .inl ⟨outcomes, (forall₂_runTasks hdeadline).mp hall, hr⟩
  · refine .inr ⟨e, hr, ?_⟩
    rintro ⟨outcomes, hall⟩
    obtain ⟨o, _, ho⟩ :=
      Codec.exists_mem_of_forall₂ ((forall₂_runTasks hdeadline).mpr hall) hmem
    rw [herror] at ho
    cases ho

/-- The loop is entered with the shards that were not pruned; a run that reports
without entering it has none. -/
theorem runEntry_cases (env : Externals) (config : RunConfig) (q : Query)
    (shards : List Shard) (hosts : List String) :
    runEntry env config q shards hosts = .ok (liveShards q shards) ∨
      (∃ exit, runEntry env config q shards hosts = .error exit ∧ ∀ report, exit ≠ .ok report) ∨
        (runEntry env config q shards hosts = .error (emptyReport env q) ∧
          liveShards q shards = []) := by
  rw [runEntry]
  split
  · exact .inr (.inl ⟨_, rfl, by simp⟩)
  · split
    · rename_i hempty
      refine .inr (.inr ⟨rfl, ?_⟩)
      rw [List.isEmpty_iff.mp hempty]
      rfl
    · split
      · exact .inr (.inl ⟨_, rfl, by simp⟩)
      · split
        · exact .inr (.inl ⟨_, rfl, by simp⟩)
        · exact .inr (.inl ⟨_, rfl, by simp⟩)
        · split
          · rename_i hempty
            exact .inr (.inr ⟨rfl, List.isEmpty_iff.mp hempty⟩)
          · exact .inl rfl

/-- The reported rows of a reduce are the shaped groups of the merged partial. -/
theorem runReport_results {outcomes : List ShardOutcome} {report : RunReport}
    (h : runReport env config q (outcomes.map some) = .ok report) :
    ∃ rows, (reduce q.aggregates (outcomes.map (·.shardPartial))).finalize env.toSerdeJson =
        some rows ∧ report.results = q.shape rows := by
  have haccepted : (outcomes.map some).filterMap id = outcomes := by
    rw [List.filterMap_map]
    exact List.filterMap_some
  rw [runReport, haccepted] at h
  split at h
  · cases h
  · rename_i rows hrows
    split at h
    · cases h
    · cases h
      exact ⟨rows, hrows, rfl⟩

private theorem emptyReport_results {report : RunReport} (h : emptyReport env q = .ok report) :
    ∃ rows, (reduce q.aggregates []).finalize env.toSerdeJson = some rows ∧
      report.results = q.shape rows := by
  rw [emptyReport] at h
  split at h
  · cases h
  · rename_i rows hrows
    cases h
    exact ⟨rows, hrows, rfl⟩

/-- A reported result is the reduce over the outcomes of the shards that were not
pruned. -/
theorem run_outcomes {clock : Nat → Nat → Nat} {order : List Nat} {report : RunReport}
    (hrun : run env host config q clock shards hosts order = some (.ok report)) :
    ∃ outcomes rows,
      List.Forall₂ (fun task o => mapOneShard env host config q (clock task.1) task.2 = .ok o)
        (runTasks env (liveShards q shards) hosts) outcomes ∧
      (reduce q.aggregates (outcomes.map (·.shardPartial))).finalize env.toSerdeJson = some rows ∧
        report.results = q.shape rows := by
  obtain hentry | ⟨exit, hentry, hexit⟩ | ⟨hentry, hlive⟩ :=
    runEntry_cases env config q shards hosts
  · obtain ⟨outcomes, hall, hreport⟩ | ⟨e, herror, _⟩ := run_cases hentry hrun
    · obtain ⟨rows, hrows, hresults⟩ := runReport_results hreport.symm
      exact ⟨outcomes, rows, hall, hrows, hresults⟩
    · cases herror
  · rw [run, hentry] at hrun
    exact absurd (Option.some.inj hrun) (hexit report)
  · rw [run, hentry] at hrun
    obtain ⟨rows, hrows, hresults⟩ := emptyReport_results (Option.some.inj hrun)
    exact ⟨[], rows, hlive ▸ .nil, hrows, hresults⟩

/-- Without a deadline these outcomes are functions of the shards. -/
theorem run_results {clock : Nat → Nat → Nat} {order : List Nat} {report : RunReport}
    (hdeadline : config.deadline = none)
    (hrun : run env host config q clock shards hosts order = some (.ok report)) :
    ∃ outcomes rows, List.Forall₂ (Serves env host config q hosts) (liveShards q shards) outcomes ∧
      (reduce q.aggregates (outcomes.map (·.shardPartial))).finalize env.toSerdeJson = some rows ∧
        report.results = q.shape rows := by
  obtain ⟨outcomes, rows, hall, hrows, hresults⟩ := run_outcomes hrun
  exact ⟨outcomes, rows, (forall₂_runTasks hdeadline).mp hall, hrows, hresults⟩

/-- Two runs that differ in their completion orders only agree. -/
theorem run_agrees {clock clock' : Nat → Nat → Nat} {order order' : List Nat}
    {r r' : Exit RunReport} (hdeadline : config.deadline = none)
    (hrun : run env host config q clock shards hosts order = some r)
    (hrun' : run env host config q clock' shards hosts order' = some r') : r.Agrees r' := by
  cases hentry : runEntry env config q shards hosts with
  | error exit =>
      rw [run, hentry] at hrun hrun'
      cases hrun
      cases hrun'
      exact Exit.Agrees.refl _
  | ok live =>
      obtain ⟨outcomes, hall, hr⟩ | ⟨e, hr, hnone⟩ := run_serves_cases hdeadline hentry hrun <;>
        obtain ⟨outcomes', hall', hr'⟩ | ⟨e', hr', hnone'⟩ :=
          run_serves_cases hdeadline hentry hrun'
      · rw [hr, hr', serves_functional hall hall']
        exact Exit.Agrees.refl _
      · exact absurd ⟨outcomes, hall⟩ hnone'
      · exact absurd ⟨outcomes', hall'⟩ hnone
      · rw [hr, hr']
        trivial

/-- A run without a deadline keeps to its window, starts every task once, loses
no shard, and ends in the same way whatever the completion order. -/
theorem run_order_independent (env : Externals) (host : MapHost) (config : RunConfig) (q : Query)
    (shards : List Shard) (hosts : List String) (hdeadline : config.deadline = none)
    (clock : Nat → Nat → Nat) :
    (∀ s, Window.Reaches (fillSlot env host config q clock)
        (runWindow env config (liveShards q shards) hosts) s →
      s.inflight.length ≤ max 1 config.maxInFlight ∧
        s.started <+: runTasks env (liveShards q shards) hosts ∧
          (s.started.map (·.1)).Nodup) ∧
    (∀ order slots, (runWindow env config (liveShards q shards) hosts).follow
        (fillSlot env host config q clock) order = some (.ok slots) →
      slots.length = (liveShards q shards).length ∧ none ∉ slots) ∧
    (∀ order report, run env host config q clock shards hosts order = some (.ok report) →
      ∃ outcomes rows,
        List.Forall₂ (Serves env host config q hosts) (liveShards q shards) outcomes ∧
        (reduce q.aggregates (outcomes.map (·.shardPartial))).finalize env.toSerdeJson =
          some rows ∧
        report.results = q.shape rows) ∧
    ∀ clock' order order' r r', run env host config q clock shards hosts order = some r →
      run env host config q clock' shards hosts order' = some r' → r.Agrees r' := by
  refine ⟨?_, ?_, fun order report => run_results hdeadline,
    fun clock' order order' r r' => run_agrees hdeadline⟩
  · intro s hr
    have hinv := hr.inv (Window.inv_prime _ _ _)
    have hinit : s.started <+: runTasks env (liveShards q shards) hosts :=
      ⟨s.pending, hinv.started_append⟩
    refine ⟨Nat.le_trans hinv.bounded (Nat.le_of_eq (Nat.max_comm _ _)), hinit, ?_⟩
    have hslots : (s.started.map (·.1)).Sublist (List.range (liveShards q shards).length) :=
      runTasks_slots ▸ hinit.sublist.map (·.1)
    exact hslots.nodup List.nodup_range
  · intro order slots hfollow
    obtain ⟨outcomes, hslots, hall⟩ := runWindow_ok hfollow
    have hlength := hall.length_eq
    rw [hslots]
    refine ⟨?_, by simp⟩
    rw [List.length_map, ← hlength, runTasks_length]

end RunOrder

def countQuery : Query where
  dataset := "t"
  aggregates := [.count]
  predicate := .true
  groupBy := []
  orderBy := []
  limit := none
  projection := none

def twoShards : List Shard :=
  [{ cid := "s0", rows := U64.one, bytes := U64.zero, stats := none },
    { cid := "s1", rows := U64.one, bytes := U64.zero, stats := none }]

/-- The first choice for shard `s1` is down, everything else counts one row. -/
def flakyHost : MapHost where
  map hostId shard _ :=
    if hostId = "host2" ∧ shard.cid = "s1" then .error .timeout
    else .ok
      { aggregates := [.count]
        groups := Std.ExtTreeMap.insert ∅ [] [Accum.count U64.one] }
  project _ _ _ := .error .timeout

/-- A configuration with a window of two tasks and no bounds. -/
def RunConfig.twoAtATime : RunConfig where
  maxAttemptsPerShard := 4
  maxInFlight := 2
  redundancy := 1
  quorum := 0
  deadline := none
  limits :=
    { maxScanBytes := U64.zero
      maxScanRows := U64.zero
      maxShards := 0
      maxResultGroups := 0 }

/-- Two shards that complete in either order give the same report. -/
theorem run_order_independent_two_shards : ∃ r r',
    run .sample flakyHost .twoAtATime countQuery (fun _ _ => 0) twoShards
        ["host0", "host1", "host2"] [0, 0] = some r ∧
      run .sample flakyHost .twoAtATime countQuery (fun _ _ => 0) twoShards
        ["host0", "host1", "host2"] [1, 0] = some r' ∧ r.Agrees r' :=
  ⟨_, _, rfl, rfl, (run_order_independent .sample flakyHost .twoAtATime countQuery twoShards
    ["host0", "host1", "host2"] rfl fun _ _ => 0).2.2.2 (fun _ _ => 0) [0, 0] [1, 0] _ _ rfl rfl⟩

end CeQuery
