import CeQuery.Engine.Collection
import CeQuery.Engine.Deadline
import CeQuery.Engine.Faults

/-!
# What a report says of the hosts

Beside its rows a report counts attempts, failovers and verified shards, and names the
host that served each shard. All of it follows from the hosts that were contacted: for
each shard a shortest prefix of those that it may be asked of (`Accounts`).

A deadline ends a walk with an error or does not show at all (`mapOneShard_untimed`). So
what an aggregate run reports is a function of the shards, the hosts and their answers:
the clock, the deadline, the width of the window and the order of completion decide
whether there is a report, not what it says (`run_timing`).
-/

namespace CeQuery

/-- The configuration without what only times a run: the deadline and the width of the
window. -/
def RunConfig.untimed (config : RunConfig) : RunConfig :=
  { config with deadline := none, maxInFlight := 1 }

/-! ## Without the clock -/

section Untimed

variable {env : Externals} {host : MapHost} {config : RunConfig} {q : Query} {shard : Shard}
  {clock : Nat → Nat} {ranked : List String} {w w' : Walk} {task : ShardTask}

/-- A walk that ends well is not cut short by the deadline. -/
theorem mapWalk_untimed (h : mapWalk host config q shard clock ranked w = .ok w') :
    mapWalk host config.untimed q shard clock ranked w = .ok w' := by
  have hnever : ∀ elapsed, deadlinePassed config.untimed elapsed = false :=
    fun elapsed => deadlinePassed_eq_false rfl elapsed
  induction ranked generalizing w with
  | nil =>
      rw [mapWalk] at h ⊢
      rw [hnever, if_neg Bool.false_ne_true]
      split at h
      · cases h
      · exact h
  | cons hostId rest ih =>
      rw [mapWalk] at h ⊢
      rw [hnever, if_neg Bool.false_ne_true]
      split at h
      · cases h
      · split at h
        · rename_i hcap
          exact (if_pos hcap).trans h
        · rename_i hcap
          refine (if_neg hcap).trans ?_
          cases hmap : host.map hostId shard q with
          | error e =>
              rw [hmap] at h
              exact ih h
          | ok p =>
              rw [hmap] at h
              dsimp only at h
              split at h
              · rename_i hstop
                exact (if_pos hstop).trans h
              · rename_i hgoes
                exact (if_neg hgoes).trans (ih h)

theorem mapOneShard_untimed {o : ShardOutcome}
    (h : mapOneShard env host config q clock task = .ok o) :
    mapOneShard env host config.untimed q clock task = .ok o := by
  obtain ⟨w, hwalk⟩ := mapOneShard_walk h
  rw [mapOneShard, hwalk] at h
  rw [mapOneShard, mapWalk_untimed hwalk]
  exact h

/-- Without a deadline a shard ends in the same way. -/
theorem mapOneShard_untimed_eq (hdeadline : config.deadline = none) :
    mapOneShard env host config.untimed q clock task =
      mapOneShard env host config q clock task := by
  have hserved : MapServed env host config q clock task _ := mapServed hdeadline
  obtain ⟨w, hwalk, _⟩ := hserved.copies
  rw [mapOneShard, mapOneShard, hwalk, mapWalk_untimed hwalk]
  rfl

end Untimed

/-! ## Reports -/

section Timing

variable {env : Externals} {host : MapHost} {config : RunConfig} {q : Query}
  {shards live : List Shard} {hosts : List String} {clock : Nat → Nat → Nat} {order : List Nat}
  {report : RunReport}

/-- The outcomes of a run are those of a run that is not timed. -/
theorem serves_untimed {outcomes : List ShardOutcome}
    (h : List.Forall₂ (fun task o => mapOneShard env host config q (clock task.1) task.2 = .ok o)
      (runTasks env live hosts) outcomes) :
    List.Forall₂ (Serves env host config.untimed q hosts) live outcomes :=
  (forall₂_runTasks rfl).mp (h.imp fun _ _ ho => mapOneShard_untimed ho)

/-- Whether a run reports may depend on its deadline, on the clock, on the width of its
window and on the order in which the shards are answered, but what it reports does not.
Without a deadline it always reports what it does with one. -/
theorem run_timing (hrun : run env host config q clock shards hosts order = some (.ok report))
    (deadline : Option Nat) (maxInFlight : Nat) {clock' : Nat → Nat → Nat} {order' : List Nat}
    {r : Exit RunReport}
    (hrun' : run env host { config with deadline, maxInFlight } q clock' shards hosts order' =
      some r) :
    (∀ report', r = .ok report' → report' = report) ∧ (deadline = none → r = .ok report) := by
  suffices hr : r = .ok report ∨ ∃ e, r = .error e ∧ deadline ≠ none by
    obtain rfl | ⟨e, rfl, htimed⟩ := hr
    · exact ⟨fun _ h => (Exit.ok.inj h).symm, fun _ => rfl⟩
    · exact ⟨nofun, fun hnone => absurd hnone htimed⟩
  have hsame : runEntry env { config with deadline, maxInFlight } q shards hosts =
      runEntry env config q shards hosts := rfl
  cases hentry : runEntry env config q shards hosts with
  | error exit =>
      rw [run, hentry] at hrun
      rw [run, hsame, hentry] at hrun'
      cases hrun
      cases hrun'
      exact .inl rfl
  | ok live =>
      obtain ⟨outcomes, hall, hreport⟩ | ⟨_, herror, _⟩ := run_cases hentry hrun
      · have hserved := serves_untimed hall
        obtain ⟨outcomes', hall', rfl⟩ | ⟨e, rfl, task, htask, herror⟩ :=
          run_cases (hsame.trans hentry) hrun'
        · have hserved' := serves_untimed hall'
          rw [hreport, serves_functional hserved hserved']
          exact .inl rfl
        · refine .inr ⟨e, rfl, fun hnone => ?_⟩
          obtain ⟨o, _, ho⟩ := Codec.exists_mem_of_forall₂ hall htask
          have hok := mapOneShard_untimed ho
          rw [← mapOneShard_untimed_eq (by exact hnone),
            mapOneShard_clock rfl (clock' task.1) (clock task.1)] at herror
          cases herror.symm.trans hok
      · cases herror

end Timing

/-- Two shards, one of which fails over, in time and without a deadline. -/
theorem run_timing_two_shards : ∃ report,
    run .sample flakyHost { RunConfig.twoAtATime with deadline := some 10, maxInFlight := 2 }
        countQuery (fun _ n => n) twoShards ["host0", "host1", "host2"] [1, 0] =
          some (.ok report) ∧
      run .sample flakyHost { RunConfig.twoAtATime with deadline := none, maxInFlight := 1 }
        countQuery (fun _ _ => 0) twoShards ["host0", "host1", "host2"] [0, 0] =
          some (.ok report) := by
  obtain ⟨report, hrun⟩ : ∃ report, run .sample flakyHost
      { RunConfig.twoAtATime with deadline := some 10, maxInFlight := 2 } countQuery (fun _ n => n)
      twoShards ["host0", "host1", "host2"] [1, 0] = some (.ok report) := ⟨_, rfl⟩
  obtain ⟨r, hrun'⟩ : ∃ r, run .sample flakyHost
      { RunConfig.twoAtATime with deadline := none, maxInFlight := 1 } countQuery (fun _ _ => 0)
      twoShards ["host0", "host1", "host2"] [0, 0] = some r := ⟨_, rfl⟩
  have hr : r = .ok report := (run_timing hrun none 1 hrun').2 rfl
  exact ⟨report, hrun, hr ▸ hrun'⟩

/-! ## Accounts -/

/-- What an outcome says of the hosts. -/
structure ServedShard where
  shardCid : String
  servedBy : String
  attempts : Nat

def ShardOutcome.served (o : ShardOutcome) : ServedShard :=
  { shardCid := o.shardCid, servedBy := o.servedBy, attempts := o.attempts }

def ProjectOutcome.served (o : ProjectOutcome) : ServedShard :=
  { shardCid := o.shardCid, servedBy := o.servedBy, attempts := o.attempts }

/-- The hosts by shard, as a report lists them. -/
def servedHosts (served : List ServedShard) : BTreeMap String String :=
  served.foldl (fun hosts o => hosts.insert o.shardCid o.servedBy) ∅

/-- The hosts that are contacted for a shard are the shortest prefix of those it may be
asked of with as many answers as needed, and an answer is among them. -/
structure ShardContacts (env : Externals) (config : RunConfig) (hosts : List String)
    (answers : Shard → String → Bool) (needed : Nat) (s : Shard) (contacts : List String) :
    Prop where
  shortest : ShortestPrefix (answers s) needed (askedHosts env config hosts s) contacts
  answered : ∃ hostId ∈ contacts, answers s hostId = true

/-- A report counts the contacts of its shards, and names for each CID the first host that
answered for the last shard with that CID. -/
structure Accounts (answers : Shard → String → Bool) (contacts : Shard → List String)
    (shards : List Shard) (servedBy : BTreeMap String String) (totalAttempts : Nat) : Prop where
  attempts : totalAttempts = (shards.map fun s => (contacts s).length).sum
  servedBy : ∀ cid : String, servedBy[cid]? =
    (shards.filter fun s => s.cid = cid).getLast?.bind fun s => (contacts s).find? (answers s)

/-- An outcome accounts for the contacts of its shard. -/
structure ServedAs (answers : Shard → String → Bool) (contacts : Shard → List String) (s : Shard)
    (o : ServedShard) : Prop where
  shardCid : o.shardCid = s.cid
  attempts : o.attempts = (contacts s).length
  servedBy : (contacts s).find? (answers s) = some o.servedBy

theorem Accounts.of_served {answers : Shard → String → Bool} {contacts : Shard → List String}
    {shards : List Shard} {served : List ServedShard}
    (h : List.Forall₂ (ServedAs answers contacts) shards served) :
    Accounts answers contacts shards (servedHosts served) (served.map (·.attempts)).sum where
  attempts := by
    have hlengths : served.map (·.attempts) = shards.map fun s => (contacts s).length := by
      rw [← List.forall₂_eq_eq_eq, List.forall₂_map_left_iff, List.forall₂_map_right_iff]
      exact h.flip.imp fun _ _ ho => ho.attempts
    rw [hlengths]
  servedBy cid := by
    rw [servedHosts, BTreeMap.getElem?_foldl_insert, Std.ExtTreeMap.getElem?_empty,
      Option.or_none]
    have hsame : List.Forall₂ (ServedAs answers contacts) (shards.filter fun s => s.cid = cid)
        (served.filter fun o => o.shardCid = cid) := by
      refine List.rel_filter ?_ h
      intro s o ho
      change decide (s.cid = cid) = true ↔ decide (o.shardCid = cid) = true
      rw [ho.shardCid]
    have hhosts : (served.filter fun o => o.shardCid = cid).map (fun o => some o.servedBy) =
        (shards.filter fun s => s.cid = cid).map fun s => (contacts s).find? (answers s) := by
      rw [← List.forall₂_eq_eq_eq, List.forall₂_map_left_iff, List.forall₂_map_right_iff]
      exact hsame.flip.imp fun _ _ ho => ho.servedBy.symm
    have hlast := congrArg (fun xs => xs.getLast?.bind id) hhosts
    simp only [List.getLast?_map, Option.bind_map, Function.id_comp] at hlast
    rw [← hlast, Option.map_eq_bind]
    rfl

/-- Shards that are asked once or more and at most `cap` times. -/
theorem Accounts.attempts_bounds {answers : Shard → String → Bool}
    {contacts : Shard → List String} {shards : List Shard} {servedBy : BTreeMap String String}
    {totalAttempts cap : Nat} (h : Accounts answers contacts shards servedBy totalAttempts)
    (hcontacts : ∀ s ∈ shards, 1 ≤ (contacts s).length ∧ (contacts s).length ≤ cap) :
    shards.length ≤ totalAttempts ∧ totalAttempts ≤ shards.length * cap := by
  rw [h.attempts]
  clear h
  induction shards with
  | nil => exact ⟨Nat.le_refl _, Nat.zero_le _⟩
  | cons s shards ih =>
      rw [List.forall_mem_cons] at hcontacts
      obtain ⟨⟨hfirst, hcap⟩, hrest⟩ := hcontacts
      obtain ⟨hlower, hupper⟩ := ih hrest
      simp only [List.map_cons, List.sum_cons, List.length_cons, Nat.add_mul, Nat.one_mul]
      omega

theorem ShardContacts.length {env : Externals} {config : RunConfig} {hosts : List String}
    {answers : Shard → String → Bool} {needed : Nat} {s : Shard} {contacts : List String}
    (h : ShardContacts env config hosts answers needed s contacts) :
    1 ≤ contacts.length ∧ contacts.length ≤ max config.maxAttemptsPerShard 1 := by
  obtain ⟨hostId, hmem, _⟩ := h.answered
  exact ⟨List.length_pos_of_mem hmem, h.shortest.isPrefix.length_le.trans (List.length_take_le _ _)⟩

/-! ### Aggregates -/

section Aggregate

variable {env : Externals} {host : MapHost} {config : RunConfig} {q : Query}
  {shards live : List Shard} {hosts : List String} {s : Shard} {o : ShardOutcome}

theorem mapOneShard_cid {clock : Nat → Nat} {task : ShardTask}
    (h : mapOneShard env host config q clock task = .ok o) : o.shardCid = task.shard.cid := by
  obtain ⟨w, hwalk⟩ := mapOneShard_walk h
  rw [mapOneShard, hwalk] at h
  dsimp only [bind, Except.bind] at h
  split at h
  · cases h
  · split at h
    · cases hchosen : selectQuorum env.canonical w.copies config.quorum with
      | error reason =>
          rw [hchosen] at h
          cases h
      | ok p =>
          rw [hchosen] at h
          cases h
          rfl
    · cases h
      rfl

/-- What an outcome says of the hosts that were contacted. -/
structure MappedAs (host : MapHost) (config : RunConfig) (q : Query)
    (contacts : Shard → List String) (s : Shard) (o : ShardOutcome) : Prop where
  served : ServedAs (mapAnswers host q) contacts s o.served
  redistributed : o.redistributed = true ↔
    ∃ hostId ∈ contacts s, mapAnswers host q s hostId = false
  verified : o.verified = true ↔
    1 < max config.redundancy 1 ∧ 2 ≤ (contacts s).countP (mapAnswers host q s)

/-- The hosts that a run contacts for a shard. -/
def askedToMap (env : Externals) (host : MapHost) (config : RunConfig) (q : Query)
    (hosts : List String) (s : Shard) : List String :=
  mapContacts host config.untimed q (fun _ => 0) (rankedTo env hosts s)

theorem mappedAs_of_serves (h : Serves env host config.untimed q hosts s o) :
    MappedAs host config q (askedToMap env host config q hosts) s o := by
  have hserved : MapServed env host config.untimed q (fun _ => 0) (rankedTo env hosts s)
      (askedToMap env host config q hosts s) := mapServed rfl
  obtain ⟨hattempts, hfind, hredistributed, hverified⟩ := hserved.ok o h
  exact ⟨⟨mapOneShard_cid h, hattempts, hfind⟩, hredistributed, hverified⟩

theorem shardContacts_of_serves (h : Serves env host config.untimed q hosts s o) :
    ShardContacts env config hosts (mapAnswers host q) (max config.redundancy 1) s
      (askedToMap env host config q hosts s) where
  shortest := by
    have hshortest : ShortestPrefix (mapAnswers host q s) (max config.untimed.redundancy 1)
        (askedHosts env config.untimed hosts s) (askedToMap env host config q hosts s) :=
      mapContacts_shortest rfl
    exact hshortest
  answered := by
    have hfind := (mappedAs_of_serves h).served.servedBy
    exact ⟨_, List.mem_of_find?_eq_some hfind, List.find?_some hfind⟩

/-- As many outcomes as shards have a property that each has with its shard. -/
theorem countP_eq_of_forall₂ {α : Type u} {β : Type v} {R : α → β → Prop} {p : α → Bool}
    {p' : β → Bool} {as : List α} {bs : List β} (h : List.Forall₂ R as bs)
    (hp : ∀ a b, R a b → (p a = true ↔ p' b = true)) : as.countP p = bs.countP p' := by
  induction h with
  | nil => rfl
  | cons hab _ ih => rw [List.countP_cons, List.countP_cons, ih, if_congr (hp _ _ hab) rfl rfl]

/-- The figures of a report are those of its outcomes. -/
structure Tallies (report : RunReport) (outcomes : List ShardOutcome) : Prop where
  servedBy : report.servedBy = servedHosts (outcomes.map (·.served))
  attempts : report.totalAttempts = ((outcomes.map (·.served)).map (·.attempts)).sum
  redistributed : report.redistributed = outcomes.countP (·.redistributed)
  verified : report.verified = outcomes.countP (·.verified)

theorem runReport_tallies {outcomes : List ShardOutcome} {report : RunReport}
    (h : runReport env config q (outcomes.map some) = .ok report) : Tallies report outcomes := by
  have haccepted : (outcomes.map some).filterMap id = outcomes := by
    rw [List.filterMap_map]
    exact List.filterMap_some
  rw [runReport, haccepted] at h
  split at h
  · cases h
  · split at h
    · cases h
    · cases h
      refine ⟨?_, ?_, rfl, rfl⟩
      · rw [servedHosts, List.foldl_map]
        rfl
      · rw [List.map_map]
        rfl

theorem emptyReport_tallies {report : RunReport} (h : emptyReport env q = .ok report) :
    Tallies report [] := by
  rw [emptyReport] at h
  split at h
  · cases h
  · cases h
    exact ⟨rfl, rfl, rfl, rfl⟩

/-- A report tallies the outcomes of its live shards. -/
theorem run_tallies {clock : Nat → Nat → Nat} {order : List Nat} {report : RunReport}
    (hrun : run env host config q clock shards hosts order = some (.ok report)) :
    ∃ outcomes,
      List.Forall₂ (Serves env host config.untimed q hosts) (liveShards q shards) outcomes ∧
      Tallies report outcomes := by
  obtain hentry | ⟨exit, hentry, hexit⟩ | ⟨hentry, hlive⟩ :=
    runEntry_cases env config q shards hosts
  · obtain ⟨outcomes, hall, hreport⟩ | ⟨e, herror, _⟩ := run_cases hentry hrun
    · exact ⟨outcomes, serves_untimed hall, runReport_tallies hreport.symm⟩
    · cases herror
  · rw [run, hentry] at hrun
    exact absurd (Option.some.inj hrun) (hexit report)
  · rw [run, hentry] at hrun
    exact ⟨[], hlive ▸ .nil, emptyReport_tallies (Option.some.inj hrun)⟩

/-- What a run reports of the hosts follows from the shortest prefixes of the rankings
that it needs to contact. -/
theorem run_accounts {clock : Nat → Nat → Nat} {order : List Nat} {report : RunReport}
    (hrun : run env host config q clock shards hosts order = some (.ok report)) :
    ∃ contacts : Shard → List String,
      (∀ s ∈ liveShards q shards, ShardContacts env config hosts (mapAnswers host q)
        (max config.redundancy 1) s (contacts s)) ∧
      Accounts (mapAnswers host q) contacts (liveShards q shards) report.servedBy
        report.totalAttempts ∧
      report.redistributed = (liveShards q shards).countP (fun s =>
        ∃ hostId ∈ contacts s, mapAnswers host q s hostId = false) ∧
      report.verified = (liveShards q shards).countP (fun s =>
        1 < max config.redundancy 1 ∧ 2 ≤ (contacts s).countP (mapAnswers host q s)) ∧
      (liveShards q shards).length ≤ report.totalAttempts ∧
      report.totalAttempts ≤ (liveShards q shards).length * max config.maxAttemptsPerShard 1 := by
  obtain ⟨outcomes, hserves, htallies⟩ := run_tallies hrun
  have hmapped : List.Forall₂ (MappedAs host config q (askedToMap env host config q hosts))
      (liveShards q shards) outcomes := hserves.imp fun _ _ => mappedAs_of_serves
  have hcontacts : ∀ s ∈ liveShards q shards, ShardContacts env config hosts (mapAnswers host q)
      (max config.redundancy 1) s (askedToMap env host config q hosts s) := by
    intro s hs
    obtain ⟨o, _, ho⟩ := Codec.exists_mem_of_forall₂ hserves hs
    exact shardContacts_of_serves ho
  have hserved : List.Forall₂ (ServedAs (mapAnswers host q) (askedToMap env host config q hosts))
      (liveShards q shards) (outcomes.map (·.served)) :=
    List.forall₂_map_right_iff.mpr (hmapped.imp fun _ _ ho => ho.served)
  have haccounts : Accounts (mapAnswers host q) (askedToMap env host config q hosts)
      (liveShards q shards) report.servedBy report.totalAttempts := by
    rw [htallies.servedBy, htallies.attempts]
    exact .of_served hserved
  refine ⟨_, hcontacts, haccounts, ?_, ?_,
    haccounts.attempts_bounds fun s hs => (hcontacts s hs).length⟩
  · rw [htallies.redistributed]
    exact (countP_eq_of_forall₂ hmapped fun s o ho => by
      rw [decide_eq_true_iff, ho.redistributed]).symm
  · rw [htallies.verified]
    exact (countP_eq_of_forall₂ hmapped fun s o ho => by
      rw [decide_eq_true_iff, ho.verified]).symm

end Aggregate

/-- One of the two shards takes two attempts. -/
theorem run_accounts_two_shards : ∃ report,
    run .sample flakyHost .twoAtATime countQuery (fun _ _ => 0) twoShards
        ["host0", "host1", "host2"] [1, 0] = some (.ok report) ∧
      (∃ contacts, Accounts (mapAnswers flakyHost countQuery) contacts twoShards report.servedBy
        report.totalAttempts) ∧ 2 ≤ report.totalAttempts ∧ report.totalAttempts ≤ 2 * 4 := by
  obtain ⟨report, hrun⟩ : ∃ report, run .sample flakyHost .twoAtATime countQuery (fun _ _ => 0)
      twoShards ["host0", "host1", "host2"] [1, 0] = some (.ok report) := ⟨_, rfl⟩
  obtain ⟨contacts, _, haccounts, _, _, hbounds⟩ := run_accounts hrun
  exact ⟨report, hrun, ⟨contacts, haccounts⟩, hbounds⟩

/-! ### Projections -/

section Projection

variable {env : Externals} {host : MapHost} {config : RunConfig} {q : Query}
  {shards : List Shard} {hosts : List String} {s : Shard} {clock : Nat → Nat → Nat}
  {order : List Nat} {acc acc' : ProjectionReport} {tasks : List (Nat × ShardTask)}
  {report : ProjectionReport}

/-- The figures after the tasks are those before with the outcomes added. -/
structure Collects (outcomes : List ProjectOutcome) (acc acc' : ProjectionReport) : Prop where
  servedBy : acc'.servedBy = (outcomes.map (·.served)).foldl
    (fun hosts o => hosts.insert o.shardCid o.servedBy) acc.servedBy
  attempts : acc'.totalAttempts =
    acc.totalAttempts + ((outcomes.map (·.served)).map (·.attempts)).sum

theorem Collects.nil : Collects [] acc acc where
  servedBy := rfl
  attempts := rfl

theorem Collects.append {outcomes outcomes' : List ProjectOutcome} {acc₁ : ProjectionReport}
    (h : Collects outcomes acc acc₁) (h' : Collects outcomes' acc₁ acc') :
    Collects (outcomes ++ outcomes') acc acc' where
  servedBy := by rw [h'.servedBy, h.servedBy, List.map_append, List.foldl_append]
  attempts := by
    rw [h'.attempts, h.attempts, List.map_append, List.map_append, List.sum_append, Nat.add_assoc]

/-- Whether the loop goes on or stops, the task is collected. -/
theorem collect_collects {task : Nat × ShardTask}
    {r : Except (Except RunError ProjectionReport) ProjectionReport}
    (h : collect host config q clock acc task = r) (hr : r = .ok acc' ∨ r = .error (.ok acc')) :
    ∃ o, projectOneShard host config q (clock task.1) task.2 = .ok o ∧ Collects [o] acc acc' := by
  obtain ⟨o, ho⟩ : ∃ o, projectOneShard host config q (clock task.1) task.2 = .ok o := by
    refine collect_served h fun e he => ?_
    subst he
    obtain hr | hr := hr <;> cases hr
  refine ⟨o, ho, ?_⟩
  rw [collect, ho] at h
  dsimp only at h
  split at h
  · subst h
    obtain hr | hr := hr <;> cases hr
    exact ⟨rfl, rfl⟩
  · split at h
    · split at h <;>
      · subst h
        obtain hr | hr := hr <;> cases hr
        exact ⟨rfl, rfl⟩
    · subst h
      obtain hr | hr := hr <;> cases hr
      exact ⟨rfl, rfl⟩

theorem foldlM_collects (h : tasks.foldlM (collect host config q clock) acc = .ok acc') :
    ∃ outcomes, List.Forall₂ (fun task o =>
        projectOneShard host config q (clock task.1) task.2 = .ok o) tasks outcomes ∧
      Collects outcomes acc acc' := by
  induction tasks generalizing acc with
  | nil =>
      cases h
      exact ⟨[], .nil, .nil⟩
  | cons task tasks ih =>
      obtain ⟨acc₁, hfirst, hothers⟩ := foldlM_cons_ok_iff.mp h
      obtain ⟨o, ho, hcollects⟩ := collect_collects hfirst (.inl rfl)
      obtain ⟨outcomes, hall, hrest⟩ := ih hothers
      exact ⟨o :: outcomes, .cons ho hall, hcollects.append hrest⟩

theorem canEarlyStop_of_stopped {task : Nat × ShardTask}
    (h : collect host config q clock acc task = .error (.ok acc')) : canEarlyStop q = true := by
  rw [collect] at h
  split at h
  · cases h
  · dsimp only at h
    split at h
    · cases h
    · split at h
      · split at h
        · assumption
        · cases h
      · cases h

theorem finishProjection_tallies (acc : ProjectionReport) :
    (finishProjection q acc).servedBy = acc.servedBy ∧
      (finishProjection q acc).totalAttempts = acc.totalAttempts := by
  rw [finishProjection]
  cases q.limit with
  | none => exact ⟨rfl, rfl⟩
  | some n =>
      dsimp only
      split <;> exact ⟨rfl, rfl⟩

/-- A report tallies the outcomes of the tasks that were collected. -/
theorem runProjection_collects
    (hrun : runProjection env host config q clock shards hosts order = some (.ok report)) :
    ∃ tasks outcomes, tasks.Subperm (runTasks env (liveShards q shards) hosts) ∧
      (canEarlyStop q = false → tasks.Perm (runTasks env (liveShards q shards) hosts)) ∧
      List.Forall₂ (fun task o => projectOneShard host config q (clock task.1) task.2 = .ok o)
        tasks outcomes ∧
      Collects outcomes emptyProjection report := by
  have hfinish : ∀ {outcomes acc}, Collects outcomes emptyProjection acc →
      Collects outcomes emptyProjection (finishProjection q acc) := by
    intro outcomes acc h
    obtain ⟨hservedBy, hattempts⟩ := finishProjection_tallies (q := q) acc
    exact ⟨hservedBy.trans h.servedBy, hattempts.trans h.attempts⟩
  rw [runProjection] at hrun
  obtain ⟨e, hentry⟩ | hentry | ⟨rfl, hentry⟩ | hentry := projectionEntry_cases
    (rfl : projectionEntry env config q shards hosts = _)
  · rw [hentry] at hrun
    cases hrun
  · rw [hentry] at hrun
    cases hrun
  · rw [hentry] at hrun
    cases hrun
    exact ⟨[], [], List.nil_subperm, fun _ => .refl _, .nil, .nil⟩
  · rw [hentry] at hrun
    simp only at hrun
    have hwidth : 0 < max config.maxInFlight 1 := by omega
    split at hrun
    · cases hrun
    · cases hrun
    · rename_i hfollow
      cases hrun
      obtain ⟨finished, task, rest, acc, _, hperm, hfold, hleft⟩ := Window.interrupted_taken hfollow
      obtain ⟨outcomes, hall, hcollects⟩ := foldlM_collects hfold
      obtain ⟨o, ho, hlast⟩ := collect_collects hleft (.inr rfl)
      refine ⟨finished ++ [task], outcomes ++ [o], ?_, ?_, ?_, hfinish (hcollects.append hlast)⟩
      · refine List.Sublist.subperm ?_ |>.trans hperm.subperm
        exact (List.Sublist.refl finished).append (List.singleton_sublist.mpr List.mem_cons_self)
      · intro hcollect
        rw [canEarlyStop_of_stopped hleft] at hcollect
        cases hcollect
      · exact List.rel_append hall (.cons ho .nil)
    · rename_i hfollow
      cases hrun
      obtain ⟨hperm, hfold⟩ := Window.drained_taken hwidth hfollow
      obtain ⟨outcomes, hall, hcollects⟩ := foldlM_collects hfold
      exact ⟨_, outcomes, hperm.subperm, fun _ => hperm, hall, hfinish hcollects⟩

end Projection

end CeQuery
