import CeQuery.Engine.Gather
import CeQuery.Engine.Quorum
import CeQuery.Engine.RunOrder
import CeQuery.Pruning

/-!
# Runs with and without statistics

A shard that statistics rule out is skipped. If none of its rows is accepted its
map output has no group and its projection has no row, so mapping it would not
have changed the answer: an aggregate run reduces to the same groups, and a
projection can return the same rows.

The second statement is about sets of answers, since the rows of a projection
come in the order in which the shards complete. It is argued on an abstraction
of the collection loop, `gather`, which sees of each task only the rows it
brings.
-/

namespace CeQuery

/-- The shard with its statistics removed. -/
def Shard.withoutStats (s : Shard) : Shard :=
  { s with stats := none }

/-- The statistics of the shard, if it has any, are those of its rows. -/
def Shard.StatsOf (store : String → List Row) (s : Shard) : Prop :=
  ∀ st, s.stats = some st → st = computeStats (store s.cid)

/-- Hosts that compute what they are asked for, whenever they answer. They read
the rows of a shard by its identifier and do not look at its statistics. -/
structure MapHost.Honest (json : SerdeJson) (store : String → List Row) (q : Query)
    (host : MapHost) : Prop where
  map : ∀ hostId shard p, host.map hostId shard q = .ok p → p = q.mapShard json (store shard.cid)
  project : ∀ hostId shard rows, host.project hostId shard q = .ok rows →
    rows = q.projectShard (store shard.cid)
  map_withoutStats : ∀ hostId shard,
    host.map hostId shard.withoutStats q = host.map hostId shard q
  project_withoutStats : ∀ hostId shard,
    host.project hostId shard.withoutStats q = host.project hostId shard q

/-- Hosts that project what they are asked for, whenever they answer. -/
def MapHost.Projects (store : String → List Row) (q : Query) (host : MapHost) : Prop :=
  ∀ hostId shard rows, host.project hostId shard q = .ok rows →
    rows = q.projectShard (store shard.cid)

/-- No row of the shard is accepted although its numbers rule the filter out. -/
def Shard.NoneMisled (store : String → List Row) (q : Query) (s : Shard) : Prop :=
  ∀ row ∈ store s.cid, ¬Misled (store s.cid) row q.predicate

@[simp] theorem Shard.withoutStats_cid (s : Shard) : s.withoutStats.cid = s.cid := rfl

@[simp] theorem shardCanMatch_withoutStats (s : Shard) (predicate : Predicate) :
    shardCanMatch s.withoutStats.stats predicate = true := rfl

@[simp] theorem liveShards_withoutStats (q : Query) (shards : List Shard) :
    liveShards q (shards.map Shard.withoutStats) = shards.map Shard.withoutStats := by
  simp [liveShards]

theorem liveShards_cons_of_pos {q : Query} {s : Shard} {shards : List Shard}
    (h : shardCanMatch s.stats q.predicate = true) :
    liveShards q (s :: shards) = s :: liveShards q shards :=
  List.filter_cons_of_pos h

theorem liveShards_cons_of_neg {q : Query} {s : Shard} {shards : List Shard}
    (h : shardCanMatch s.stats q.predicate = false) :
    liveShards q (s :: shards) = liveShards q shards :=
  List.filter_cons_of_neg (by simp [h])

/-! ## Shards without an accepted row -/

section Idle

variable {json : SerdeJson} {q : Query} {rows : List Row}

/-- A shard that was skipped has no row that the filter accepts. -/
theorem eval_eq_false_of_pruned {store : String → List Row} {s : Shard} (hstats : s.StatsOf store)
    (hnone : s.NoneMisled store q) (hpruned : shardCanMatch s.stats q.predicate = false) :
    ∀ row ∈ store s.cid, q.predicate.eval row = false := by
  intro row hrow
  cases hst : s.stats with
  | none =>
      rw [hst] at hpruned
      cases hpruned
  | some st =>
      rw [hst, hstats st hst] at hpruned
      by_contra haccepted
      have hkept := (shardCanMatch_sound_iff (store s.cid) q.predicate).mpr hnone
        ⟨row, hrow, by simpa using haccepted⟩
      rw [hkept] at hpruned
      cases hpruned

theorem projectShard_eq_nil (h : ∀ row ∈ rows, q.predicate.eval row = false) :
    q.projectShard rows = [] := by
  have hfilter : rows.filter (fun row => q.predicate.eval row) = [] := by
    rw [List.filter_eq_nil_iff]
    simpa using h
  rw [Query.projectShard_eq, hfilter, List.map_nil]

theorem mapShard_eq_empty (h : ∀ row ∈ rows, q.predicate.eval row = false) :
    q.mapShard json rows = Partial.empty q.aggregates := by
  have hgroups : ∀ groups : Groups, rows.foldl (fun groups row =>
      if q.predicate.eval row then
        groups.upsert (q.groupKey json row) (q.aggregates.map Agg.zero)
          (Query.foldRow row q.aggregates)
      else groups) groups = groups := by
    intro groups
    induction rows with
    | nil => rfl
    | cons row rows ih =>
        rw [List.foldl_cons, h row List.mem_cons_self, if_neg Bool.false_ne_true]
        exact ih fun row hrow => h row (List.mem_cons_of_mem _ hrow)
  rw [Query.mapShard, hgroups, Partial.empty]

/-- An empty partial contributes nothing to a reduce. -/
theorem merge_empty (p : Partial) (aggregates : List Agg) :
    p.merge (Partial.empty aggregates) = p := by
  rw [Partial.merge, Partial.empty]
  rfl

/-- Mapping the live shards only reduces to the same partial. -/
theorem reduce_liveShards {store : String → List Row} {shards : List Shard}
    (hstats : ∀ s ∈ shards, s.StatsOf store) (hnone : ∀ s ∈ shards, s.NoneMisled store q) :
    reduce q.aggregates ((liveShards q shards).map fun s => q.mapShard json (store s.cid)) =
      reduce q.aggregates (shards.map fun s => q.mapShard json (store s.cid)) := by
  rw [reduce, reduce]
  generalize Partial.empty q.aggregates = start
  induction shards generalizing start with
  | nil => rfl
  | cons s shards ih =>
      have hrest := ih (fun t ht => hstats t (List.mem_cons_of_mem _ ht))
        fun t ht => hnone t (List.mem_cons_of_mem _ ht)
      cases hlive : shardCanMatch s.stats q.predicate with
      | true =>
          rw [liveShards_cons_of_pos hlive]
          exact hrest _
      | false =>
          have hidle := eval_eq_false_of_pruned (hstats s List.mem_cons_self)
            (hnone s List.mem_cons_self) hlive
          rw [liveShards_cons_of_neg hlive, List.map_cons, List.foldl_cons,
            mapShard_eq_empty hidle, merge_empty]
          exact hrest start

end Idle

/-! ## Aggregate runs -/

section Run

variable {env : Externals} {host : MapHost} {config : RunConfig} {q : Query}
variable {store : String → List Row} {shards : List Shard} {hosts : List String}

theorem map_runTasks {α : Type u} (g : Shard → α) (live : List Shard) :
    (runTasks env live hosts).map (fun task => g task.2.shard) = live.map g := by
  have hfst : ((plan env.score live hosts).zipIdx).map Prod.fst = plan env.score live hosts :=
    List.zipIdx_map_fst 0 _
  calc
    (runTasks env live hosts).map (fun task => g task.2.shard) =
        (((plan env.score live hosts).zipIdx).map Prod.fst).map fun task => g task.shard := by
      rw [runTasks, List.map_map, List.map_map]
      rfl
    _ = live.map g := by
      rw [hfst, plan, List.map_map]
      rfl

/-- What honest hosts answer is the map output of the shard's rows, whichever
copies are collected and chosen. -/
theorem mapOneShard_honest (hhonest : host.Honest env.toSerdeJson store q) {clock : Nat → Nat}
    {task : ShardTask} {o : ShardOutcome}
    (h : mapOneShard env host config q clock task = .ok o) :
    o.shardPartial = q.mapShard env.toSerdeJson (store task.shard.cid) := by
  obtain ⟨tried, rest, first, others, htrace⟩ := mapOneShard_ok h
  have hcopy : ∀ c ∈ first :: others, c.2 = q.mapShard env.toSerdeJson (store task.shard.cid) := by
    intro c hc
    rw [← htrace.copies, mem_answers] at hc
    exact hhonest.map c.1 task.shard c.2 hc.2
  have hchosen := htrace.chosen
  split at hchosen
  · obtain ⟨c, hc, heq⟩ := selectQuorum_mem hchosen
    rw [← heq]
    exact hcopy c hc
  · rw [hchosen]
    exact hcopy first List.mem_cons_self

private theorem map_shardPartial {α : Type u} {R : α → ShardOutcome → Prop} {g : α → Partial}
    {as : List α} {outcomes : List ShardOutcome} (hall : List.Forall₂ R as outcomes)
    (h : ∀ a o, R a o → o.shardPartial = g a) : outcomes.map (·.shardPartial) = as.map g := by
  rw [← List.forall₂_eq_eq_eq, List.forall₂_map_left_iff, List.forall₂_map_right_iff]
  exact (hall.imp h).flip

theorem mapOneShard_withoutStats (hhonest : host.Honest env.toSerdeJson store q)
    (clock : Nat → Nat) (s : Shard) (rankedHosts : List String) :
    mapOneShard env host config q clock { shard := s.withoutStats, rankedHosts } =
      mapOneShard env host config q clock { shard := s, rankedHosts } := by
  have hwalk : ∀ (ranked : List String) (w : Walk),
      mapWalk host config q s.withoutStats clock ranked w =
        mapWalk host config q s clock ranked w := by
    intro ranked
    induction ranked with
    | nil =>
        intro w
        rfl
    | cons hostId rest ih =>
        intro w
        simp only [mapWalk, hhonest.map_withoutStats, ih, Shard.withoutStats_cid]
  rw [mapOneShard, hwalk]
  rfl

/-- With honest hosts a reported result is the reduce over the map outputs of the
live shards. -/
theorem run_mapShard (hhonest : host.Honest env.toSerdeJson store q) {clock : Nat → Nat → Nat}
    {order : List Nat} {report : RunReport}
    (hrun : run env host config q clock shards hosts order = some (.ok report)) :
    ∃ rows, (reduce q.aggregates ((liveShards q shards).map fun s =>
        q.mapShard env.toSerdeJson (store s.cid))).finalize env.toSerdeJson = some rows ∧
      report.results = q.shape rows := by
  obtain ⟨outcomes, rows, hall, hrows, hresults⟩ := run_outcomes hrun
  have hpartials : outcomes.map (·.shardPartial) =
      (runTasks env (liveShards q shards) hosts).map fun task =>
        q.mapShard env.toSerdeJson (store task.2.shard.cid) :=
    map_shardPartial hall fun _ _ ho => mapOneShard_honest hhonest ho
  rw [hpartials, map_runTasks fun s => q.mapShard env.toSerdeJson (store s.cid)] at hrows
  exact ⟨rows, hrows, hresults⟩

/-- Runs with and without statistics that both report return the same rows. -/
theorem run_results_withoutStats (hhonest : host.Honest env.toSerdeJson store q)
    (hstats : ∀ s ∈ shards, s.StatsOf store) (hnone : ∀ s ∈ shards, s.NoneMisled store q)
    {clock clock' : Nat → Nat → Nat} {order order' : List Nat} {report report' : RunReport}
    (hrun : run env host config q clock shards hosts order = some (.ok report))
    (hrun' : run env host config q clock' (shards.map Shard.withoutStats) hosts order' =
      some (.ok report')) :
    report.results = report'.results := by
  obtain ⟨rows, hrows, hresults⟩ := run_mapShard hhonest hrun
  obtain ⟨rows', hrows', hresults'⟩ := run_mapShard hhonest hrun'
  rw [liveShards_withoutStats, List.map_map] at hrows'
  have hreduce : reduce q.aggregates
      (shards.map fun s => q.mapShard env.toSerdeJson (store s.cid)) =
      reduce q.aggregates (shards.map
        ((fun s => q.mapShard env.toSerdeJson (store s.cid)) ∘ Shard.withoutStats)) := rfl
  rw [reduce_liveShards hstats hnone, hreduce, hrows'] at hrows
  cases hrows
  rw [hresults, hresults']

/-! A run that succeeds without statistics also succeeds with them. -/

theorem checkScan_withoutStats (overflowChecks : Bool) (limits : CostLimits) :
    limits.checkScan overflowChecks (shards.map Shard.withoutStats) =
      limits.checkScan overflowChecks shards := by
  have hrows : (shards.map Shard.withoutStats).map (·.rows) = shards.map (·.rows) := by
    rw [List.map_map]
    rfl
  have hbytes : (shards.map Shard.withoutStats).map (·.bytes) = shards.map (·.bytes) := by
    rw [List.map_map]
    rfl
  rw [CostLimits.checkScan, CostLimits.checkScan, hrows, hbytes, List.length_map]

/-- Without statistics the loop is entered, with all shards, or the run is over in
the same way as with them. -/
theorem runEntry_withoutStats (env : Externals) (config : RunConfig) (q : Query)
    (shards : List Shard) (hosts : List String) :
    (∃ exit, runEntry env config q (shards.map Shard.withoutStats) hosts = .error exit ∧
        runEntry env config q shards hosts = .error exit) ∨
      runEntry env config q (shards.map Shard.withoutStats) hosts =
          .ok (shards.map Shard.withoutStats) ∧
        (runEntry env config q shards hosts = .ok (liveShards q shards) ∨
          runEntry env config q shards hosts = .error (emptyReport env q) ∧
            liveShards q shards = []) := by
  have hempty : (shards.map Shard.withoutStats).isEmpty = shards.isEmpty := List.isEmpty_map
  unfold runEntry
  rw [checkScan_withoutStats, liveShards_withoutStats, hempty]
  cases q.validate with
  | error reason => exact .inl ⟨_, rfl, rfl⟩
  | ok _ =>
      simp only
      split
      · exact .inl ⟨_, rfl, rfl⟩
      · split
        · exact .inl ⟨_, rfl, rfl⟩
        · split
          · exact .inl ⟨_, rfl, rfl⟩
          · exact .inl ⟨_, rfl, rfl⟩
          · apply Or.inr
            refine ⟨rfl, ?_⟩
            split
            · rename_i hlive
              exact .inr ⟨rfl, List.isEmpty_iff.mp hlive⟩
            · exact .inl rfl

/-- Whether the reduce is reported, and with which rows, is a matter of the
reduced partial. -/
private theorem runReport_congr {outcomes outcomes' : List ShardOutcome} {report' : RunReport}
    (hreduce : reduce q.aggregates (outcomes.map (·.shardPartial)) =
      reduce q.aggregates (outcomes'.map (·.shardPartial)))
    (h : runReport env config q (outcomes'.map some) = .ok report') :
    ∃ report, runReport env config q (outcomes.map some) = .ok report ∧
      report.results = report'.results := by
  have haccepted : ∀ os : List ShardOutcome, (os.map some).filterMap id = os := by
    intro os
    rw [List.filterMap_map]
    exact List.filterMap_some
  rw [runReport, haccepted] at h ⊢
  rw [hreduce]
  split at h
  · cases h
  · split at h
    · cases h
    · rename_i rows hrows hcap
      cases h
      simp only [if_neg hcap]
      exact ⟨_, rfl, rfl⟩

private theorem reduce_serves (hhonest : host.Honest env.toSerdeJson store q) {live : List Shard}
    {outcomes : List ShardOutcome}
    (hall : List.Forall₂ (Serves env host config q hosts) live outcomes) :
    outcomes.map (·.shardPartial) =
      live.map fun s => q.mapShard env.toSerdeJson (store s.cid) :=
  map_shardPartial hall fun _ _ ho => mapOneShard_honest hhonest ho

private theorem exists_serves {live : List Shard}
    (h : ∀ s ∈ live, ∃ o, Serves env host config q hosts s o) :
    ∃ outcomes, List.Forall₂ (Serves env host config q hosts) live outcomes := by
  induction live with
  | nil => exact ⟨[], .nil⟩
  | cons s live ih =>
      obtain ⟨o, ho⟩ := h s List.mem_cons_self
      obtain ⟨outcomes, hall⟩ := ih fun t ht => h t (List.mem_cons_of_mem _ ht)
      exact ⟨o :: outcomes, .cons ho hall⟩

/-- A run that reports without statistics reports the same rows with them. -/
theorem run_ok_of_withoutStats (hhonest : host.Honest env.toSerdeJson store q)
    (hstats : ∀ s ∈ shards, s.StatsOf store) (hnone : ∀ s ∈ shards, s.NoneMisled store q)
    (hdeadline : config.deadline = none) {clock clock' : Nat → Nat → Nat}
    {order order' : List Nat} {r : Exit RunReport} {report' : RunReport}
    (hrun' : run env host config q clock' (shards.map Shard.withoutStats) hosts order' =
      some (.ok report'))
    (hrun : run env host config q clock shards hosts order = some r) :
    ∃ report, r = .ok report ∧ report.results = report'.results := by
  have hreduce : reduce q.aggregates ((liveShards q shards).map fun s =>
      q.mapShard env.toSerdeJson (store s.cid)) = _ := reduce_liveShards hstats hnone
  obtain ⟨exit, hentry', hentry⟩ | ⟨hall, hentry⟩ := runEntry_withoutStats env config q shards hosts
  · rw [run, hentry'] at hrun'
    rw [run, hentry] at hrun
    cases hrun
    exact ⟨report', Option.some.inj hrun', rfl⟩
  · obtain ⟨outcomes', hserves', hreport'⟩ | ⟨e, herror, _⟩ := run_serves_cases hdeadline hall hrun'
    · have hpartials' := reduce_serves hhonest hserves'
      rw [List.map_map] at hpartials'
      have hreduce' : reduce q.aggregates ((liveShards q shards).map fun s =>
          q.mapShard env.toSerdeJson (store s.cid)) =
            reduce q.aggregates (outcomes'.map (·.shardPartial)) := by
        rw [hreduce, hpartials']
        rfl
      obtain hentry | ⟨hentry, hlive⟩ := hentry
      · obtain ⟨outcomes, hserves, hr⟩ | ⟨e, _, hfails⟩ := run_serves_cases hdeadline hentry hrun
        · rw [hr]
          refine runReport_congr ?_ hreport'.symm
          rw [reduce_serves hhonest hserves, hreduce']
        · refine absurd (exists_serves ?_) hfails
          intro s hs
          obtain ⟨o, _, ho⟩ := Codec.exists_mem_of_forall₂ hserves'
            (List.mem_map_of_mem (f := Shard.withoutStats) (List.mem_filter.mp hs).1)
          exact ⟨o, (mapOneShard_withoutStats hhonest _ s _).symm.trans ho⟩
      · rw [hlive] at hreduce'
        rw [run, hentry] at hrun
        obtain ⟨rows', hrows', hresults'⟩ := runReport_results hreport'.symm
        rw [← hreduce'] at hrows'
        have hempty : (Partial.empty q.aggregates).finalize env.toSerdeJson = some rows' := hrows'
        rw [emptyReport, hempty] at hrun
        cases hrun
        exact ⟨_, rfl, hresults'.symm⟩
    · cases herror

end Run

/-! ## Projection runs -/

section RunProjection

variable {env : Externals} {host : MapHost} {config : RunConfig} {q : Query}
variable {clock : Nat → Nat → Nat} {shards : List Shard} {hosts : List String}

/-- The shard is served whichever slot it is given. -/
def Shard.Projected (env : Externals) (host : MapHost) (config : RunConfig) (q : Query)
    (clock : Nat → Nat → Nat) (hosts : List String) (s : Shard) : Prop :=
  ∀ i, ∃ o, projectOneShard host config q (clock i)
    { shard := s, rankedHosts := rankHosts env.score s.cid hosts } = .ok o

theorem projectOneShard_projects {store : String → List Row} (hhost : host.Projects store q)
    {clock : Nat → Nat} {task : ShardTask} {o : ProjectOutcome}
    (h : projectOneShard host config q clock task = .ok o) :
    o.rows = q.projectShard (store task.shard.cid) := by
  have hwalk : ∀ (ranked : List String) (attempts : Nat) (lastErr : Option MapError),
      projectWalk host config q task.shard task.rankedHosts.length clock ranked attempts lastErr =
        .ok o → o.rows = q.projectShard (store task.shard.cid) := by
    intro ranked
    induction ranked with
    | nil =>
        intro attempts lastErr h
        rw [projectWalk] at h
        split at h <;> cases h
    | cons hostId rest ih =>
        intro attempts lastErr h
        rw [projectWalk] at h
        split at h
        · cases h
        · split at h
          · cases h
          · split at h
            · rename_i rows hrows
              cases h
              exact hhost hostId task.shard rows hrows
            · exact ih _ _ h
  exact hwalk _ _ _ h

theorem projectOneShard_withoutStats {store : String → List Row}
    (hhonest : host.Honest env.toSerdeJson store q) (clock : Nat → Nat) (s : Shard)
    (rankedHosts : List String) :
    projectOneShard host config q clock { shard := s.withoutStats, rankedHosts } =
      projectOneShard host config q clock { shard := s, rankedHosts } := by
  have hwalk : ∀ (ranked : List String) (attempts : Nat) (lastErr : Option MapError),
      projectWalk host config q s.withoutStats rankedHosts.length clock ranked attempts lastErr =
        projectWalk host config q s rankedHosts.length clock ranked attempts lastErr := by
    intro ranked
    induction ranked with
    | nil =>
        intro attempts lastErr
        rfl
    | cons hostId rest ih =>
        intro attempts lastErr
        simp only [projectWalk, hhonest.project_withoutStats, ih, Shard.withoutStats_cid]
  exact hwalk _ _ _

/-- The chunks of served shards are their projected rows. -/
theorem map_taskChunk {store : String → List Row} (hhonest : host.Honest env.toSerdeJson store q)
    {live : List Shard} (hserved : ∀ s ∈ live, s.Projected env host config q clock hosts) :
    (runTasks env live hosts).map (taskChunk host config q clock) =
      live.map fun s => .ok (q.projectShard (store s.cid)) := by
  rw [← map_runTasks fun s =>
    (Except.ok (q.projectShard (store s.cid)) : Except RunError (List Row))]
  apply List.map_congr_left
  intro task htask
  obtain ⟨⟨planned, i⟩, hplanned, rfl⟩ := List.mem_map.mp htask
  obtain ⟨s, hs, rfl⟩ := List.mem_map.mp (List.fst_mem_of_mem_zipIdx hplanned)
  obtain ⟨o, ho⟩ := hserved s hs i
  show (projectOneShard host config q (clock i) _).map (·.rows) = _
  rw [ho]
  exact congrArg Except.ok (projectOneShard_projects hhonest.project ho)

/-- The loop is entered with and without statistics alike. -/
theorem projectionEntry_withoutStats (env : Externals) (config : RunConfig) (q : Query)
    (shards : List Shard) (hosts : List String) :
    (∃ exit, projectionEntry env config q (shards.map Shard.withoutStats) hosts = .error exit ∧
        projectionEntry env config q shards hosts = .error exit) ∨
      projectionEntry env config q (shards.map Shard.withoutStats) hosts =
          .ok (shards.map Shard.withoutStats) ∧
        projectionEntry env config q shards hosts = .ok (liveShards q shards) := by
  have hempty : (shards.map Shard.withoutStats).isEmpty = shards.isEmpty := List.isEmpty_map
  unfold projectionEntry
  rw [checkScan_withoutStats, liveShards_withoutStats, hempty]
  cases q.validate with
  | error reason => exact .inl ⟨_, rfl, rfl⟩
  | ok _ =>
      simp only
      split
      · exact .inl ⟨_, rfl, rfl⟩
      · split
        · exact .inl ⟨_, rfl, rfl⟩
        · split
          · exact .inl ⟨_, rfl, rfl⟩
          · split
            · exact .inl ⟨_, rfl, rfl⟩
            · exact .inl ⟨_, rfl, rfl⟩
            · exact .inr ⟨rfl, rfl⟩

/-- The live shards bring the rows of all of them. -/
private theorem filter_chunks {store : String → List Row}
    (hstats : ∀ s ∈ shards, s.StatsOf store) (hnone : ∀ s ∈ shards, s.NoneMisled store q) :
    ((liveShards q shards).map fun s =>
        (Except.ok (q.projectShard (store s.cid)) : Except RunError (List Row))).filter
          (fun c => !idleChunk c) =
      (shards.map fun s => Except.ok (q.projectShard (store s.cid))).filter
        fun c => !idleChunk c := by
  induction shards with
  | nil => rfl
  | cons s shards ih =>
      have hrest := ih (fun t ht => hstats t (List.mem_cons_of_mem _ ht))
        fun t ht => hnone t (List.mem_cons_of_mem _ ht)
      cases hlive : shardCanMatch s.stats q.predicate with
      | true =>
          rw [liveShards_cons_of_pos hlive, List.map_cons, List.map_cons, List.filter_cons,
            List.filter_cons, hrest]
      | false =>
          have hidle := eval_eq_false_of_pruned (hstats s List.mem_cons_self)
            (hnone s List.mem_cons_self) hlive
          have hnil : q.projectShard (store s.cid) = [] := projectShard_eq_nil hidle
          rw [liveShards_cons_of_neg hlive, List.map_cons, hnil,
            List.filter_cons_of_neg (by simp [idleChunk])]
          exact hrest

/-- A projection can return the same rows with and without statistics. -/
theorem runProjection_rows_withoutStats {store : String → List Row}
    (hhonest : host.Honest env.toSerdeJson store q) (hstats : ∀ s ∈ shards, s.StatsOf store)
    (hnone : ∀ s ∈ shards, s.NoneMisled store q)
    (hserved : ∀ s ∈ shards, s.Projected env host config q clock hosts) (rows : List Row) :
    (∃ order report, runProjection env host config q clock shards hosts order = some (.ok report) ∧
        report.rows = rows) ↔
      ∃ order report, runProjection env host config q clock (shards.map Shard.withoutStats) hosts
        order = some (.ok report) ∧ report.rows = rows := by
  obtain ⟨exit, hentry', hentry⟩ | ⟨hentry', hentry⟩ :=
    projectionEntry_withoutStats env config q shards hosts
  · simp only [runProjection, hentry, hentry']
  · rw [runProjection_rows_iff hentry, runProjection_rows_iff hentry', map_taskChunk hhonest,
      map_taskChunk hhonest]
    · have hwidth : 0 < max config.maxInFlight 1 :=
        Nat.lt_of_lt_of_le Nat.one_pos (Nat.le_max_right _ _)
      apply gathers_iff_of_idle hwidth (by simp) (by simp)
      rw [filter_chunks hstats hnone, List.map_map]
      rfl
    · intro s hs i
      obtain ⟨t, ht, rfl⟩ := List.mem_map.mp hs
      obtain ⟨o, ho⟩ := hserved t ht i
      exact ⟨o, (projectOneShard_withoutStats hhonest _ t _).trans ho⟩
    · intro s hs
      exact hserved s (List.mem_filter.mp hs).1

end RunProjection

/-- Skipping a shard loses no accepted row exactly if none of its rows is misled.
Where no shard has a misled row, runs with and without statistics return the
same rows. -/
theorem pruning_sound_iff (rows : List Row) (predicate : Predicate) :
    (((∃ row ∈ rows, predicate.eval row = true) →
        shardCanMatch (some (computeStats rows)) predicate = true) ↔
      ∀ row ∈ rows, ¬Misled rows row predicate) ∧
    ∀ (env : Externals) (host : MapHost) (config : RunConfig) (q : Query)
      (store : String → List Row) (shards : List Shard) (hosts : List String),
      host.Honest env.toSerdeJson store q → (∀ s ∈ shards, s.StatsOf store) →
      (∀ s ∈ shards, s.NoneMisled store q) →
        (∀ clock clock' order order' report report',
          run env host config q clock shards hosts order = some (.ok report) →
          run env host config q clock' (shards.map Shard.withoutStats) hosts order' =
            some (.ok report') →
          report.results = report'.results) ∧
        (config.deadline = none → ∀ clock clock' order order' r report',
          run env host config q clock' (shards.map Shard.withoutStats) hosts order' =
            some (.ok report') →
          run env host config q clock shards hosts order = some r →
          ∃ report, r = .ok report ∧ report.results = report'.results) ∧
        ∀ clock, (∀ s ∈ shards, s.Projected env host config q clock hosts) → ∀ returned,
          (∃ order report,
              runProjection env host config q clock shards hosts order = some (.ok report) ∧
              report.rows = returned) ↔
            ∃ order report,
              runProjection env host config q clock (shards.map Shard.withoutStats) hosts order =
                some (.ok report) ∧ report.rows = returned := by
  refine ⟨shardCanMatch_sound_iff rows predicate, ?_⟩
  intro env host config q store shards hosts hhonest hstats hnone
  refine ⟨?_, ?_, ?_⟩
  · intro clock clock' order order' report report'
    exact run_results_withoutStats hhonest hstats hnone
  · intro hdeadline clock clock' order order' r report'
    exact run_ok_of_withoutStats hhonest hstats hnone hdeadline
  · intro clock hserved returned
    exact runProjection_rows_withoutStats hhonest hstats hnone hserved returned

/-- A row whose cell `"10"` passes `a < "9"` as text is dropped with its shard: as
numbers the statistics rule the filter out. -/
theorem pruning_drops_row :
    ¬((∃ row ∈ [(Std.ExtTreeMap.insert ∅ "a" (.string "10") : Row)],
        (Predicate.cmp "a" .lt (.string "9")).eval row = true) →
      shardCanMatch (some (computeStats [Std.ExtTreeMap.insert ∅ "a" (.string "10")]))
        (.cmp "a" .lt (.string "9")) = true) := by
  intro hsound
  have hkept := hsound ⟨_, List.mem_singleton_self _, by decide⟩
  exact absurd hkept (by decide)

private def smallAndLarge : String → List Row
  | "s0" => [Std.ExtTreeMap.insert ∅ "a" (.ofU64 U64.one)]
  | "s1" => [Std.ExtTreeMap.insert ∅ "a" (.ofU64 (U64.wrap 10))]
  | _ => []

private def localHost : MapHost where
  map _ shard q := .ok (q.mapShard .sample (smallAndLarge shard.cid))
  project _ shard q := .ok (q.projectShard (smallAndLarge shard.cid))

private def largeCount : Query where
  dataset := "t"
  aggregates := [.count]
  predicate := .cmp "a" .gt (.ofU64 (U64.wrap 5))
  groupBy := []
  orderBy := []
  limit := none
  projection := none

private def analysedShards : List Shard :=
  ["s0", "s1"].map fun cid =>
    { cid
      rows := U64.one
      bytes := U64.zero
      stats := some (computeStats (smallAndLarge cid)) }

/-- Counting the large numbers skips the first shard and counts as without
statistics. -/
theorem pruning_sound_iff_two_shards : ∃ r r',
    run .sample localHost .twoAtATime largeCount (fun _ _ => 0) analysedShards ["host0"] [0] =
        some (.ok r) ∧
      run .sample localHost .twoAtATime largeCount (fun _ _ => 0)
        (analysedShards.map Shard.withoutStats) ["host0"] [0, 0] = some (.ok r') ∧
      r.results = r'.results := by
  refine ⟨_, _, rfl, rfl, ?_⟩
  have hhonest : localHost.Honest .sample smallAndLarge largeCount :=
    ⟨fun _ _ _ h => (Except.ok.inj h).symm, fun _ _ _ h => (Except.ok.inj h).symm,
      fun _ _ => rfl, fun _ _ => rfl⟩
  have hstats : ∀ s ∈ analysedShards, s.StatsOf smallAndLarge := by
    intro s hs
    obtain ⟨cid, _, rfl⟩ := List.mem_map.mp hs
    exact fun st hst => (Option.some.inj hst).symm
  have hnone : ∀ s ∈ analysedShards, s.NoneMisled smallAndLarge largeCount := by
    rintro s _ row _ ⟨_, _, _, hvalue, _⟩
    cases hvalue
  exact ((pruning_sound_iff [] .true).2 .sample localHost .twoAtATime largeCount smallAndLarge
    analysedShards ["host0"] hhonest hstats hnone).1 (fun _ _ => 0) (fun _ _ => 0) [0] [0, 0] _ _
    rfl rfl

end CeQuery
