import CeQuery.Engine.Contacts
import CeQuery.Engine.LyingHost
import CeQuery.Engine.Majority
import CeQuery.Engine.PrunedRun
import CeQuery.Rendezvous

/-!
# Runs in spite of faulty hosts

Hosts fail in two ways: they do not answer, or they lie. When no host lies, a run ends
as if the live shards had been mapped in place, exactly if each of them has a host
that answers among those it may be asked of (`run_crash_faults`). Which hosts these
are, how often a shard fails over and in which order the tasks complete does not
show in the answer.

Against liars the copies are counted. A quorum larger than the number of liars
contains an honest copy, and when the liars can be spared it is also reached
(`run_outvotes_liars`).
-/

namespace CeQuery

/-- The hosts that a shard may be asked of: its ranking up to the attempt cap. -/
def askedHosts (env : Externals) (config : RunConfig) (hosts : List String) (s : Shard) :
    List String :=
  (rankHosts env.score s.cid hosts).take (max config.maxAttemptsPerShard 1)

/-- The task of a shard in a run. -/
def rankedTo (env : Externals) (hosts : List String) (s : Shard) : ShardTask where
  shard := s
  rankedHosts := rankHosts env.score s.cid hosts

/-- The output rows of a run that reduces these partials. -/
def reducedRows (json : SerdeJson) (q : Query) (partials : List Partial) :
    Option (List GroupResult) :=
  ((reduce q.aggregates partials).finalize json).map q.shape

/-- How a run that reduces these partials ends: with their output rows, unless there are
more groups than the configuration allows. -/
def reducedExit (env : Externals) (config : RunConfig) (q : Query) (partials : List Partial) :
    Exit (List GroupResult) :=
  ((reduce q.aggregates partials).finalize env.toSerdeJson).elim .panic fun rows =>
    if config.limits.maxResultGroups ≠ 0 ∧ rows.length > config.limits.maxResultGroups then
      .error (.cost
        { what := "result groups"
          actual := rows.length
          limit := config.limits.maxResultGroups })
    else .ok (q.shape rows)

/-- The end of a run without what it says of the hosts. -/
def Exit.results : Exit RunReport → Exit (List GroupResult)
  | .ok report => .ok report.results
  | .error e => .error e
  | .panic => .panic

/-- The map outputs of the live shards of a table. -/
def Query.mapOutputs (q : Query) (json : SerdeJson) (store : String → List Row)
    (shards : List Shard) : List Partial :=
  (liveShards q shards).map fun s => q.mapShard json (store s.cid)

/-! ## How one shard ends -/

section Refusal

variable {env : Externals} {host : MapHost} {config : RunConfig} {q : Query}
  {clock : Nat → Nat} {hosts : List String} {s : Shard}

/-- The copies that a shard collects. -/
def collected (host : MapHost) (config : RunConfig) (q : Query) (clock : Nat → Nat)
    (task : ShardTask) : List (String × Partial) :=
  (mapContacts host config q clock task).filterMap (answer host q task.shard)

/-- Without a deadline a shard is refused for want of a copy or by the quorum. -/
theorem mapOneShard_refused {task : ShardTask} {e : RunError} (hdeadline : config.deadline = none)
    (h : mapOneShard env host config q clock task = .error e) :
    (∃ last, e = .unserved task.shard.cid task.rankedHosts.length last) ∨
      collected host config q clock task ≠ [] ∧ ∃ reason,
        selectQuorum env.canonical (collected host config q clock task) config.quorum =
          .error reason := by
  have hserved : MapServed env host config q clock task (mapContacts host config q clock task) :=
    mapServed hdeadline
  obtain ⟨w, hwalk, _, hcopies⟩ := hserved.copies
  change w.copies = collected host config q clock task at hcopies
  rw [← hcopies]
  rw [mapOneShard, hwalk] at h
  dsimp only [bind, Except.bind] at h
  split at h
  · cases h
    exact .inl ⟨_, rfl⟩
  · rename_i hsplit
    right
    refine ⟨by simp [hsplit], ?_⟩
    cases hverified : (decide (max config.redundancy 1 > 1) && decide (w.copies.length > 1)) with
    | false =>
        simp only [hverified] at h
        cases h
    | true =>
        simp only [hverified] at h
        cases hchosen : selectQuorum env.canonical w.copies config.quorum with
        | error reason => exact ⟨reason, rfl⟩
        | ok p =>
            rw [hchosen] at h
            cases h

theorem mapContacts_shortest (hdeadline : config.deadline = none) :
    ShortestPrefix (mapAnswers host q s) (max config.redundancy 1)
      (askedHosts env config hosts s) (mapContacts host config q clock (rankedTo env hosts s)) := by
  have hmissing : Walk.init.copies.length < max config.redundancy 1 := by
    change 0 < max config.redundancy 1
    omega
  exact (mapLoop_contacts host q clock hdeadline
    (rankedTo env hosts s).assigned_remaining .init hmissing).1

/-- Enough answers among the hosts that may be asked are collected. -/
theorem le_countP_mapContacts {n : Nat} (hdeadline : config.deadline = none)
    (hredundancy : n ≤ max config.redundancy 1)
    (h : n ≤ (askedHosts env config hosts s).countP (mapAnswers host q s)) :
    n ≤ (mapContacts host config q clock (rankedTo env hosts s)).countP (mapAnswers host q s) := by
  have hshortest : ShortestPrefix (mapAnswers host q s) (max config.redundancy 1)
      (askedHosts env config hosts s) (mapContacts host config q clock (rankedTo env hosts s)) :=
    mapContacts_shortest hdeadline
  obtain hreached | hall := hshortest.reached
  · exact Nat.le_trans hredundancy hreached
  · rw [hall]
    exact h

/-- A shard that no host answers is refused. -/
theorem mapOneShard_unanswered (clock : Nat → Nat) (hdeadline : config.deadline = none)
    (hnone : ∀ hostId ∈ askedHosts env config hosts s, mapAnswers host q s hostId = false) :
    ∃ e, mapOneShard env host config q clock (rankedTo env hosts s) = .error e := by
  have hserved : MapServed env host config q clock (rankedTo env hosts s) _ := mapServed hdeadline
  have hinit : mapContacts host config q clock (rankedTo env hosts s) <+:
      askedHosts env config hosts s := (mapContacts_shortest hdeadline).isPrefix
  obtain ⟨last, hlast⟩ := hserved.unserved.mpr fun hostId hmem => hnone hostId (hinit.subset hmem)
  exact ⟨_, hlast⟩

end Refusal

/-! ## What a run reduces -/

section Reduce

variable {env : Externals} {host : MapHost} {config : RunConfig} {q : Query}
  {shards live : List Shard} {hosts : List String} {clock : Nat → Nat → Nat} {order : List Nat}
  {honest : Shard → Partial}

theorem mem_runTasks {task : Nat × ShardTask} (h : task ∈ runTasks env live hosts) :
    ∃ s ∈ live, task.2 = rankedTo env hosts s := by
  obtain ⟨⟨planned, i⟩, hplanned, rfl⟩ := List.mem_map.mp h
  obtain ⟨s, hs, rfl⟩ := List.mem_map.mp (List.fst_mem_of_mem_zipIdx hplanned)
  exact ⟨s, hs, rfl⟩

theorem exists_task (env : Externals) (hosts : List String) {s : Shard} (h : s ∈ live) :
    ∃ task ∈ runTasks env live hosts, task.2 = rankedTo env hosts s := by
  have hplanned : rankedTo env hosts s ∈ plan env.score live hosts := List.mem_map_of_mem h
  obtain ⟨i, hi⟩ := List.mem_iff_getElem?.mp hplanned
  refine ⟨(i, rankedTo env hosts s), List.mem_of_getElem? (i := i) ?_, rfl⟩
  rw [getElem?_runTasks, hi, Option.map_some]

/-- The partials of the outcomes, when each shard can have one only. -/
theorem map_outcomes {outcomes : List ShardOutcome}
    (h : ∀ s ∈ live, ∀ clock o, mapOneShard env host config q clock (rankedTo env hosts s) = .ok o →
      o.shardPartial = honest s)
    (hall : List.Forall₂ (fun task o => mapOneShard env host config q (clock task.1) task.2 = .ok o)
      (runTasks env live hosts) outcomes) :
    outcomes.map (·.shardPartial) = live.map honest := by
  rw [← map_runTasks honest live, ← List.forall₂_eq_eq_eq, List.forall₂_map_left_iff,
    List.forall₂_map_right_iff]
  have hmem : ∀ task ∈ runTasks env live hosts, ∃ s ∈ live, task.2 = rankedTo env hosts s :=
    fun _ => mem_runTasks
  refine (List.Forall₂.imp ?_ ((List.forall₂_and_left _ _).mpr ⟨hmem, hall⟩)).flip
  rintro task o ⟨⟨s, hs, htask⟩, ho⟩
  change o.shardPartial = honest task.2.shard
  rw [htask] at ho ⊢
  exact h s hs _ o ho

/-- What a run reports is the reduce of the partials that its live shards can have. -/
theorem run_reduces {report : RunReport}
    (h : ∀ s ∈ liveShards q shards, ∀ clock o,
      mapOneShard env host config q clock (rankedTo env hosts s) = .ok o →
        o.shardPartial = honest s)
    (hrun : run env host config q clock shards hosts order = some (.ok report)) :
    reducedRows env.toSerdeJson q ((liveShards q shards).map honest) = some report.results := by
  obtain ⟨outcomes, rows, hall, hrows, hresults⟩ := run_outcomes hrun
  rw [map_outcomes h hall] at hrows
  rw [reducedRows, hrows, hresults, Option.map_some]

theorem runReport_results_eq (outcomes : List ShardOutcome) :
    (runReport env config q (outcomes.map some)).results =
      reducedExit env config q (outcomes.map (·.shardPartial)) := by
  have haccepted : (outcomes.map some).filterMap id = outcomes := by
    rw [List.filterMap_map]
    exact List.filterMap_some
  rw [runReport, haccepted, reducedExit]
  split
  · rename_i hrows
    rw [hrows]
    rfl
  · rename_i rows hrows
    rw [hrows, Option.elim_some]
    split <;> rfl

/-- A run whose live shards are all served reports, or finds more groups than it may. -/
theorem run_exit {r : Exit RunReport}
    (hentry : runEntry env config q shards hosts = .ok live)
    (hserved : ∀ s ∈ live, ∀ clock, ∃ o,
      mapOneShard env host config q clock (rankedTo env hosts s) = .ok o ∧
        o.shardPartial = honest s)
    (hrun : run env host config q clock shards hosts order = some r) :
    r.results = reducedExit env config q (live.map honest) := by
  obtain ⟨outcomes, hall, rfl⟩ | ⟨e, rfl, task, htask, herror⟩ := run_cases hentry hrun
  · rw [runReport_results_eq, map_outcomes ?_ hall]
    intro s hs clock o ho
    obtain ⟨o', ho', hpartial⟩ := hserved s hs clock
    rw [ho] at ho'
    cases ho'
    exact hpartial
  · obtain ⟨s, hs, hranked⟩ := mem_runTasks htask
    obtain ⟨o, ho, _⟩ := hserved s hs (clock task.1)
    rw [hranked, ho] at herror
    cases herror

end Reduce

/-! ## Hosts that do not answer -/

section Crash

variable {env : Externals} {host : MapHost} {config : RunConfig} {q : Query}
  {hosts : List String} {s : Shard} {honest : Partial}

theorem quorumNeed_le (collected quorum : Nat) : quorumNeed collected quorum ≤ collected := by
  rw [quorumNeed]
  split <;> omega

/-- Copies that are all equal and can be printed form one group. -/
theorem length_copyGroup_of_eq {canonical : Partial → Option String}
    {copies : List (String × Partial)} {text : String} (htext : canonical honest = some text)
    (h : ∀ c ∈ copies, c.2 = honest) :
    (copyGroup canonical copies text).length = copies.length := by
  rw [copyGroup, List.filter_eq_self.mpr, List.length_zipIdx]
  intro c hc
  rw [decide_eq_true_iff, copyKey, h c.1 (List.fst_mem_of_mem_zipIdx hc), htext, Option.getD_some]

/-- A quorum is found if some group is large enough. -/
theorem exists_selectQuorum {canonical : Partial → Option String}
    {copies : List (String × Partial)} {quorum : Nat} {key : String} (hne : copies ≠ [])
    (h : quorumNeed copies.length quorum ≤ (copyGroup canonical copies key).length) :
    ∃ p, selectQuorum canonical copies quorum = .ok p := by
  have hneed : 0 < quorumNeed copies.length quorum := quorumNeed_pos (List.length_pos_iff.mpr hne)
  have hentry := @getElem?_groupCopies canonical copies key
  cases hgroup : copyGroup canonical copies key with
  | nil =>
      rw [hgroup, List.length_nil] at h
      omega
  | cons first rest =>
      rw [hgroup] at h hentry
      have hmem := List.mem_map_of_mem (f := Prod.snd)
        (Std.ExtTreeMap.mem_toList_iff_getElem?_eq_some.mpr hentry)
      rw [selectQuorum, if_neg (by rwa [List.isEmpty_iff])]
      cases hbest : bestAgreement (groupCopies canonical copies) with
      | none =>
          rw [maxBy_eq_none.mp hbest] at hmem
          cases hmem
      | some group =>
          have hmost := notAfter_compareAgreements.mp (notAfter_maxBy hbest _ hmem)
          rw [List.length_cons] at h
          dsimp only at hmost ⊢
          rw [if_pos (by omega)]
          exact ⟨_, rfl⟩

theorem mem_rankHosts {hostId : String} (h : hostId ∈ rankHosts env.score s.cid hosts) :
    hostId ∈ hosts := by
  rw [rankHosts_eq_ranked] at h
  exact (ranked_perm _ hosts).mem_iff.mp h

theorem mem_hosts_of_contacted {clock : Nat → Nat} {hostId : String}
    (hdeadline : config.deadline = none)
    (h : hostId ∈ mapContacts host config q clock (rankedTo env hosts s)) : hostId ∈ hosts :=
  mem_rankHosts (List.mem_of_mem_take ((mapContacts_shortest hdeadline).isPrefix.subset h))

/-- The partial of an outcome is what some host has answered. -/
theorem mapOneShard_answered {clock : Nat → Nat} {task : ShardTask} {o : ShardOutcome}
    (h : mapOneShard env host config q clock task = .ok o) :
    ∃ hostId ∈ task.rankedHosts, host.map hostId task.shard q = .ok o.shardPartial := by
  obtain ⟨tried, rest, first, others, htrace⟩ := mapOneShard_ok h
  have hcopy : ∀ c ∈ first :: others,
      c.1 ∈ task.rankedHosts ∧ host.map c.1 task.shard q = .ok c.2 := by
    intro c hc
    rw [← htrace.copies, mem_answers] at hc
    exact ⟨htrace.tried_sublist.subset hc.1, hc.2⟩
  have hchosen := htrace.chosen
  split at hchosen
  · obtain ⟨c, hc, hpartial⟩ := selectQuorum_mem hchosen
    exact ⟨c.1, hpartial ▸ hcopy c hc⟩
  · rw [hchosen]
    exact ⟨first.1, hcopy first List.mem_cons_self⟩

/-- A shard whose hosts do not lie is refused only if none of those it may be asked of
answers. -/
theorem mapOneShard_crashed {clock : Nat → Nat} {e : RunError} (hdeadline : config.deadline = none)
    (hhonest : ∀ hostId ∈ hosts, ∀ p, host.map hostId s q = .ok p → p = honest)
    (hprints : (env.canonical honest).isSome = true)
    (h : mapOneShard env host config q clock (rankedTo env hosts s) = .error e) :
    (∀ hostId ∈ askedHosts env config hosts s, mapAnswers host q s hostId = false) ∧
      ∃ last, e = .unserved s.cid (rankHosts env.score s.cid hosts).length last := by
  obtain ⟨last, rfl⟩ | ⟨hne, reason, hreason⟩ := mapOneShard_refused hdeadline h
  · have hnone : ∀ hostId ∈ mapContacts host config q clock (rankedTo env hosts s),
        mapAnswers host q s hostId = false := (mapServed hdeadline).unserved.mp ⟨last, h⟩
    refine ⟨?_, last, rfl⟩
    intro hostId hasked
    by_contra hanswers
    have hone : 1 ≤ (askedHosts env config hosts s).countP (mapAnswers host q s) :=
      List.countP_pos_iff.mpr ⟨hostId, hasked, eq_true_of_ne_false hanswers⟩
    have hcontacted : 1 ≤ (mapContacts host config q clock (rankedTo env hosts s)).countP
        (mapAnswers host q s) := le_countP_mapContacts hdeadline (Nat.le_max_right _ 1) hone
    obtain ⟨contact, hmem, hcontact⟩ := List.countP_pos_iff.mp hcontacted
    rw [hnone contact hmem] at hcontact
    cases hcontact
  · obtain ⟨text, htext⟩ := Option.isSome_iff_exists.mp hprints
    have hcopies : ∀ c ∈ collected host config q clock (rankedTo env hosts s), c.2 = honest :=
      fun c hc => hhonest c.1 (mem_hosts_of_contacted hdeadline (mem_answers.mp hc).1) c.2
        (mem_answers.mp hc).2
    have hgroup := length_copyGroup_of_eq htext hcopies
    obtain ⟨p, hp⟩ := exists_selectQuorum hne
      (Nat.le_trans (quorumNeed_le _ config.quorum) hgroup.ge)
    rw [hp] at hreason
    cases hreason

/-- A shard is served if a host answers that it may be asked of and no host lies. -/
theorem mapOneShard_asked (hdeadline : config.deadline = none)
    (hhonest : ∀ hostId ∈ hosts, ∀ p, host.map hostId s q = .ok p → p = honest)
    (hprints : (env.canonical honest).isSome = true)
    (hasked : ∃ hostId ∈ askedHosts env config hosts s, mapAnswers host q s hostId = true)
    (clock : Nat → Nat) :
    ∃ o, mapOneShard env host config q clock (rankedTo env hosts s) = .ok o ∧
      o.shardPartial = honest := by
  cases ho : mapOneShard env host config q clock (rankedTo env hosts s) with
  | error e =>
      obtain ⟨hostId, hmem, hanswers⟩ := hasked
      have hnone := (mapOneShard_crashed hdeadline hhonest hprints ho).1
      rw [hnone hostId hmem] at hanswers
      cases hanswers
  | ok o =>
      obtain ⟨hostId, hranked, hmap⟩ := mapOneShard_answered ho
      exact ⟨o, rfl, hhonest hostId (mem_rankHosts hranked) _ hmap⟩

end Crash

/-- Without liars a run ends as the live shards reduce, if each of them has a host that
answers among those it may be asked of. Otherwise the run reports one that has none. -/
theorem run_crash_faults {env : Externals} {host : MapHost} {config : RunConfig} {q : Query}
    {store : String → List Row} {shards : List Shard} {hosts : List String}
    {clock : Nat → Nat → Nat} {order : List Nat} {r : Exit RunReport}
    (hdeadline : config.deadline = none)
    (hentry : runEntry env config q shards hosts = .ok (liveShards q shards))
    (hhonest : ∀ s ∈ liveShards q shards, ∀ hostId ∈ hosts, ∀ p,
      host.map hostId s q = .ok p → p = q.mapShard env.toSerdeJson (store s.cid))
    (hprints : ∀ s ∈ liveShards q shards,
      (env.canonical (q.mapShard env.toSerdeJson (store s.cid))).isSome = true)
    (hrun : run env host config q clock shards hosts order = some r) :
    ((∀ s ∈ liveShards q shards, ∃ hostId ∈ askedHosts env config hosts s,
        mapAnswers host q s hostId = true) →
      r.results = reducedExit env config q (q.mapOutputs env.toSerdeJson store shards)) ∧
    ((∃ s ∈ liveShards q shards, ∀ hostId ∈ askedHosts env config hosts s,
        mapAnswers host q s hostId = false) →
      ∃ s ∈ liveShards q shards,
        (∀ hostId ∈ askedHosts env config hosts s, mapAnswers host q s hostId = false) ∧
          ∃ last, r = .error (.unserved s.cid (rankHosts env.score s.cid hosts).length last)) := by
  constructor
  · intro hasked
    refine run_exit hentry ?_ hrun
    exact fun s hs => mapOneShard_asked hdeadline (hhonest s hs) (hprints s hs) (hasked s hs)
  · rintro ⟨s, hs, hnone⟩
    obtain ⟨outcomes, hall, _⟩ | ⟨e, rfl, task, htask, herror⟩ := run_cases hentry hrun
    · obtain ⟨task, htask, hranked⟩ := exists_task env hosts hs
      obtain ⟨o, _, ho⟩ := Codec.exists_mem_of_forall₂ hall htask
      rw [hranked] at ho
      obtain ⟨e, he⟩ := mapOneShard_unanswered (clock task.1) hdeadline hnone
      rw [ho] at he
      cases he
    · obtain ⟨s', hs', hranked⟩ := mem_runTasks htask
      rw [hranked] at herror
      obtain ⟨hnone', last, rfl⟩ :=
        mapOneShard_crashed hdeadline (hhonest s' hs') (hprints s' hs') herror
      exact ⟨s', hs', hnone', last, rfl⟩

private def counting : Query where
  dataset := "t"
  aggregates := [.count]
  predicate := .true
  groupBy := []
  orderBy := []
  limit := none
  projection := none

private def smallTables : String → List Row
  | "s0" => [∅]
  | _ => [∅, ∅]

private def shardPair : List Shard :=
  ["s0", "s1"].map fun cid => { cid, rows := U64.one, bytes := U64.zero, stats := none }

private def trio : List String := ["host0", "host1", "host2"]

/-- The first host does what `first` says, the others map what they are asked for. -/
private def trioHost (first : Except MapError Partial) : MapHost where
  map hostId shard q :=
    if hostId = "host0" then first else .ok (q.mapShard .sample (smallTables shard.cid))
  project _ _ _ := .error .timeout

/-- A configuration that asks for three copies, two of which have to agree. -/
def RunConfig.inThree : RunConfig where
  maxAttemptsPerShard := 3
  maxInFlight := 2
  redundancy := 3
  quorum := 2
  deadline := none
  limits :=
    { maxScanBytes := U64.zero
      maxScanRows := U64.zero
      maxShards := 0
      maxResultGroups := 0 }

/-- With the first host down two shards are counted all the same. -/
theorem run_crash_faults_two_shards : ∃ r,
    run .sample (trioHost (.error .timeout)) .inThree counting (fun _ _ => 0) shardPair trio
        [1, 0] = some r ∧
      r.results = reducedExit .sample .inThree counting
        (counting.mapOutputs .sample smallTables shardPair) := by
  refine ⟨_, rfl, (@run_crash_faults .sample (trioHost (.error .timeout)) .inThree counting
    smallTables shardPair trio (fun _ _ => 0) [1, 0] _ rfl rfl ?_ (by decide +kernel) rfl).1
    (by decide +kernel)⟩
  intro s _ hostId _ p h
  simp only [trioHost] at h
  split at h
  · cases h
  · exact (Except.ok.inj h).symm

/-! ## Hosts that lie -/

/-- Of the hosts only the liars answer anything but the honest partial of the shard, and
no other answer prints like it. -/
structure OnlyLiars (env : Externals) (host : MapHost) (q : Query) (hosts liars : List String)
    (honest : Partial) (s : Shard) : Prop where
  answers : ∀ hostId ∈ hosts, hostId ∉ liars → ∀ p, host.map hostId s q = .ok p → p = honest
  faithful : ∀ hostId ∈ hosts, ∀ p text, host.map hostId s q = .ok p →
    env.canonical p = some text → env.canonical honest = some text → p = honest

section Vote

variable {env : Externals} {copies : List (String × Partial)} {liars : List String}
  {quorum : Nat} {honest : Partial}

/-- The copies of a group come from different hosts. -/
theorem nodup_copyGroup_hosts (canonical : Partial → Option String)
    (hhosts : (copies.map (·.1)).Nodup) (key : String) :
    ((copyGroup canonical copies key).map (·.1.1)).Nodup := by
  have hall : (copies.zipIdx.map (·.1.1)).Nodup := by
    rw [show (fun c : (String × Partial) × Nat => c.1.1) = Prod.fst ∘ Prod.fst from rfl,
      ← List.map_map, List.zipIdx_map_fst]
    exact hhosts
  exact hall.sublist (List.filter_sublist.map _)

/-- A quorum larger than the number of liars chooses the honest partial. -/
theorem selectQuorum_outvotes {p : Partial} (hprint : env.PrintsObjects)
    (hhosts : (copies.map (·.1)).Nodup) (hneed : liars.length < quorumNeed copies.length quorum)
    (hhonest : ∀ c ∈ copies, c.1 ∉ liars → c.2 = honest)
    (hfaithful : ∀ c ∈ copies, ∀ text, env.canonical c.2 = some text →
      env.canonical honest = some text → c.2 = honest)
    (h : selectQuorum env.canonical copies quorum = .ok p) : p = honest := by
  obtain ⟨key, first, rest, hgroup, rfl, hlength⟩ := selectQuorum_ok h
  have hmem : ∀ c ∈ first :: rest, copies[c.2]? = some c.1 ∧ copyKey env.canonical c = key :=
    fun c hc => mem_copyGroup.mp (hgroup ▸ hc)
  have hvoters := nodup_copyGroup_hosts env.canonical hhosts key
  rw [hgroup] at hvoters
  have hmany : liars.length < ((first :: rest).map (·.1.1)).length := by
    rw [List.length_map, List.length_cons]
    omega
  obtain ⟨voter, hvoter, hnot⟩ := exists_honest_of_length_lt hvoters hmany
  obtain ⟨c, hc, rfl⟩ := List.mem_map.mp hvoter
  obtain ⟨hcopy, hkey⟩ := hmem c hc
  obtain ⟨hfirst, hfirstKey⟩ := hmem first List.mem_cons_self
  have hcHonest := hhonest c.1 (List.mem_of_getElem? hcopy) hnot
  by_cases hsame : first.2 = c.2
  · rw [hsame, hcopy] at hfirst
    rw [← Option.some.inj hfirst, hcHonest]
  · obtain ⟨text, htext, htext'⟩ :=
      canonical_of_copyKey_eq hprint hsame (hfirstKey.trans hkey.symm)
    exact hfaithful first.1 (List.mem_of_getElem? hfirst) text htext (hcHonest ▸ htext')

/-- The honest copies are in one group. -/
theorem length_le_copyGroup_add {text : String} (htext : env.canonical honest = some text)
    (hhosts : (copies.map (·.1)).Nodup) (hhonest : ∀ c ∈ copies, c.1 ∉ liars → c.2 = honest) :
    copies.length ≤ (copyGroup env.canonical copies text).length + liars.length := by
  have hvoters := length_le_honest_add liars hhosts
  have hgroup : (copies.map (·.1)).countP (· ∉ liars) ≤
      (copyGroup env.canonical copies text).length := by
    have hindexed : (copies.map (·.1)).countP (· ∉ liars) =
        copies.zipIdx.countP fun c => decide (c.1.1 ∉ liars) := by
      rw [← List.zipIdx_map_fst 0 copies, List.map_map, List.countP_map]
      simp only [List.zipIdx_map_fst]
      rfl
    rw [hindexed, copyGroup, ← List.countP_eq_length_filter]
    apply List.countP_mono_left
    intro c hc hnot
    rw [decide_eq_true_iff] at hnot ⊢
    rw [copyKey, hhonest c.1 (List.fst_mem_of_mem_zipIdx hc) hnot, htext, Option.getD_some]
  rw [List.length_map] at hvoters
  omega

end Vote

section Liars

variable {env : Externals} {host : MapHost} {config : RunConfig} {q : Query}
  {hosts liars : List String} {s : Shard} {honest : Partial} {clock : Nat → Nat}

theorem nodup_rankHosts (h : hosts.Nodup) : (rankHosts env.score s.cid hosts).Nodup := by
  rw [rankHosts_eq_ranked]
  exact (ranked_perm _ hosts).nodup_iff.mpr h

/-- A shard with more answers than there are liars, if there are any, is served with the
honest partial. -/
theorem mapOneShard_outvotes {o : ShardOutcome} (hprint : env.PrintsObjects)
    (hdistinct : hosts.Nodup) (hliars : OnlyLiars env host q hosts liars honest s)
    (hfew : liars.length < max config.redundancy 1)
    (hquorum : config.quorum = 0 ∨ liars.length < config.quorum)
    (henough : liars ≠ [] →
      liars.length < (askedHosts env config hosts s).countP (mapAnswers host q s))
    (h : mapOneShard env host config q clock (rankedTo env hosts s) = .ok o) :
    o.shardPartial = honest := by
  obtain rfl | hsome := eq_or_ne liars []
  · obtain ⟨hostId, hmem, hmap⟩ := mapOneShard_answered h
    exact hliars.answers hostId (mem_rankHosts hmem) List.not_mem_nil _ hmap
  obtain ⟨tried, rest, first, others, htrace⟩ := mapOneShard_ok h
  have hranking : rankHosts env.score s.cid hosts = tried ++ rest := htrace.ranking
  have hcopies : tried.filterMap (answer host q s) = first :: others := htrace.copies
  have hcopy : ∀ c ∈ first :: others, c.1 ∈ hosts ∧ host.map c.1 s q = .ok c.2 := by
    intro c hc
    rw [← hcopies, mem_answers] at hc
    refine ⟨mem_rankHosts (hranking ▸ List.mem_append_left rest hc.1), hc.2⟩
  have hhonest : ∀ c ∈ first :: others, c.1 ∉ liars → c.2 = honest :=
    fun c hc hnot => hliars.answers c.1 (hcopy c hc).1 hnot c.2 (hcopy c hc).2
  -- more copies than liars: the walk went on until there were enough, or tried all it might
  have hmany : liars.length < (first :: others).length := by
    have htried : (askedHosts env config hosts s).Sublist tried →
        liars.length < (first :: others).length := by
      intro hsublist
      rw [← hcopies, length_answers]
      exact Nat.lt_of_lt_of_le (henough hsome) hsublist.countP_le
    obtain hrest | hcap | hreached := htrace.stopped
    · apply htried
      rw [askedHosts, hranking, hrest, List.append_nil]
      exact List.take_sublist _ _
    · apply htried
      rw [askedHosts, hranking, List.take_append_of_le_length hcap]
      exact List.take_sublist _ _
    · exact Nat.lt_of_lt_of_le hfew hreached
  have hchosen := htrace.chosen
  split at hchosen
  · refine selectQuorum_outvotes hprint ?_ ?_ hhonest ?_ hchosen
    · rw [← hcopies]
      exact (nodup_rankHosts hdistinct).sublist
        ((answers_hosts host q s tried).trans htrace.tried_sublist)
    · rw [quorumNeed]
      split <;> omega
    · exact fun c hc text => hliars.faithful c.1 (hcopy c hc).1 c.2 text (hcopy c hc).2
  · rename_i hverified
    have hpos := List.length_pos_iff.mpr hsome
    rw [htrace.verified, not_and_not_right] at hverified
    have hothers := hverified (by omega)
    rw [hothers, List.length_singleton] at hmany
    omega

/-- A shard is served if enough hosts answer for the liars to be spared. -/
theorem mapOneShard_survives (hprint : env.PrintsObjects) (hdistinct : hosts.Nodup)
    (hdeadline : config.deadline = none) (hliars : OnlyLiars env host q hosts liars honest s)
    (hprints : (env.canonical honest).isSome = true) (hquorum : liars.length < config.quorum)
    (hredundancy : config.quorum + liars.length ≤ max config.redundancy 1)
    (henough : config.quorum + liars.length ≤
      (askedHosts env config hosts s).countP (mapAnswers host q s)) :
    ∃ o, mapOneShard env host config q clock (rankedTo env hosts s) = .ok o ∧
      o.shardPartial = honest := by
  have hcollected : config.quorum + liars.length ≤
      (collected host config q clock (rankedTo env hosts s)).length := by
    rw [collected, length_answers]
    exact le_countP_mapContacts hdeadline hredundancy henough
  cases ho : mapOneShard env host config q clock (rankedTo env hosts s) with
  | ok o =>
      exact ⟨o, rfl, mapOneShard_outvotes hprint hdistinct hliars (by omega) (.inr hquorum)
        (fun _ => by omega) ho⟩
  | error e =>
      have hhonest : ∀ c ∈ collected host config q clock (rankedTo env hosts s),
          c.1 ∉ liars → c.2 = honest := by
        intro c hc hnot
        obtain ⟨hmem, hmap⟩ := mem_answers.mp hc
        exact hliars.answers c.1 (mem_hosts_of_contacted hdeadline hmem) hnot c.2 hmap
      have hhosts : ((collected host config q clock (rankedTo env hosts s)).map (·.1)).Nodup := by
        have hinit : (mapContacts host config q clock (rankedTo env hosts s)).Sublist
            (rankHosts env.score s.cid hosts) :=
          (mapContacts_shortest hdeadline).isPrefix.sublist.trans (List.take_sublist _ _)
        exact (nodup_rankHosts hdistinct).sublist ((answers_hosts host q s _).trans hinit)
      obtain ⟨text, htext⟩ := Option.isSome_iff_exists.mp hprints
      have hgroup := length_le_copyGroup_add htext hhosts hhonest
      obtain ⟨last, rfl⟩ | ⟨hne, reason, hreason⟩ := mapOneShard_refused hdeadline ho
      · have hserved : MapServed env host config q clock (rankedTo env hosts s) _ :=
          mapServed hdeadline
        obtain ⟨c, hc⟩ := List.exists_mem_of_length_pos (by omega : 0 < (collected host config q
          clock (rankedTo env hosts s)).length)
        obtain ⟨hmem, hmap⟩ := mem_answers.mp hc
        have hnone : mapAnswers host q s c.1 = false := hserved.unserved.mp ⟨last, ho⟩ c.1 hmem
        have hanswer : answer host q s c.1 = some c := answer_eq_some.mpr ⟨rfl, hmap⟩
        rw [← isSome_answer, hanswer] at hnone
        cases hnone
      · have hneed : quorumNeed (collected host config q clock (rankedTo env hosts s)).length
            config.quorum ≤ (copyGroup env.canonical
              (collected host config q clock (rankedTo env hosts s)) text).length := by
          rw [quorumNeed]
          split <;> omega
        obtain ⟨p, hp⟩ := exists_selectQuorum hne hneed
        rw [hp] at hreason
        cases hreason

end Liars

/-- When fewer hosts lie, if any do, than there must be copies, than have to agree and than
answer for each live shard, a run reports nothing but what the live shards reduce to. When
the liars can moreover be spared, every run without a deadline ends as these reduce. -/
theorem run_outvotes_liars {env : Externals} {host : MapHost} {config : RunConfig} {q : Query}
    {store : String → List Row} {shards : List Shard} {hosts liars : List String}
    (hprint : env.PrintsObjects) (hdistinct : hosts.Nodup)
    (hliars : ∀ s ∈ liveShards q shards,
      OnlyLiars env host q hosts liars (q.mapShard env.toSerdeJson (store s.cid)) s)
    (hfew : liars.length < max config.redundancy 1)
    (hquorum : config.quorum = 0 ∨ liars.length < config.quorum)
    (henough : liars ≠ [] → ∀ s ∈ liveShards q shards,
      liars.length < (askedHosts env config hosts s).countP (mapAnswers host q s)) :
    (∀ clock order report, run env host config q clock shards hosts order = some (.ok report) →
      reducedRows env.toSerdeJson q (q.mapOutputs env.toSerdeJson store shards) =
        some report.results) ∧
    (config.deadline = none → config.quorum ≠ 0 →
      config.quorum + liars.length ≤ max config.redundancy 1 →
      runEntry env config q shards hosts = .ok (liveShards q shards) →
      (∀ s ∈ liveShards q shards,
        (env.canonical (q.mapShard env.toSerdeJson (store s.cid))).isSome = true ∧
          config.quorum + liars.length ≤
            (askedHosts env config hosts s).countP (mapAnswers host q s)) →
      ∀ clock order r, run env host config q clock shards hosts order = some r →
        r.results = reducedExit env config q (q.mapOutputs env.toSerdeJson store shards)) := by
  constructor
  · intro clock order report hrun
    refine run_reduces ?_ hrun
    intro s hs clock o ho
    exact mapOneShard_outvotes hprint hdistinct (hliars s hs) hfew hquorum
      (fun hsome => henough hsome s hs) ho
  · intro hdeadline hset hredundancy hentry hspared clock order r hrun
    refine run_exit hentry ?_ hrun
    intro s hs clock
    exact mapOneShard_survives hprint hdistinct hdeadline (hliars s hs) (hspared s hs).1
      (hquorum.resolve_left hset) hredundancy (hspared s hs).2

private def nineRows : Partial where
  aggregates := [.count]
  groups := Std.ExtTreeMap.insert ∅ [] [.count (U64.wrap 9)]

/-- Two honest hosts outvote a third one that counts nine rows everywhere. -/
theorem run_outvotes_liars_trio : ∃ r,
    run .sample (trioHost (.ok nineRows)) .inThree counting (fun _ _ => 0) shardPair trio [1, 0] =
        some r ∧
      r.results = reducedExit .sample .inThree counting
        (counting.mapOutputs .sample smallTables shardPair) := by
  have hlie : ∀ s ∈ liveShards counting shardPair, Externals.sample.canonical nineRows ≠
      Externals.sample.canonical (counting.mapShard .sample (smallTables s.cid)) := by
    decide +kernel
  have hliars : ∀ s ∈ liveShards counting shardPair, OnlyLiars .sample (trioHost (.ok nineRows))
      counting trio ["host0"] (counting.mapShard .sample (smallTables s.cid)) s := by
    intro s hs
    refine ⟨?_, ?_⟩
    · intro hostId _ hnot p h
      rw [List.mem_singleton] at hnot
      simp only [trioHost, if_neg hnot] at h
      exact (Except.ok.inj h).symm
    · intro hostId _ p text h hlied htext
      simp only [trioHost] at h
      split at h
      · cases h
        exact absurd (hlied.trans htext.symm) (hlie s hs)
      · exact (Except.ok.inj h).symm
  exact ⟨_, rfl, (@run_outvotes_liars .sample (trioHost (.ok nineRows)) .inThree counting
    smallTables shardPair trio ["host0"] sample_printsObjects (by decide) hliars (by decide)
    (.inr (by decide)) fun _ => (by decide +kernel)).2 rfl (by decide) (by decide) rfl
    (by decide +kernel) (fun _ _ => 0) [1, 0] _ rfl⟩

end CeQuery
