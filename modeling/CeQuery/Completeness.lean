import CeQuery.Engine.Accounts
import CeQuery.FirstAnswer
import CeQuery.Hosts

/-!
# When a query prints

What a command prints is right. Whether it prints is up to the hosts and the table: if
there is no deadline and the scan is not too large, an aggregate query prints exactly if
each shard that is read has a host that answers among those it may be asked of, if the
totals are numbers that JSON has, and if there are not too many groups
(`runCmd_prints_iff`). A projection only needs the hosts, and not even all of them if it
may stop early (`runCmd_prints_rows`).
-/

namespace CeQuery

/-- What the parser accepts is valid. -/
theorem Sql.parse_valid {input : String} {q : Query} (h : Sql.parse input = .ok q) :
    q.validate = .ok () := by
  obtain ⟨ts, _, hparsed⟩ := bind_eq_ok_iff.mp h
  obtain ⟨⟨q', rest⟩, _, hchecked⟩ := bind_eq_ok_iff.mp hparsed
  dsimp only at hchecked
  split at hchecked
  · cases hchecked
  · cases hchecked
  · obtain ⟨_, hvalid, heq⟩ := bind_eq_ok_iff.mp hchecked
    cases heq
    cases hcheck : q.validate with
    | error reason =>
        rw [hcheck] at hvalid
        cases hvalid
    | ok _ => rfl

/-- The number of groups that the query has on the rows. -/
def Query.groupCount (q : Query) (serde : SerdeJson) (rows : List Row) : Nat :=
  ((rows.filter fun row => q.predicate.eval row).map (q.groupKey serde)).dedup.length

theorem Query.Lists.length_eq {serde : SerdeJson} {q : Query} {rows : List Row}
    {groups : List GroupResult} (h : q.Lists serde rows groups) :
    groups.length = q.groupCount serde rows := by
  have hperm : (groups.map (·.key)).Perm
      ((rows.filter fun row => q.predicate.eval row).map (q.groupKey serde)).dedup := by
    rw [List.perm_ext_iff_of_nodup h.nodup (List.nodup_dedup _)]
    intro key
    rw [h.keys, List.mem_dedup, List.mem_map]
    simp only [List.mem_filter, and_assoc]
  rw [Query.groupCount, ← hperm.length_eq, List.length_map]

section Run

variable {env : Externals} {host : MapHost} {config : RunConfig} {q : Query}
  {shards : List Shard} {hosts : List String} {clock : Nat → Nat → Nat} {order : List Nat}

/-- Without a deadline a shard is projected exactly if a host answers that it may be asked
of. -/
theorem projectOneShard_ok_iff (hdeadline : config.deadline = none) (clock : Nat → Nat)
    (s : Shard) :
    (∃ o, projectOneShard host config q clock (rankedTo env hosts s) = .ok o) ↔
      ∃ hostId ∈ askedHosts env config hosts s, projectAnswers host q s hostId = true := by
  obtain ⟨hshortest, houtcome⟩ := projectLoop_contacts host q clock hdeadline
    (rankedTo env hosts s).assigned_remaining 0 none
  rw [projectLoop_snd (rankedTo env hosts s).assigned_remaining] at houtcome
  cases hfind : (projectLoop host config q clock (rankedTo env hosts s).assigned 0 none).1.find?
      (projectAnswers host q (rankedTo env hosts s).assigned.shard) with
  | some hostId =>
      rw [hfind] at houtcome
      obtain ⟨rows, _, ho⟩ := houtcome
      exact iff_of_true ⟨_, ho⟩ ⟨hostId,
        hshortest.isPrefix.subset (List.mem_of_find?_eq_some hfind), List.find?_some hfind⟩
  | none =>
      rw [hfind] at houtcome
      obtain ⟨e, he⟩ := houtcome
      refine iff_of_false ?_ ?_
      · rintro ⟨o, ho⟩
        cases he.symm.trans ho
      · rintro ⟨hostId, hmem, hanswers⟩
        obtain hreached | hall := hshortest.reached
        · obtain ⟨contact, hcontact, hanswer⟩ := List.countP_pos_iff.mp hreached
          exact List.find?_eq_none.mp hfind contact hcontact hanswer
        · rw [hall] at hfind
          exact List.find?_eq_none.mp hfind hostId hmem hanswers

theorem projectionEntry_passes (hvalid : q.validate = .ok ()) (hmode : q.isProjection = true)
    (hhosts : hosts ≠ [])
    (hscan : config.limits.checkScan env.overflowChecks shards = some (.ok ())) :
    projectionEntry env config q shards hosts = .ok (liveShards q shards) ∨
      projectionEntry env config q shards hosts = .error (.ok emptyProjection) ∧ shards = [] := by
  have hknown : hosts.isEmpty = false := by simpa using hhosts
  rw [projectionEntry, hvalid]
  simp only [hmode, hknown, hscan]
  split
  · cases ‹(!true) = true›
  · split
    · rename_i hempty
      exact .inr ⟨rfl, List.isEmpty_iff.mp hempty⟩
    · split
      · cases ‹false = true›
      · exact .inl rfl

/-- Without a deadline a projection reports if each live shard has a host that answers, and
unless the collection may stop early, only then. -/
theorem runProjection_reports (hdeadline : config.deadline = none) (hvalid : q.validate = .ok ())
    (hmode : q.isProjection = true) (hhosts : hosts ≠ [])
    (hscan : config.limits.checkScan env.overflowChecks shards = some (.ok ()))
    {r : Exit ProjectionReport}
    (hrun : runProjection env host config q clock shards hosts order = some r) :
    ((∀ s ∈ liveShards q shards, ∃ hostId ∈ askedHosts env config hosts s,
        projectAnswers host q s hostId = true) → ∃ report, r = .ok report) ∧
      (canEarlyStop q = false → (∃ report, r = .ok report) →
        ∀ s ∈ liveShards q shards, ∃ hostId ∈ askedHosts env config hosts s,
          projectAnswers host q s hostId = true) := by
  constructor
  · intro hasked
    rw [runProjection] at hrun
    obtain hentry | ⟨hentry, _⟩ := projectionEntry_passes hvalid hmode hhosts hscan
    · rw [hentry] at hrun
      simp only at hrun
      split at hrun
      · cases hrun
      · rename_i e hfollow
        obtain ⟨finished, task, rest, acc, hperm, _, herror⟩ := Window.interrupted hfollow
        have htask : task ∈ runTasks env (liveShards q shards) hosts :=
          hperm.mem_iff.mp (by simp)
        obtain ⟨s, hs, hranked⟩ := mem_runTasks htask
        obtain ⟨o, ho⟩ := (projectOneShard_ok_iff hdeadline (clock task.1) s).mpr (hasked s hs)
        rw [collect, hranked, ho] at herror
        dsimp only at herror
        split at herror
        · cases herror
        · split at herror
          · split at herror <;> cases herror
          · cases herror
      · exact ⟨_, (Option.some.inj hrun).symm⟩
      · exact ⟨_, (Option.some.inj hrun).symm⟩
    · rw [hentry] at hrun
      exact ⟨_, (Option.some.inj hrun).symm⟩
  · rintro hearly ⟨report, rfl⟩ s hs
    obtain ⟨tasks, outcomes, _, hperm, hall, _⟩ := runProjection_collects hrun
    obtain ⟨task, htask, hranked⟩ := exists_task env hosts hs
    obtain ⟨o, _, ho⟩ := Codec.exists_mem_of_forall₂ hall ((hperm hearly).mem_iff.mpr htask)
    rw [hranked] at ho
    exact (projectOneShard_ok_iff hdeadline (clock task.1) s).mp ⟨o, ho⟩

/-- Every projection run ends, in some completion order. -/
theorem runProjection_exists (env : Externals) (host : MapHost) (config : RunConfig) (q : Query)
    (clock : Nat → Nat → Nat) (shards : List Shard) (hosts : List String) :
    ∃ order r, runProjection env host config q clock shards hosts order = some r := by
  cases hentry : projectionEntry env config q shards hosts with
  | error exit => exact ⟨[], exit, by simp [runProjection, hentry]⟩
  | ok live =>
      obtain ⟨order, result, hfollow⟩ := Window.exists_follow (collect host config q clock)
        (projectionWindow env config live hosts)
      cases result with
      | error left =>
          cases left with
          | error e => exact ⟨order, .error e, by simp [runProjection, hentry, hfollow]⟩
          | ok acc =>
              exact ⟨order, .ok (finishProjection q acc),
                by simp [runProjection, hentry, hfollow]⟩
      | ok acc =>
          exact ⟨order, .ok (finishProjection q acc), by simp [runProjection, hentry, hfollow]⟩

end Run

/-! ## The command -/

section Command

variable {Cap : Type} {iam : IamCore Cap} {env : Externals} {json : JsonText} {node : Node}
  {file : FileRead} {sql : String} {opts : RunOpts} {clock : Nat → Nat → Nat} {order : List Nat}
  {q : Query} {c : Catalog} {d : Dataset}

/-- A query of a dataset of the catalog is run if some host is known. -/
theorem runInputs_of_known (hparse : Sql.parse sql = .ok q)
    (hload : Catalog.load json file = .ok c) (hget : c.datasets[q.dataset]? = some d)
    (hknown : node.known opts.distributed ≠ []) :
    runInputs node file json sql opts = .ok (q, d, node.candidates opts.distributed) ∧
      node.candidates opts.distributed ≠ [] := by
  have hsome : node.candidates opts.distributed ≠ [] := by
    obtain ⟨hostId, hmem⟩ := List.exists_mem_of_ne_nil _ hknown
    exact List.ne_nil_of_mem (Node.mem_candidates.mpr hmem)
  have hrequire : c.require q.dataset = .ok d := by
    rw [Catalog.require, Catalog.get, hget]
  have hsplit : (node.candidates opts.distributed).isEmpty = false := by simpa using hsome
  refine ⟨?_, hsome⟩
  rw [runInputs, hparse, hload, discoverHosts_getD]
  simp only [Except.mapError, bind, Except.bind, hrequire]
  rw [hsplit]
  rfl

theorem printProjection_printed_iff {r : Exit ProjectionReport} :
    (∃ out diagnostics, printProjection d r = .printed out diagnostics) ↔
      ∃ report, r = .ok report := by
  cases r with
  | ok report => exact iff_of_true ⟨_, _, rfl⟩ ⟨report, rfl⟩
  | error e => exact iff_of_false (fun ⟨_, _, h⟩ => nomatch h) fun ⟨_, h⟩ => nomatch h
  | panic => exact iff_of_false (fun ⟨_, _, h⟩ => nomatch h) fun ⟨_, h⟩ => nomatch h

/-- A projection without a deadline ends in some order of completion, and in whatever order
it ends, it prints if each shard that is read has a host that answers among those it may be
asked of. Unless it may stop early at its limit, it prints only then. -/
theorem runCmd_prints_rows (hparse : Sql.parse sql = .ok q) (hprojection : q.isProjection = true)
    (hload : Catalog.load json file = .ok c) (hget : c.datasets[q.dataset]? = some d)
    (hknown : node.known opts.distributed ≠ []) (hdeadline : opts.deadlineMs.val = 0)
    (hscan : opts.limits.checkScan env.overflowChecks d.shards = some (.ok ())) :
    (∃ order exit, runCmd env json node file sql opts clock order = some exit) ∧
      ∀ order exit, runCmd env json node file sql opts clock order = some exit →
        ((∀ s ∈ liveShards q d.shards,
            ∃ hostId ∈ askedHosts env opts.config (node.candidates opts.distributed) s,
              projectAnswers (opts.mapHost env.toSerdeJson json node) q s hostId = true) →
          ∃ out diagnostics, exit = .printed out diagnostics) ∧
        (canEarlyStop q = false → (∃ out diagnostics, exit = .printed out diagnostics) →
          ∀ s ∈ liveShards q d.shards,
            ∃ hostId ∈ askedHosts env opts.config (node.candidates opts.distributed) s,
              projectAnswers (opts.mapHost env.toSerdeJson json node) q s hostId = true) := by
  obtain ⟨hinputs, hhosts⟩ := runInputs_of_known hparse hload hget hknown
  have hrun : ∀ order, runCmd env json node file sql opts clock order =
      (runProjection env (opts.mapHost env.toSerdeJson json node) opts.config q clock d.shards
        (node.candidates opts.distributed) order).map (printProjection d) := by
    intro order
    rw [runCmd, hinputs]
    simp only [hprojection, if_true]
  constructor
  · obtain ⟨order, r, hr⟩ := runProjection_exists env (opts.mapHost env.toSerdeJson json node)
      opts.config q clock d.shards (node.candidates opts.distributed)
    exact ⟨order, _, by rw [hrun, hr, Option.map_some]⟩
  · intro order exit hexit
    rw [hrun] at hexit
    obtain ⟨r, hr, rfl⟩ := Option.map_eq_some_iff.mp hexit
    rw [printProjection_printed_iff]
    exact runProjection_reports (if_pos hdeadline) (Sql.parse_valid hparse) hprojection hhosts
      hscan hr

end Command

/-- One of the hosts that each shard may be asked of is up. -/
private theorem sales_asked {s : Shard} (hs : s ∈ salesShards) (reply : MapReply) :
    "host0" ∈ askedHosts .sample salesOpts.config ((salesNode reply).candidates true) s := by
  have hcandidates : (salesNode reply).candidates true = ["host0", "host1", "host2"] := rfl
  rw [hcandidates]
  obtain rfl | rfl : s = salesShards[0] ∨ s = salesShards[1] := by simpa [salesShards] using hs
  · decide
  · decide

private theorem parse_everyRow : Sql.parse "SELECT * FROM a" = .ok everyRow := by
  have hvalid : everyRow.validate = .ok () := rfl
  have hnamed : Sql.Named everyRow :=
    { dataset := (by decide : Sql.IsName "a")
      aggregates := nofun
      predicate := trivial
      groupBy := nofun
      orderBy := nofun
      projection := by
        rintro _ ⟨⟩ col hcol
        cases hcol }
  have htoks : Sql.QueryToks everyRow
      (.word "SELECT" :: ([.word "*"] ++
        .word "FROM" :: .word "a" :: ([] ++ ([] ++ ([] ++ []))))) :=
    .query (by decide) (.star rfl) (by decide) .absent .absent .absent .absent
  have htext : "SELECT * FROM a".toList =
      [' '].intercalate (["SELECT", "*", "FROM", "a"].map String.toList) := by decide
  refine Sql.parse_toks hvalid hnamed htoks ?_
  rw [htext]
  apply Sql.spaced_intercalate
  repeat' constructor

private theorem salesNode_project {hostId : String} (hup : hostId ≠ "host2") (s : Shard) :
    (salesOpts.mapHost .sample salesTexts (salesNode (.rows Agent.saleRows))).project hostId s
      everyRow = .ok Agent.saleRows := by
  have hsend : (salesOpts.meshHost (salesNode (.rows Agent.saleRows))).send salesTexts hostId s
      everyRow = .ok (.rows Agent.saleRows) := salesNode_send s everyRow hup (by decide) rfl
  change ((salesOpts.meshHost (salesNode (.rows Agent.saleRows))).send salesTexts hostId s
    everyRow).bind MeshMapHost.replyRows = _
  rw [hsend]
  rfl

/-- The rows of the two shards are printed. -/
theorem runCmd_prints_rows_two_shards : ∃ order out diagnostics,
    runCmd .sample salesTexts (salesNode (.rows Agent.saleRows)) salesFile "SELECT * FROM a"
      salesOpts (fun _ _ => 0) order = some (.printed out diagnostics) := by
  obtain ⟨⟨order, exit, hrun⟩, hprints⟩ := @runCmd_prints_rows .sample salesTexts
    (salesNode (.rows Agent.saleRows)) salesFile "SELECT * FROM a" salesOpts (fun _ _ => 0) everyRow
    salesCatalog salesDataset parse_everyRow rfl load_sales salesCatalog_get (by decide) rfl rfl
  have hanswered : ∀ s ∈ liveShards everyRow salesDataset.shards, ∃ hostId ∈ askedHosts .sample
      salesOpts.config ((salesNode (.rows Agent.saleRows)).candidates true) s,
        projectAnswers (salesOpts.mapHost Externals.sample.toSerdeJson salesTexts
          (salesNode (.rows Agent.saleRows))) everyRow s hostId = true := by
    intro s hs
    refine ⟨"host0", sales_asked (List.mem_of_mem_filter hs) _, ?_⟩
    have hproject := salesNode_project (by decide : "host0" ≠ "host2") s
    exact congrArg (fun r => r.toOption.isSome) hproject
  obtain ⟨out, diagnostics, rfl⟩ := (hprints order exit hrun).1 hanswered
  exact ⟨order, out, diagnostics, hrun⟩

end CeQuery
