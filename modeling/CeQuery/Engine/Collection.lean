import CeQuery.Engine.PrunedRun

/-!
# The rows of a projection run

The collection keeps the rows of the tasks it takes, in the order in which they
complete and under the cap (`runProjection_seen`). The tasks it does not take are
those that are left when it stops early, and then the cap is reached. So without an
`ORDER BY` the result has as many of the matching rows as the cap lets through
(`runProjection_unordered`).
-/

namespace CeQuery

/-- The rows of the shards that the filter accepts. -/
def matchingRows (store : String → List Row) (q : Query) (shards : List Shard) : List Row :=
  shards.flatMap fun s => (store s.cid).filter fun row => q.predicate.eval row

/-- These rows, cut down to the selected columns. -/
def projectedRows (store : String → List Row) (q : Query) (shards : List Shard) : List Row :=
  shards.flatMap fun s => q.projectShard (store s.cid)

/-- The matching rows of a task. -/
def taskRows (store : String → List Row) (q : Query) (task : Nat × ShardTask) : List Row :=
  (store task.2.shard.cid).filter fun row => q.predicate.eval row

section Collect

variable {env : Externals} {host : MapHost} {config : RunConfig} {q : Query}
variable {clock : Nat → Nat → Nat} {store : String → List Row}
variable {acc acc' : ProjectionReport} {task : Nat × ShardTask} {finished : List (Nat × ShardTask)}

/-- The collection takes an outcome only from a shard that was projected. -/
theorem collect_served {r : Except (Except RunError ProjectionReport) ProjectionReport}
    (h : collect host config q clock acc task = r) (hserved : ∀ e, .error (.error e) ≠ r) :
    ∃ o, projectOneShard host config q (clock task.1) task.2 = .ok o := by
  cases hwork : projectOneShard host config q (clock task.1) task.2 with
  | error e =>
      rw [collect, hwork] at h
      exact absurd h (hserved e)
  | ok o => exact ⟨o, rfl⟩

/-- Collecting a task gathers its matching rows, cut down to the selected columns. -/
theorem gather_collect (hhost : host.Projects store q)
    {r : Except (Except RunError ProjectionReport) ProjectionReport}
    (h : collect host config q clock acc task = r) (hserved : ∀ e, .error (.error e) ≠ r) :
    gather config q acc.rows (.ok ((taskRows store q task).map q.cut)) =
      (r.map (·.rows)).mapError (·.map (·.rows)) := by
  obtain ⟨o, hwork⟩ := collect_served h hserved
  have hrows : o.rows = (taskRows store q task).map q.cut := projectOneShard_projects hhost hwork
  rw [← h, ← gather_taskChunk, taskChunk, hwork, ← hrows]
  rfl

/-- What taking one more task does to the rows. -/
theorem collect_ok (hhost : host.Projects store q)
    (h : collect host config q clock acc task = .ok acc') :
    acc'.rows = capped (collectCap config q) (acc.rows ++ (taskRows store q task).map q.cut) := by
  obtain ⟨htaken, _⟩ | ⟨_, _, _, _, hstopped⟩ := gather_cases (gather_collect hhost h (by simp))
  · exact Except.ok.inj htaken
  · cases hstopped

/-- The collection stops when the cap is reached. -/
theorem collect_stops (hhost : host.Projects store q)
    (h : collect host config q clock acc task = .error (.ok acc')) :
    canEarlyStop q = true ∧ ∃ cap, collectCap config q = some cap ∧
      cap ≤ (acc.rows ++ (taskRows store q task).map q.cut).length ∧
      acc'.rows = (acc.rows ++ (taskRows store q task).map q.cut).take cap := by
  obtain ⟨htaken, _⟩ | ⟨hearly, cap, hcap, hfull, hstopped⟩ :=
    gather_cases (gather_collect hhost h (by simp))
  · cases htaken
  · exact ⟨hearly, cap, hcap, hfull, Except.ok.inj (Except.error.inj hstopped)⟩

/-- The rows after taking tasks are those of all of them, under the cap. -/
theorem collect_foldlM (hhost : host.Projects store q)
    (hcapped : capped (collectCap config q) acc.rows = acc.rows)
    (h : finished.foldlM (collect host config q clock) acc = .ok acc') :
    acc'.rows = capped (collectCap config q)
      (acc.rows ++ (finished.flatMap (taskRows store q)).map q.cut) := by
  induction finished generalizing acc with
  | nil =>
      cases h
      rw [List.flatMap_nil, List.map_nil, List.append_nil, hcapped]
  | cons task finished ih =>
      obtain ⟨acc₁, hfirst, hothers⟩ := foldlM_cons_ok_iff.mp h
      have hrows := collect_ok hhost hfirst
      have hcapped₁ : capped (collectCap config q) acc₁.rows = acc₁.rows := by
        rw [hrows, capped_capped]
      rw [ih hcapped₁ hothers, hrows, capped_append, List.append_assoc, List.flatMap_cons,
        List.map_append]

end Collect

section RunProjection

variable {env : Externals} {host : MapHost} {config : RunConfig} {q : Query}
variable {clock : Nat → Nat → Nat} {store : String → List Row} {shards : List Shard}
variable {hosts : List String} {order : List Nat} {report : ProjectionReport}

theorem flatMap_taskRows (live : List Shard) :
    (runTasks env live hosts).flatMap (taskRows store q) = matchingRows store q live := by
  have htasks : (runTasks env live hosts).map (taskRows store q) =
      live.map fun s => (store s.cid).filter fun row => q.predicate.eval row :=
    map_runTasks (fun s => (store s.cid).filter fun row => q.predicate.eval row) live
  rw [matchingRows, List.flatMap_def, List.flatMap_def, htasks]

/-- The matching rows in the order in which they arrive when every task is awaited. -/
def arrivals (env : Externals) (config : RunConfig) (q : Query) (store : String → List Row)
    (shards : List Shard) (hosts : List String) (order : List Nat) : List Row :=
  (Window.completions order (projectionWindow env config (liveShards q shards) hosts)).flatMap
    (taskRows store q)

theorem finishRows_nil : finishRows q [] = [] := by
  have hsorted : orderRawRows [] q.orderBy = [] := by
    rw [orderRawRows]
    split <;> rfl
  rw [finishRows]
  rw [hsorted]
  cases q.limit with
  | none => rfl
  | some n => exact List.take_nil

/-- A run that is over before a task is started, or whose loop is entered. -/
theorem projectionEntry_cases {entry : Except (Exit ProjectionReport) (List Shard)}
    (h : projectionEntry env config q shards hosts = entry) :
    (∃ e, entry = .error (.error e)) ∨ entry = .error .panic ∨
      shards = [] ∧ entry = .error (.ok emptyProjection) ∨ entry = .ok (liveShards q shards) := by
  unfold projectionEntry at h
  cases hvalid : q.validate with
  | error reason =>
      rw [hvalid] at h
      exact .inl ⟨_, h.symm⟩
  | ok _ =>
      rw [hvalid] at h
      simp only at h
      split at h
      · exact .inl ⟨_, h.symm⟩
      · split at h
        · rename_i hempty
          exact .inr (.inr (.inl ⟨List.isEmpty_iff.mp hempty, h.symm⟩))
        · split at h
          · exact .inl ⟨_, h.symm⟩
          · split at h
            · exact .inr (.inl h.symm)
            · exact .inl ⟨_, h.symm⟩
            · exact .inr (.inr (.inr h.symm))

/-- A collection that stopped has seen as many rows as the cap asks for. -/
theorem interrupted_rows {acc : ProjectionReport} (hhost : host.Projects store q)
    (hfollow : (projectionWindow env config (liveShards q shards) hosts).follow
      (collect host config q clock) order = some (.error (.ok acc))) :
    ∃ seen unseen : List Row,
      (seen ++ unseen).Perm (matchingRows store q (liveShards q shards)) ∧
      acc.rows = capped (collectCap config q) (seen.map q.cut) ∧
      canEarlyStop q = true ∧ ∃ cap, collectCap config q = some cap ∧ cap ≤ seen.length := by
  obtain ⟨finished, task, rest, before, hperm, hfold, hleft⟩ := Window.interrupted hfollow
  obtain ⟨hearly, cap, hcap, hfull, hrows⟩ := collect_stops hhost hleft
  have hbefore : before.rows =
      capped (collectCap config q) ((finished.flatMap (taskRows store q)).map q.cut) :=
    collect_foldlM hhost capped_nil hfold
  refine ⟨(finished ++ [task]).flatMap (taskRows store q), rest.flatMap (taskRows store q),
    ?_, ?_, hearly, cap, hcap, ?_⟩
  · rw [← flatMap_taskRows, ← List.flatMap_append, List.append_assoc]
    exact hperm.flatMap_right _
  · rw [hrows, hbefore, hcap, ← capped_some, capped_append, ← List.map_append,
      List.flatMap_append, List.flatMap_singleton]
  · rw [hbefore, hcap, capped_some] at hfull
    rw [List.flatMap_append, List.flatMap_singleton]
    simp only [List.length_append, List.length_map, List.length_take] at hfull ⊢
    omega

/-- A collection that awaited every task has seen all matching rows. -/
theorem drained_rows {acc : ProjectionReport} (hhost : host.Projects store q)
    (hfollow : (projectionWindow env config (liveShards q shards) hosts).follow
      (collect host config q clock) order = some (.ok acc)) :
    (arrivals env config q store shards hosts order).Perm
        (matchingRows store q (liveShards q shards)) ∧
      acc.rows = capped (collectCap config q)
        ((arrivals env config q store shards hosts order).map q.cut) := by
  have hwidth : 0 < max config.maxInFlight 1 := by omega
  obtain ⟨hperm, hfold⟩ := Window.drained_taken hwidth hfollow
  rw [arrivals, Window.completions_eq_taken hfollow]
  refine ⟨?_, collect_foldlM hhost capped_nil hfold⟩
  rw [← flatMap_taskRows]
  exact hperm.flatMap_right _

/-- What is returned comes from rows that were seen, under the cap, and rows are
unseen only if the collection stopped at the cap. -/
theorem runProjection_seen (hhost : host.Projects store q)
    (hrun : runProjection env host config q clock shards hosts order = some (.ok report)) :
    ∃ seen unseen : List Row,
      (seen ++ unseen).Perm (matchingRows store q (liveShards q shards)) ∧
      report.rows = finishRows q (capped (collectCap config q) (seen.map q.cut)) ∧
      ((unseen = [] ∧ seen = arrivals env config q store shards hosts order) ∨
        canEarlyStop q = true ∧ ∃ cap, collectCap config q = some cap ∧ cap ≤ seen.length) := by
  unfold runProjection at hrun
  obtain ⟨e, hentry⟩ | hentry | ⟨rfl, hentry⟩ | hentry := projectionEntry_cases
    (rfl : projectionEntry env config q shards hosts = _)
  · rw [hentry] at hrun
    cases hrun
  · rw [hentry] at hrun
    cases hrun
  · rw [hentry] at hrun
    cases hrun
    refine ⟨[], [], .refl _, ?_, .inl ⟨rfl, ?_⟩⟩
    · rw [List.map_nil, capped_nil, finishRows_nil]
      rfl
    · exact (congrArg (List.flatMap _) (Window.taken_prime_nil ..)).symm
  · rw [hentry] at hrun
    simp only at hrun
    cases hfollow : (projectionWindow env config (liveShards q shards) hosts).follow
        (collect host config q clock) order with
    | none =>
        rw [hfollow] at hrun
        cases hrun
    | some r =>
        rw [hfollow] at hrun
        obtain (e | acc) | acc := r
        · cases hrun
        · cases hrun
          obtain ⟨seen, unseen, hperm, hrows, hstopped⟩ := interrupted_rows hhost hfollow
          refine ⟨seen, unseen, hperm, ?_, .inr hstopped⟩
          rw [finishProjection_rows, hrows]
        · cases hrun
          obtain ⟨hperm, hrows⟩ := drained_rows hhost hfollow
          refine ⟨arrivals env config q store shards hosts order, [], ?_, ?_, .inl ⟨rfl, rfl⟩⟩
          · rwa [List.append_nil]
          · rw [finishProjection_rows, hrows]

/-- The bound on the rows that a projection without `ORDER BY` returns. -/
def rowCap (config : RunConfig) (q : Query) : Option Nat :=
  (q.limit.map fun n => n.val.toNat).or
    (if config.limits.maxResultGroups = 0 then none else some config.limits.maxResultGroups)

theorem collectCap_unordered (horder : q.orderBy = []) : collectCap config q = rowCap config q := by
  rw [collectCap, rowCap, canEarlyStop]
  cases q.limit with
  | none => rfl
  | some n => simp [horder]

theorem finishRows_unordered (horder : q.orderBy = []) (rows : List Row) :
    finishRows q (capped (rowCap config q) rows) = capped (rowCap config q) rows := by
  rw [finishRows]
  rw [orderRawRows, horder, List.isEmpty_nil, if_pos rfl]
  cases hlimit : q.limit with
  | none => rfl
  | some n =>
      have hcap : rowCap config q = some n.val.toNat := by simp [rowCap, hlimit]
      rw [hcap, capped_some]
      exact List.take_of_length_le (List.length_take_le _ _)

theorem map_cut_matchingRows (live : List Shard) :
    (matchingRows store q live).map q.cut = projectedRows store q live := by
  rw [matchingRows, List.map_flatMap]
  simp only [projectedRows, Query.projectShard_eq]

/-- Without `ORDER BY` matching rows are neither lost nor duplicated: the result is a
part of the projected rows of the shards that are read, as large as the cap allows. -/
theorem runProjection_unordered (hhost : host.Projects store q) (horder : q.orderBy = [])
    (hrun : runProjection env host config q clock shards hosts order = some (.ok report)) :
    report.rows.Subperm (projectedRows store q (liveShards q shards)) ∧
      report.rows.length = (rowCap config q).elim
        (projectedRows store q (liveShards q shards)).length
        (fun cap => min cap (projectedRows store q (liveShards q shards)).length) ∧
      (rowCap config q = none →
        report.rows.Perm (projectedRows store q (liveShards q shards))) := by
  obtain ⟨seen, unseen, hperm, hrows, hrest⟩ := runProjection_seen hhost hrun
  rw [collectCap_unordered horder, finishRows_unordered horder] at hrows
  rw [collectCap_unordered horder] at hrest
  have hall := hperm.map q.cut
  rw [map_cut_matchingRows, List.map_append] at hall
  have hseen : (seen.map q.cut).Subperm (projectedRows store q (liveShards q shards)) :=
    (List.sublist_append_left _ _).subperm.trans hall.subperm
  have hlength := hall.length_eq
  rw [List.length_append, List.length_map, List.length_map] at hlength
  cases hcap : rowCap config q with
  | none =>
      rw [hcap, capped_none] at hrows
      rw [hcap] at hrest
      obtain ⟨rfl, _⟩ | ⟨_, cap, hsome, _⟩ := hrest
      · rw [List.map_nil, List.append_nil] at hall
        rw [hrows]
        exact ⟨hall.subperm, hall.length_eq, fun _ => hall⟩
      · cases hsome
  | some cap =>
      rw [hcap, capped_some] at hrows
      rw [hcap] at hrest
      refine ⟨?_, ?_, nofun⟩
      · rw [hrows]
        exact (List.take_sublist _ _).subperm.trans hseen
      · rw [hrows, List.length_take, List.length_map, Option.elim_some]
        obtain ⟨rfl, _⟩ | ⟨_, cap', hsome, hfull⟩ := hrest
        · rw [List.length_nil] at hlength
          omega
        · cases hsome
          omega

/-! Two shards with three matching rows, of which a limit keeps two. -/

private def smallNumbers : String → List Row
  | "s0" => [Std.ExtTreeMap.insert ∅ "a" (.ofU64 U64.one),
      Std.ExtTreeMap.insert ∅ "a" (.ofU64 (U64.wrap 7))]
  | "s1" => [Std.ExtTreeMap.insert ∅ "a" (.ofU64 (U64.wrap 2)),
      Std.ExtTreeMap.insert ∅ "a" (.ofU64 (U64.wrap 3))]
  | _ => []

private def smallHost : MapHost where
  map _ _ _ := .error .timeout
  project _ shard q := .ok (q.projectShard (smallNumbers shard.cid))

private def twoSmall : Query where
  dataset := "t"
  aggregates := []
  predicate := .cmp "a" .lt (.ofU64 (U64.wrap 5))
  groupBy := []
  orderBy := []
  limit := some ⟨2, by decide, by decide⟩
  projection := some ["a"]

private def smallShards : List Shard :=
  ["s0", "s1"].map fun cid => { cid, rows := U64.zero, bytes := U64.zero, stats := none }

/-- Two of the three rows come back when the second shard completes first. -/
theorem runProjection_unordered_two_shards : ∃ report,
    runProjection .sample smallHost .twoAtATime twoSmall (fun _ _ => 0) smallShards ["host0"]
        [1] = some (.ok report) ∧
      report.rows.Subperm (projectedRows smallNumbers twoSmall smallShards) ∧
      report.rows.length = 2 := by
  obtain ⟨report, hrun⟩ : ∃ report, runProjection .sample smallHost .twoAtATime twoSmall
      (fun _ _ => 0) smallShards ["host0"] [1] = some (.ok report) := ⟨_, rfl⟩
  have hhost : smallHost.Projects smallNumbers twoSmall :=
    fun _ _ _ h => (Except.ok.inj h).symm
  obtain ⟨hpart, hlength, _⟩ := runProjection_unordered hhost rfl hrun
  exact ⟨report, hrun, hpart, hlength⟩

end RunProjection

end CeQuery
