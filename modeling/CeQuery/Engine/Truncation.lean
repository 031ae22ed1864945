import CeQuery.Engine.Deadline
import CeQuery.Engine.TopRows
import Mathlib.Data.List.Flatten

/-!
# The truncation flag

A projection run sets `truncated` when the rows that it has seen are more than the cap
of its collection or the `LIMIT` lets through (`Collected`, `finishProjection_truncated`).
It has seen the rows of the tasks that it awaited: all of them or, with a `LIMIT` and no
`ORDER BY`, those up to the one at which the limit is reached. Of the rows of other shards
it knows nothing, so the flag is exact when it is set, or when there are no such rows
(`truncated_exact_iff`).
-/

namespace CeQuery

/-- There are more than the bound allows. -/
def exceeds (bound : Option Nat) (n : Nat) : Bool :=
  bound.any fun b => b < n

theorem exceeds_zero (bound : Option Nat) : exceeds bound 0 = false := by
  cases bound with
  | none => rfl
  | some n => exact decide_eq_false (Nat.not_lt_zero n)

/-- Under a cap nothing is lost up to the cap. -/
theorem length_capped {α : Type u} (limit : Option Nat) (xs : List α) :
    (exceeds limit xs.length = true → (capped limit xs).length < xs.length) ∧
      (exceeds limit xs.length = false → (capped limit xs).length = xs.length) := by
  cases limit with
  | none => exact ⟨fun h => (by cases h), fun _ => rfl⟩
  | some n =>
      rw [capped_some, List.length_take]
      simp only [exceeds, Option.any_some, decide_eq_true_iff, decide_eq_false_iff_not]
      omega

section Collect

variable {host : MapHost} {config : RunConfig} {q : Query} {clock : Nat → Nat → Nat}
variable {seen : List Row} {acc acc' : ProjectionReport} {task : Nat × ShardTask}
variable {finished : List (Nat × ShardTask)}

/-- The rows that a task brings, if its shard is served. -/
def broughtRows (host : MapHost) (config : RunConfig) (q : Query) (clock : Nat → Nat → Nat)
    (task : Nat × ShardTask) : List Row :=
  match projectOneShard host config q (clock task.1) task.2 with
  | .ok outcome => outcome.rows
  | .error _ => []

theorem broughtRows_of_ok {o : ProjectOutcome}
    (hwork : projectOneShard host config q (clock task.1) task.2 = .ok o) :
    broughtRows host config q clock task = o.rows := by
  rw [broughtRows, hwork]

/-- What the collection holds after it has seen these rows. -/
structure Collected (config : RunConfig) (q : Query) (seen : List Row) (acc : ProjectionReport) :
    Prop where
  rows : acc.rows = capped (collectCap config q) seen
  truncated : acc.truncated = exceeds (collectCap config q) seen.length

theorem Collected.empty : Collected config q [] emptyProjection where
  rows := capped_nil.symm
  truncated := (exceeds_zero _).symm

/-- What taking the rows of a shard does, whether the collection goes on or stops. -/
theorem collect_spec {o : ProjectOutcome}
    (hwork : projectOneShard host config q (clock task.1) task.2 = .ok o)
    (hr : collect host config q clock acc task = .ok acc' ∨
      collect host config q clock acc task = .error (.ok acc')) :
    acc'.rows = capped (collectCap config q) (acc.rows ++ o.rows) ∧
      acc'.truncated =
        (exceeds (collectCap config q) (acc.rows ++ o.rows).length || acc.truncated) := by
  rw [collect, hwork] at hr
  cases hcap : collectCap config q with
  | none =>
      simp only [hcap] at hr
      obtain hr | hr := hr
      · cases hr
        exact ⟨rfl, (Bool.false_or _).symm⟩
      · cases hr
  | some cap =>
      simp only [hcap] at hr
      by_cases hfull : (acc.rows ++ o.rows).length ≥ cap
      · rw [if_pos hfull] at hr
        obtain hr | hr := hr <;> split at hr <;> cases hr
        · exact ⟨rfl, rfl⟩
        · exact ⟨rfl, rfl⟩
      · rw [if_neg hfull] at hr
        obtain hr | hr := hr
        · cases hr
          have hroom : exceeds (some cap) (acc.rows ++ o.rows).length = false :=
            decide_eq_false (by omega)
          rw [hroom, capped_some, List.take_of_length_le (by omega)]
          exact ⟨rfl, (Bool.false_or _).symm⟩
        · cases hr

/-- A collection that can stop early goes on while there is room, and stops without. -/
theorem collect_early {cap : Nat} (hearly : canEarlyStop q = true)
    (hcap : collectCap config q = some cap) :
    (∀ acc', collect host config q clock acc task = .ok acc' →
      acc'.rows.length = acc.rows.length + (broughtRows host config q clock task).length ∧
        acc'.rows.length < cap) ∧
    ∀ acc', collect host config q clock acc task = .error (.ok acc') →
      cap ≤ acc.rows.length + (broughtRows host config q clock task).length := by
  rw [collect, broughtRows]
  cases projectOneShard host config q (clock task.1) task.2 with
  | error e => simp
  | ok o =>
      dsimp only
      rw [hcap]
      dsimp only
      by_cases hfull : (acc.rows ++ o.rows).length ≥ cap
      · rw [if_pos hfull, if_pos hearly, ← List.length_append]
        exact ⟨fun _ h => (by cases h), fun _ _ => hfull⟩
      · rw [if_neg hfull, ← List.length_append]
        refine ⟨?_, fun _ h => by cases h⟩
        rintro acc' ⟨⟩
        exact ⟨rfl, Nat.lt_of_not_ge hfull⟩

/-- Rows beyond a bound are noticed although those before were cut off. -/
theorem exceeds_capped_append (bound : Option Nat) (seen chunk : List Row) :
    (exceeds bound (capped bound seen ++ chunk).length || exceeds bound seen.length) =
      exceeds bound (seen ++ chunk).length := by
  cases bound with
  | none => rfl
  | some n =>
      rw [capped_some, exceeds, exceeds, exceeds, Option.any_some, Option.any_some,
        Option.any_some, ← Bool.decide_or]
      apply decide_eq_decide.mpr
      rw [List.length_append, List.length_append, List.length_take]
      omega

/-- The rows of one more task are seen, whether the collection goes on or stops with it. -/
theorem Collected.collect (h : Collected config q seen acc)
    (hr : collect host config q clock acc task = .ok acc' ∨
      collect host config q clock acc task = .error (.ok acc')) :
    Collected config q (seen ++ broughtRows host config q clock task) acc' := by
  cases hwork : projectOneShard host config q (clock task.1) task.2 with
  | error e =>
      rw [CeQuery.collect, hwork] at hr
      obtain hr | hr := hr <;> cases hr
  | ok o =>
      obtain ⟨hrows, htruncated⟩ := collect_spec hwork hr
      rw [h.rows] at hrows htruncated
      rw [broughtRows_of_ok hwork]
      refine ⟨?_, ?_⟩
      · rw [hrows, capped_append]
      · rw [htruncated, h.truncated, exceeds_capped_append]

/-- The rows of the tasks that were taken are seen. -/
theorem Collected.foldlM (h : Collected config q seen acc)
    (hfold : finished.foldlM (CeQuery.collect host config q clock) acc = .ok acc') :
    Collected config q (seen ++ finished.flatMap (broughtRows host config q clock)) acc' := by
  induction finished generalizing seen acc with
  | nil =>
      cases hfold
      rw [List.flatMap_nil, List.append_nil]
      exact h
  | cons task finished ih =>
      obtain ⟨acc₁, hfirst, hothers⟩ := foldlM_cons_ok_iff.mp hfold
      rw [List.flatMap_cons, ← List.append_assoc]
      exact ih (h.collect (.inl hfirst)) hothers

theorem orderRawRows_perm (rows : List Row) (keys : List OrderKey) :
    (orderRawRows rows keys).Perm rows := by
  rw [orderRawRows]
  split
  · exact .refl rows
  · exact List.perm_insertionSort _ rows

theorem finishProjection_truncated (q : Query) (acc : ProjectionReport) :
    (finishProjection q acc).truncated = (exceeds q.rowLimit acc.rows.length || acc.truncated) := by
  rw [finishProjection, Query.rowLimit]
  cases q.limit with
  | none => exact (Bool.false_or _).symm
  | some n =>
      have hlength : (orderRawRows acc.rows q.orderBy).length = acc.rows.length :=
        (orderRawRows_perm acc.rows q.orderBy).length_eq
      simp only [hlength]
      rw [exceeds, Option.map_some, Option.any_some]
      split
      · rename_i hlong
        rw [decide_eq_true hlong, Bool.true_or]
      · rename_i hshort
        rw [decide_eq_false hshort, Bool.false_or]

/-- There are more rows than the cap of the collection or the `LIMIT` lets through. -/
def overflows (config : RunConfig) (q : Query) (n : Nat) : Bool :=
  exceeds (collectCap config q) n || exceeds q.rowLimit n

/-- The flag says whether rows that were seen are missing from the result. -/
structure Finished (config : RunConfig) (q : Query) (seen : List Row) (report : ProjectionReport) :
    Prop where
  truncated : report.truncated = overflows config q seen.length
  part : report.rows.Subperm seen
  cut : overflows config q seen.length = true → report.rows.length < seen.length
  whole : overflows config q seen.length = false → report.rows.length = seen.length

theorem Finished.empty : Finished config q [] emptyProjection := by
  have hnone : overflows config q 0 = false := by
    rw [overflows, exceeds_zero, exceeds_zero]
    rfl
  refine ⟨hnone.symm, .refl [], ?_, fun _ => rfl⟩
  exact fun hover => absurd (hnone.symm.trans hover) Bool.false_ne_true

theorem Collected.finish (h : Collected config q seen acc) :
    Finished config q seen (finishProjection q acc) := by
  have hperm : (orderRawRows acc.rows q.orderBy).Perm acc.rows := orderRawRows_perm _ _
  have hrows : (finishProjection q acc).rows =
      capped q.rowLimit (orderRawRows acc.rows q.orderBy) := by
    rw [finishProjection_rows, finishRows_eq]
  obtain ⟨hcut, hwhole⟩ := length_capped (collectCap config q) seen
  obtain ⟨hcut', hwhole'⟩ := length_capped q.rowLimit (orderRawRows acc.rows q.orderBy)
  have hle : (capped q.rowLimit (orderRawRows acc.rows q.orderBy)).length ≤ acc.rows.length :=
    hperm.length_eq ▸ capped_sublist.length_le
  rw [hperm.length_eq] at hcut' hwhole'
  rw [← h.rows] at hcut hwhole
  refine ⟨?_, ?_, ?_, ?_⟩
  · rw [finishProjection_truncated, h.truncated, overflows]
    cases hcap : exceeds (collectCap config q) seen.length with
    | true => rw [Bool.or_true, Bool.true_or]
    | false => rw [Bool.or_false, Bool.false_or, hwhole hcap]
  · rw [hrows]
    refine capped_sublist.subperm.trans (hperm.subperm.trans ?_)
    rw [h.rows]
    exact capped_sublist.subperm
  · intro hover
    rw [hrows]
    rw [overflows, Bool.or_eq_true] at hover
    cases hcap : exceeds (collectCap config q) seen.length with
    | true => exact hle.trans_lt (hcut hcap)
    | false =>
        have hlimit : exceeds q.rowLimit acc.rows.length = true := by
          rw [hwhole hcap]
          exact hover.resolve_left (by rw [hcap]; exact Bool.false_ne_true)
        exact (hcut' hlimit).trans_eq (hwhole hcap)
  · intro hover
    rw [overflows, Bool.or_eq_false_iff] at hover
    have hlength := hwhole hover.1
    rw [hrows, hwhole' (hlength ▸ hover.2), hlength]

end Collect

/-- The tasks up to the one at which `needed` rows are there. -/
def untilEnough {τ : Type u} (rowsOf : τ → Nat) : Nat → List τ → List τ
  | _, [] => []
  | needed, t :: ts =>
      t :: if needed ≤ rowsOf t then [] else untilEnough rowsOf (needed - rowsOf t) ts

theorem untilEnough_congr {τ : Type u} {f g : τ → Nat} {needed : Nat} {ts : List τ}
    (h : ∀ t ∈ untilEnough f needed ts, f t = g t) :
    untilEnough f needed ts = untilEnough g needed ts := by
  induction ts generalizing needed with
  | nil => rfl
  | cons t ts ih =>
      rw [untilEnough] at h ⊢
      obtain ⟨hfirst, hothers⟩ := List.forall_mem_cons.mp h
      rw [untilEnough, ← hfirst]
      split
      · rfl
      · rename_i hmissing
        rw [if_neg hmissing] at hothers
        rw [ih hothers]

section RunProjection

variable {env : Externals} {host : MapHost} {config : RunConfig} {q : Query}
variable {clock : Nat → Nat → Nat} {store : String → List Row} {shards : List Shard}
variable {hosts : List String} {order : List Nat} {report : ProjectionReport}
variable {s : Window (Nat × ShardTask) ProjectionReport}

/-- The tasks a projection run awaits when they complete in this order: with a `LIMIT` and
no `ORDER BY` those up to the one at which the limit is reached, otherwise all. -/
def awaitedTasks (env : Externals) (config : RunConfig) (q : Query) (store : String → List Row)
    (shards : List Shard) (hosts : List String) (order : List Nat) : List (Nat × ShardTask) :=
  let completed :=
    Window.completions order (projectionWindow env config (liveShards q shards) hosts)
  match q.limit with
  | some n =>
      if q.orderBy.isEmpty then
        untilEnough (fun task => (taskRows store q task).length) n.val.toNat completed
      else completed
  | none => completed

theorem canEarlyStop_iff : canEarlyStop q = true ↔
    ∃ n, q.limit = some n ∧ q.orderBy.isEmpty = true := by
  rw [canEarlyStop, Bool.and_eq_true, Option.isSome_iff_exists, exists_and_right]

/-- The cap of a collection that can stop early is the limit. -/
theorem collectCap_early (h : canEarlyStop q = true) : ∃ n, q.limit = some n ∧
    q.orderBy.isEmpty = true ∧ collectCap config q = some n.val.toNat := by
  obtain ⟨n, hlimit, horder⟩ := canEarlyStop_iff.mp h
  refine ⟨n, hlimit, horder, ?_⟩
  rw [collectCap, if_pos h, hlimit]
  rfl

/-- A loop that can stop early takes the tasks up to the one at which the cap is reached. -/
theorem taken_eq_untilEnough {cap : Nat} (hearly : canEarlyStop q = true)
    (hcap : collectCap config q = some cap)
    {r : Except (Except RunError ProjectionReport) ProjectionReport}
    (hserved : ∀ e, .error (.error e) ≠ r)
    (h : s.follow (collect host config q clock) order = some r) :
    s.taken (collect host config q clock) order =
      untilEnough (fun task => (broughtRows host config q clock task).length)
        (cap - s.acc.rows.length) (Window.completions order s) := by
  induction order generalizing s with
  | nil => rfl
  | cons i order ih =>
      rw [Window.follow] at h
      split at h
      · cases h
      · rename_i stopped hs
        obtain ⟨t, hget, ⟨e, hleft, hout⟩ | ⟨_, _, hout⟩⟩ := Window.complete_cases hs
        · cases hout
          cases h
          obtain e | acc' := stopped
          · exact absurd rfl (hserved e)
          · have hfull := (collect_early hearly hcap).2 acc' hleft
            rw [Window.completions_cons hget s.acc, untilEnough, if_pos (by omega)]
            simp only [Window.taken, hget, hleft]
        · cases hout
      · rename_i s' hs
        obtain ⟨t, hget, ⟨e, _, hout⟩ | ⟨acc', hacc, hout⟩⟩ := Window.complete_cases hs
        · cases hout
        · cases hout
          obtain ⟨hlength, hroom⟩ := (collect_early hearly hcap).1 acc' hacc
          have hrest := ih h
          rw [Window.start_acc] at hrest
          dsimp only at hrest
          rw [hlength, ← Nat.sub_sub] at hrest
          rw [Window.completions_cons hget acc', untilEnough, if_neg (by omega), ← hrest]
          simp only [Window.taken, hget, hacc]

/-- A run reports nothing for no shards, and otherwise finishes what its loop has collected. -/
theorem runProjection_cases
    (hrun : runProjection env host config q clock shards hosts order = some (.ok report)) :
    (shards = [] ∧ report = emptyProjection) ∨ ∃ acc, report = finishProjection q acc ∧
      projectionEntry env config q shards hosts = .ok (liveShards q shards) ∧
      ((projectionWindow env config (liveShards q shards) hosts).follow
          (collect host config q clock) order = some (.ok acc) ∨
        (projectionWindow env config (liveShards q shards) hosts).follow
          (collect host config q clock) order = some (.error (.ok acc))) := by
  rw [runProjection] at hrun
  obtain ⟨e, hentry⟩ | hentry | ⟨hshards, hentry⟩ | hentry := projectionEntry_cases
    (rfl : projectionEntry env config q shards hosts = _)
  · rw [hentry] at hrun
    cases hrun
  · rw [hentry] at hrun
    cases hrun
  · rw [hentry] at hrun
    cases hrun
    exact .inl ⟨hshards, rfl⟩
  · rw [hentry] at hrun
    simp only at hrun
    split at hrun
    · cases hrun
    · cases hrun
    · rename_i acc hfollow
      cases hrun
      exact .inr ⟨acc, rfl, hentry, .inr hfollow⟩
    · rename_i acc hfollow
      cases hrun
      exact .inr ⟨acc, rfl, hentry, .inl hfollow⟩

theorem width_pos (config : RunConfig) : 0 < max config.maxInFlight 1 := by
  omega

/-- The report accounts for the rows that the collected tasks brought. -/
theorem runProjection_finished
    (hrun : runProjection env host config q clock shards hosts order = some (.ok report)) :
    Finished config q ((collectedTasks env host config q clock shards hosts order).flatMap
      (broughtRows host config q clock)) report := by
  obtain ⟨rfl, rfl⟩ | ⟨acc, rfl, _, hfollow | hfollow⟩ := runProjection_cases hrun
  · have hnone : collectedTasks env host config q clock [] hosts order = [] :=
      Window.taken_prime_nil _ _ _ _
    rw [hnone, List.flatMap_nil]
    exact .empty
  · have hfold := (Window.drained_taken (width_pos config) hfollow).2
    exact (Collected.empty.foldlM hfold).finish
  · obtain ⟨finished, task, rest, before, htaken, _, hfold, hleft⟩ :=
      Window.interrupted_taken hfollow
    have hcollected : collectedTasks env host config q clock shards hosts order =
        finished ++ [task] := htaken
    have hseen := (Collected.empty.foldlM hfold).collect (.inr hleft)
    rw [hcollected, List.flatMap_append, List.flatMap_singleton]
    exact hseen.finish

/-- The collected tasks are tasks of the run, each once. -/
theorem collectedTasks_subperm
    (hrun : runProjection env host config q clock shards hosts order = some (.ok report)) :
    (collectedTasks env host config q clock shards hosts order).Subperm
      (runTasks env (liveShards q shards) hosts) := by
  obtain ⟨rfl, rfl⟩ | ⟨acc, rfl, _, hfollow | hfollow⟩ := runProjection_cases hrun
  · have hnone : collectedTasks env host config q clock [] hosts order = [] :=
      Window.taken_prime_nil _ _ _ _
    rw [hnone]
    exact List.nil_subperm
  · exact (Window.drained_taken (width_pos config) hfollow).1.subperm
  · obtain ⟨finished, task, rest, before, htaken, hperm, _⟩ := Window.interrupted_taken hfollow
    have hcollected : collectedTasks env host config q clock shards hosts order =
        finished ++ [task] := htaken
    rw [hcollected]
    rw [List.append_cons] at hperm
    exact (List.sublist_append_left _ rest).subperm.trans hperm.subperm

/-- An honest host brings the matching rows of the collected tasks. -/
theorem broughtRows_eq (hhost : host.Projects store q)
    (hrun : runProjection env host config q clock shards hosts order = some (.ok report)) :
    ∀ task ∈ collectedTasks env host config q clock shards hosts order,
      broughtRows host config q clock task = (taskRows store q task).map q.cut := by
  intro task htask
  obtain ⟨o, hwork⟩ := runProjection_served hrun task htask
  rw [broughtRows_of_ok hwork]
  exact (projectOneShard_projects hhost hwork).trans q.projectShard_eq

/-- The tasks that a run collects are those that it awaits. -/
theorem collectedTasks_eq (hhost : host.Projects store q)
    (hrun : runProjection env host config q clock shards hosts order = some (.ok report)) :
    collectedTasks env host config q clock shards hosts order =
      awaitedTasks env config q store shards hosts order := by
  have hbrought := broughtRows_eq hhost hrun
  obtain ⟨rfl, rfl⟩ | ⟨acc, rfl, _, hfollow⟩ := runProjection_cases hrun
  · have hcompleted :
      Window.completions order (projectionWindow env config (liveShards q []) hosts) =
        [] := Window.taken_prime_nil _ _ _ _
    have hnone : collectedTasks env host config q clock [] hosts order = [] :=
      Window.taken_prime_nil _ _ _ _
    rw [hnone, awaitedTasks, hcompleted]
    cases q.limit with
    | none => rfl
    | some n => exact (ite_self _).symm
  · by_cases hearly : canEarlyStop q = true
    · obtain ⟨n, hlimit, horder, hcap⟩ := @collectCap_early config q hearly
      have htaken : collectedTasks env host config q clock shards hosts order =
          untilEnough (fun task => (broughtRows host config q clock task).length) n.val.toNat
            (Window.completions order
              (projectionWindow env config (liveShards q shards) hosts)) := by
        obtain ⟨r, hserved, hfollow⟩ : ∃ r, (∀ e, .error (.error e) ≠ r) ∧
            (projectionWindow env config (liveShards q shards) hosts).follow
              (collect host config q clock) order = some r :=
          hfollow.elim (fun h => ⟨_, by simp, h⟩) fun h => ⟨_, by simp, h⟩
        have htaken := taken_eq_untilEnough hearly hcap hserved hfollow
        rwa [projectionWindow, Window.prime_acc] at htaken
      have hawaited : awaitedTasks env config q store shards hosts order =
          untilEnough (fun task => (taskRows store q task).length) n.val.toNat
            (Window.completions order
              (projectionWindow env config (liveShards q shards) hosts)) := by
        rw [awaitedTasks, hlimit]
        exact if_pos horder
      rw [hawaited, htaken]
      apply untilEnough_congr
      intro task htask
      rw [hbrought task (htaken ▸ htask), List.length_map]
    · have hdrained : (projectionWindow env config (liveShards q shards) hosts).follow
          (collect host config q clock) order = some (.ok acc) := by
        obtain hfollow | hfollow := hfollow
        · exact hfollow
        · obtain ⟨_, task, _, _, _, _, hleft⟩ := Window.interrupted hfollow
          exact absurd (collect_stops hhost hleft).1 hearly
      have hawaited : awaitedTasks env config q store shards hosts order =
          Window.completions order (projectionWindow env config (liveShards q shards) hosts) := by
        rw [awaitedTasks]
        cases hlimit : q.limit with
        | none => rfl
        | some n =>
            have horder : ¬q.orderBy.isEmpty = true := by
              rwa [canEarlyStop, hlimit, Option.isSome_some, Bool.true_and] at hearly
            exact if_neg horder
      rw [hawaited, Window.completions_eq_taken hdrained]
      rfl

/-- The matching rows of the tasks that a run awaits. -/
def awaitedRows (env : Externals) (config : RunConfig) (q : Query) (store : String → List Row)
    (shards : List Shard) (hosts : List String) (order : List Nat) : List Row :=
  (awaitedTasks env config q store shards hosts order).flatMap (taskRows store q)

theorem matchingRows_liveShards_subperm :
    (matchingRows store q (liveShards q shards)).Subperm (matchingRows store q shards) := by
  have hlive : (liveShards q shards).Sublist shards := List.filter_sublist
  exact (hlive.flatMap _).subperm

/-- A run awaits rows of the shards, each once. -/
theorem awaitedRows_subperm (hhost : host.Projects store q)
    (hrun : runProjection env host config q clock shards hosts order = some (.ok report)) :
    (awaitedRows env config q store shards hosts order).Subperm (matchingRows store q shards) := by
  rw [awaitedRows, ← collectedTasks_eq hhost hrun]
  obtain ⟨tasks, hperm, hsublist⟩ := collectedTasks_subperm hrun
  have hrows := (hperm.flatMap_right (taskRows store q)).symm.subperm.trans
    (hsublist.flatMap (taskRows store q)).subperm
  rw [flatMap_taskRows] at hrows
  exact hrows.trans matchingRows_liveShards_subperm

theorem runProjection_awaited (hhost : host.Projects store q)
    (hrun : runProjection env host config q clock shards hosts order = some (.ok report)) :
    Finished config q ((awaitedRows env config q store shards hosts order).map q.cut) report := by
  have hrows : (awaitedRows env config q store shards hosts order).map q.cut =
      (collectedTasks env host config q clock shards hosts order).flatMap
        (broughtRows host config q clock) := by
    rw [awaitedRows, ← collectedTasks_eq hhost hrun, List.map_flatMap]
    apply List.flatMap_congr
    exact fun task htask => (broughtRows_eq hhost hrun task htask).symm
  rw [hrows]
  exact runProjection_finished hrun

/-- The flag says that matching rows are missing exactly if it says so because more rows
were awaited than are let through, or no other shard has matching rows. -/
theorem truncated_exact_iff (hhost : host.Projects store q)
    (hrun : runProjection env host config q clock shards hosts order = some (.ok report)) :
    (report.truncated = true ↔ ¬(projectedRows store q shards).Subperm report.rows) ↔
      overflows config q (awaitedRows env config q store shards hosts order).length = true ∨
        (awaitedRows env config q store shards hosts order).Perm (matchingRows store q shards) := by
  obtain ⟨htruncated, hpart, hcut, hwhole⟩ := runProjection_awaited hhost hrun
  have hawaited := awaitedRows_subperm hhost hrun
  rw [List.length_map] at htruncated hcut hwhole
  have hall : report.rows.Subperm (projectedRows store q shards) := by
    obtain ⟨rows, hperm, hsublist⟩ := hawaited
    rw [← map_cut_matchingRows]
    exact hpart.trans ((hperm.map q.cut).symm.subperm.trans (hsublist.map q.cut).subperm)
  have hlength : (projectedRows store q shards).length = (matchingRows store q shards).length := by
    rw [← map_cut_matchingRows, List.length_map]
  have hmissing : ¬(projectedRows store q shards).Subperm report.rows ↔
      report.rows.length < (matchingRows store q shards).length := by
    rw [← hlength, ← Nat.not_le, not_iff_not]
    exact ⟨List.Subperm.length_le, fun hle => (hall.perm_of_length_le hle).symm.subperm⟩
  have hperm : (awaitedRows env config q store shards hosts order).Perm
      (matchingRows store q shards) ↔
        (awaitedRows env config q store shards hosts order).length =
          (matchingRows store q shards).length :=
    ⟨List.Perm.length_eq, fun heq => hawaited.perm_of_length_le heq.ge⟩
  have hle := hawaited.length_le
  rw [hmissing, hperm, htruncated]
  cases hover : overflows config q (awaitedRows env config q store shards hosts order).length with
  | true =>
      have hcut := hcut hover
      exact iff_of_true (iff_of_true rfl (by omega)) (.inl rfl)
  | false =>
      have hwhole := hwhole hover
      simp only [Bool.false_eq_true, false_iff, false_or]
      omega

end RunProjection

/-! Two shards with two and three rows, of which a limit keeps two. -/

private def numbered (n : U64) : Row :=
  Std.ExtTreeMap.insert ∅ "a" (.ofU64 n)

private def unevenStore : String → List Row
  | "s0" => [numbered U64.zero, numbered U64.one]
  | "s1" => [numbered U64.zero, numbered U64.one, numbered (U64.wrap 2)]
  | _ => []

private def unevenHost : MapHost where
  map _ _ _ := .error .timeout
  project _ shard q := .ok (q.projectShard (unevenStore shard.cid))

private def firstTwo : Query where
  dataset := "t"
  aggregates := []
  predicate := .true
  groupBy := []
  orderBy := []
  limit := BoundedInt.narrow 2
  projection := some ["a"]

private def unevenShards : List Shard :=
  ["s0", "s1"].map fun cid => { cid, rows := U64.zero, bytes := U64.zero, stats := none }

private theorem projects_unevenHost : unevenHost.Projects unevenStore firstTwo :=
  fun _ _ _ h => (Except.ok.inj h).symm

/-- The flag is exact when the shard with three rows completes first. -/
theorem truncated_exact_large_shard : ∃ report,
    runProjection .sample unevenHost .twoAtATime firstTwo (fun _ _ => 0) unevenShards ["host0"]
        [1] = some (.ok report) ∧
      (report.truncated = true ↔
        ¬(projectedRows unevenStore firstTwo unevenShards).Subperm report.rows) := by
  obtain ⟨report, hrun⟩ : ∃ report, runProjection .sample unevenHost .twoAtATime firstTwo
      (fun _ _ => 0) unevenShards ["host0"] [1] = some (.ok report) := ⟨_, rfl⟩
  exact ⟨report, hrun, (truncated_exact_iff projects_unevenHost hrun).mpr (.inl rfl)⟩

/-- The shard with two rows completes first and fills the limit, so the run stops. That
three rows of the other shard are missing is not flagged. -/
theorem truncated_unflagged : unevenHost.Projects unevenStore firstTwo ∧ ∃ report,
    runProjection .sample unevenHost .twoAtATime firstTwo (fun _ _ => 0) unevenShards ["host0"]
        [0] = some (.ok report) ∧
      ¬(report.truncated = true ↔
        ¬(projectedRows unevenStore firstTwo unevenShards).Subperm report.rows) := by
  refine ⟨projects_unevenHost, _, rfl, ?_⟩
  intro hexact
  have hmissing : ¬(projectedRows unevenStore firstTwo unevenShards).Subperm
      ((unevenStore "s0").map firstTwo.cut) := by
    intro hpart
    have hle : 5 ≤ 2 := hpart.length_le
    omega
  exact absurd (hexact.mpr hmissing) Bool.false_ne_true

end CeQuery
