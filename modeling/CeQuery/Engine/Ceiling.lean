import CeQuery.Engine.Truncation

/-!
# The memory ceiling of a projection

After each shard that completes, the collection holds its rows under one cap. This
is the ceiling of the configuration, but with a `LIMIT` and no `ORDER BY` the limit
takes its place. So more rows than the ceiling are held exactly in the runs where the
limit is above it and the shards bring more (`ceiling_iff`).
-/

namespace CeQuery

section Loop

variable (host : MapHost) (config : RunConfig) (q : Query) (clock : Nat → Nat → Nat)

/-- What the collection holds after each task that completes, until the loop is left. -/
def retained : List Nat → Window (Nat × ShardTask) ProjectionReport → List ProjectionReport
  | [], _ => []
  | i :: order, s =>
      match s.inflight[i]? with
      | none => []
      | some task =>
          match collect host config q clock s.acc task with
          | .error (.error _) => []
          | .error (.ok acc) => [acc]
          | .ok acc => acc :: retained order (Window.start { s with
              inflight := s.inflight.eraseIdx i
              acc := acc
              finished := s.finished ++ [task] })

/-- The rows that tasks bring, until one fails. -/
def arrivingRows : List (Nat × ShardTask) → List Row
  | [] => []
  | task :: tasks =>
      match projectOneShard host config q (clock task.1) task.2 with
      | .ok outcome => outcome.rows ++ arrivingRows tasks
      | .error _ => []

end Loop

section Retained

variable {host : MapHost} {config : RunConfig} {q : Query} {clock : Nat → Nat → Nat}
variable {s : Window (Nat × ShardTask) ProjectionReport} {order : List Nat} {ceiling : Nat}

/-- The collection is held under its cap. -/
theorem retained_le_cap {cap : Nat} (hcap : collectCap config q = some cap) :
    ∀ acc ∈ retained host config q clock order s, acc.rows.length ≤ cap := by
  have hcollect : ∀ {acc acc' : ProjectionReport} {task : Nat × ShardTask},
      (collect host config q clock acc task = .ok acc' ∨
        collect host config q clock acc task = .error (.ok acc')) → acc'.rows.length ≤ cap := by
    intro acc acc' task hr
    cases hwork : projectOneShard host config q (clock task.1) task.2 with
    | error e =>
        rw [collect, hwork] at hr
        obtain hr | hr := hr <;> cases hr
    | ok o =>
        rw [(collect_spec hwork hr).1, hcap]
        exact List.length_take_le _ _
  induction order generalizing s with
  | nil => exact List.forall_mem_nil _
  | cons i order ih =>
      rw [retained]
      split
      · exact List.forall_mem_nil _
      · split
        · exact List.forall_mem_nil _
        · rename_i hleft
          rw [List.forall_mem_singleton]
          exact hcollect (.inr hleft)
        · rename_i hgoes
          rw [List.forall_mem_cons]
          exact ⟨hcollect (.inl hgoes), ih⟩

/-- Only a shard that is not served fails the collection. -/
theorem collect_ne_error {acc : ProjectionReport} {task : Nat × ShardTask} {o : ProjectOutcome}
    (hwork : projectOneShard host config q (clock task.1) task.2 = .ok o) (e : RunError) :
    collect host config q clock acc task ≠ .error (.error e) := by
  rw [collect, hwork]
  dsimp only
  split
  · simp
  · split
    · split <;> simp
    · simp

/-- Where the limit takes the place of a lower ceiling, this holds as long as no more rows
arrive. -/
theorem retained_le_iff {limit : Nat} (hearly : canEarlyStop q = true)
    (hcap : collectCap config q = some limit) (habove : ceiling < limit)
    (hheld : s.acc.rows.length ≤ ceiling) :
    (∀ acc ∈ retained host config q clock order s, acc.rows.length ≤ ceiling) ↔
      s.acc.rows.length + (arrivingRows host config q clock (Window.completions order s)).length ≤
        ceiling := by
  induction order generalizing s with
  | nil => exact iff_of_true (List.forall_mem_nil _) hheld
  | cons i order ih =>
      cases hget : s.inflight[i]? with
      | none =>
          have hnone : Window.completions (i :: order) s = [] := by
            unfold Window.completions
            rw [Window.taken, hget]
          rw [hnone, retained, hget]
          exact iff_of_true (List.forall_mem_nil _) hheld
      | some task =>
          cases hwork : projectOneShard host config q (clock task.1) task.2 with
          | error e =>
              have hfailed : collect host config q clock s.acc task = .error (.error e) := by
                rw [collect, hwork]
              rw [Window.completions_cons hget s.acc, arrivingRows, hwork]
              simp only [retained, hget, hfailed]
              exact iff_of_true (List.forall_mem_nil _) hheld
          | ok o =>
              have hbrought := broughtRows_of_ok hwork
              cases hcollect : collect host config q clock s.acc task with
              | ok acc =>
                  obtain ⟨hlength, _⟩ := (collect_early hearly hcap).1 acc hcollect
                  rw [Window.completions_cons hget acc, arrivingRows, hwork]
                  simp only [retained, hget, hcollect]
                  rw [List.forall_mem_cons, List.length_append]
                  rw [hbrought] at hlength
                  by_cases hfits : acc.rows.length ≤ ceiling
                  · rw [and_iff_right hfits, ih (by rwa [Window.start_acc]), Window.start_acc]
                    dsimp only
                    omega
                  · exact iff_of_false (fun h => hfits h.1) (by omega)
              | error stopped =>
                  cases stopped with
                  | error e => exact absurd hcollect (collect_ne_error hwork e)
                  | ok acc =>
                      have hfull := (collect_early hearly hcap).2 acc hcollect
                      have hrows := (collect_spec hwork (.inr hcollect)).1
                      rw [hcap, capped_some] at hrows
                      have hlength := congrArg List.length hrows
                      rw [List.length_take, List.length_append] at hlength
                      rw [hbrought] at hfull
                      rw [Window.completions_cons hget acc, arrivingRows, hwork]
                      simp only [retained, hget, hcollect]
                      rw [List.forall_mem_singleton, List.length_append]
                      exact iff_of_false (by omega) (by omega)

/-- What a run ends with was held last. -/
theorem mem_retained_of_follow {acc : ProjectionReport}
    (h : s.follow (collect host config q clock) order = some (.ok acc) ∨
      s.follow (collect host config q clock) order = some (.error (.ok acc))) :
    acc = s.acc ∨ acc ∈ retained host config q clock order s := by
  induction order generalizing s with
  | nil =>
      rw [Window.follow] at h
      obtain h | h := h <;> split at h <;> cases h
      exact .inl rfl
  | cons i order ih =>
      rw [Window.follow] at h
      cases hs : Window.complete (collect host config q clock) i s with
      | none =>
          rw [hs] at h
          obtain h | h := h <;> cases h
      | some r =>
          rw [hs] at h
          obtain ⟨task, hget, ⟨stopped, hleft, rfl⟩ | ⟨acc', hgoes, rfl⟩⟩ :=
            Window.complete_cases hs
          · obtain h | h := h <;> cases h
            simp only [retained, hget, hleft]
            exact .inr (List.mem_singleton_self _)
          · simp only [retained, hget, hgoes]
            obtain heq | hmem := ih h
            · rw [Window.start_acc] at heq
              exact .inr (heq ▸ List.mem_cons_self)
            · exact .inr (List.mem_cons_of_mem _ hmem)

end Retained

section RunProjection

variable {env : Externals} {host : MapHost} {config : RunConfig} {q : Query}
variable {clock : Nat → Nat → Nat} {shards : List Shard} {hosts : List String}
variable {order : List Nat}

/-- What a run holds after each shard that completes. -/
def heldReports (env : Externals) (host : MapHost) (config : RunConfig) (q : Query)
    (clock : Nat → Nat → Nat) (shards : List Shard) (hosts : List String) (order : List Nat) :
    List ProjectionReport :=
  match projectionEntry env config q shards hosts with
  | .error _ => []
  | .ok live => retained host config q clock order (projectionWindow env config live hosts)

/-- The rows that the shards of a run bring in this order, until one fails. -/
def broughtInOrder (env : Externals) (host : MapHost) (config : RunConfig) (q : Query)
    (clock : Nat → Nat → Nat) (shards : List Shard) (hosts : List String) (order : List Nat) :
    List Row :=
  match projectionEntry env config q shards hosts with
  | .error _ => []
  | .ok live => arrivingRows host config q clock
      (Window.completions order (projectionWindow env config live hosts))

/-- No more rows than the ceiling are held after any shard, nor returned. -/
structure UnderCeiling (env : Externals) (host : MapHost) (config : RunConfig) (q : Query)
    (clock : Nat → Nat → Nat) (shards : List Shard) (hosts : List String) (order : List Nat) :
    Prop where
  held : ∀ acc ∈ heldReports env host config q clock shards hosts order,
    acc.rows.length ≤ config.limits.maxResultGroups
  returned : ∀ report, runProjection env host config q clock shards hosts order =
    some (.ok report) → report.rows.length ≤ config.limits.maxResultGroups

theorem length_finishProjection_le (acc : ProjectionReport) :
    (finishProjection q acc).rows.length ≤ acc.rows.length := by
  rw [finishProjection_rows, finishRows_eq, ← (orderRawRows_perm acc.rows q.orderBy).length_eq]
  exact capped_sublist.length_le

/-- What is returned was held. -/
theorem underCeiling_iff : UnderCeiling env host config q clock shards hosts order ↔
    ∀ acc ∈ heldReports env host config q clock shards hosts order,
      acc.rows.length ≤ config.limits.maxResultGroups := by
  refine ⟨UnderCeiling.held, fun hheld => ⟨hheld, ?_⟩⟩
  intro report hrun
  obtain ⟨rfl, rfl⟩ | ⟨acc, rfl, hentry, hfollow⟩ := runProjection_cases hrun
  · exact Nat.zero_le _
  · refine (length_finishProjection_le acc).trans ?_
    obtain heq | hmem := mem_retained_of_follow hfollow
    · rw [heq, projectionWindow, Window.prime_acc]
      exact Nat.zero_le _
    · apply hheld
      rw [heldReports, hentry]
      exact hmem

/-- The ceiling is kept in every run, except where a limit above it takes its place and
the shards bring more rows than the ceiling. -/
theorem ceiling_iff (hceiling : 0 < config.limits.maxResultGroups) :
    UnderCeiling env host config q clock shards hosts order ↔
      ∀ n, q.limit = some n → q.orderBy = [] → config.limits.maxResultGroups < n.val.toNat →
        (broughtInOrder env host config q clock shards hosts order).length ≤
          config.limits.maxResultGroups := by
  rw [underCeiling_iff, heldReports, broughtInOrder]
  cases projectionEntry env config q shards hosts with
  | error exit => exact iff_of_true (List.forall_mem_nil _) fun _ _ _ _ => Nat.zero_le _
  | ok live =>
      dsimp only
      have hmem : config.limits.maxResultGroups ≠ 0 := by omega
      by_cases hearly : canEarlyStop q = true
      · obtain ⟨n, hlimit, horder, hcap⟩ := @collectCap_early config q hearly
        by_cases habove : config.limits.maxResultGroups < n.val.toNat
        · have hinit : (projectionWindow env config live hosts).acc.rows.length = 0 := by
            rw [projectionWindow, Window.prime_acc]
            rfl
          rw [retained_le_iff hearly hcap habove (by omega), hinit, Nat.zero_add]
          constructor
          · exact fun hle _ _ _ _ => hle
          · exact fun hle => hle n hlimit (List.isEmpty_iff.mp horder) habove
        · refine iff_of_true ?_ ?_
          · intro acc hacc
            have hle := retained_le_cap hcap acc hacc
            omega
          · intro n' hlimit' _ habove'
            cases hlimit.symm.trans hlimit'
            exact absurd habove' habove
      · have hcap : collectCap config q = some config.limits.maxResultGroups := by
          rw [collectCap, if_neg hearly, if_neg hmem]
        refine iff_of_true (retained_le_cap hcap) ?_
        intro n hlimit horder _
        exact absurd (canEarlyStop_iff.mpr ⟨n, hlimit, List.isEmpty_iff.mpr horder⟩) hearly

end RunProjection

/-! One shard with three rows. -/

private def threeRows : String → List Row
  | "s0" => [U64.zero, U64.one, U64.wrap 2].map fun n => Std.ExtTreeMap.insert ∅ "a" (.ofU64 n)
  | _ => []

private def threeRowsHost : MapHost where
  map _ _ _ := .error .timeout
  project _ shard q := .ok (q.projectShard (threeRows shard.cid))

private def upTo (limit : Option Usize) : Query where
  dataset := "t"
  aggregates := []
  predicate := .true
  groupBy := []
  orderBy := []
  limit
  projection := some ["a"]

private def oneRowCeiling : RunConfig where
  maxAttemptsPerShard := 4
  maxInFlight := 2
  redundancy := 1
  quorum := 0
  deadline := none
  limits :=
    { maxScanBytes := U64.zero
      maxScanRows := U64.zero
      maxShards := 0
      maxResultGroups := 1 }

private def oneShard : List Shard :=
  [{ cid := "s0", rows := U64.zero, bytes := U64.zero, stats := none }]

/-- Without a limit the ceiling is kept. -/
theorem ceiling_unlimited : UnderCeiling .sample threeRowsHost oneRowCeiling (upTo none)
    (fun _ _ => 0) oneShard ["host0"] [0] :=
  (ceiling_iff Nat.one_pos).mpr fun _ hlimit => by cases hlimit

/-- A limit of three lets three rows through a ceiling of one. -/
theorem ceiling_exceeded : ∃ report,
    runProjection .sample threeRowsHost oneRowCeiling (upTo (some ⟨3, by decide, by decide⟩))
        (fun _ _ => 0) oneShard ["host0"] [0] = some (.ok report) ∧
      oneRowCeiling.limits.maxResultGroups = 1 ∧ report.rows.length = 3 ∧
      ¬UnderCeiling .sample threeRowsHost oneRowCeiling (upTo (some ⟨3, by decide, by decide⟩))
        (fun _ _ => 0) oneShard ["host0"] [0] := by
  refine ⟨_, rfl, rfl, rfl, ?_⟩
  intro h
  have hle : 3 ≤ 1 := h.returned _ rfl
  omega

end CeQuery
