import CeQuery.Engine.Projection
import CeQuery.Foundation.Schedule

/-!
# Gathering rows

A projection run seen from the rows alone. Each task brings the rows of its shard, and
the loop appends them under the cap (`runProjection_rows_iff`). A task without rows
changes nothing as long as there is room (`gathers_iff_of_idle`).
-/

namespace CeQuery

/-- The collection loop seen from the rows: append what one shard brings, under
the cap. -/
def gather (config : RunConfig) (q : Query) (rows : List Row) (chunk : Except RunError (List Row)) :
    Except (Except RunError (List Row)) (List Row) :=
  match chunk with
  | .error e => .error (.error e)
  | .ok chunk =>
      match collectCap config q with
      | none => .ok (rows ++ chunk)
      | some cap =>
          if (rows ++ chunk).length ≥ cap then
            if canEarlyStop q then .error (.ok ((rows ++ chunk).take cap))
            else .ok ((rows ++ chunk).take cap)
          else .ok (rows ++ chunk)

/-- The rows that are returned for the gathered ones. -/
def finishRows (q : Query) (rows : List Row) : List Row :=
  match q.limit with
  | some n => (orderRawRows rows q.orderBy).take n.val.toNat
  | none => orderRawRows rows q.orderBy

/-- What the end of the loop returns, if it is not a failure. -/
def finishGather (q : Query) : Except (Except RunError (List Row)) (List Row) → Option (List Row)
  | .ok rows => some (finishRows q rows)
  | .error (.ok rows) => some (finishRows q rows)
  | .error (.error _) => none

/-- While `gather` goes on, there is room for further rows. -/
def Room (config : RunConfig) (q : Query) (rows : List Row) : Prop :=
  ∀ cap, collectCap config q = some cap →
    rows.length ≤ cap ∧ (canEarlyStop q = true → rows.length < cap)

/-- A task that brings no row. -/
def idleChunk : Except RunError (List Row) → Bool
  | .ok rows => rows.isEmpty
  | .error _ => false

section Gather

variable {config : RunConfig} {q : Query} {rows rows' : List Row}
variable {chunk : Except RunError (List Row)}

theorem finishProjection_rows (q : Query) (acc : ProjectionReport) :
    (finishProjection q acc).rows = finishRows q acc.rows := by
  rw [finishProjection, finishRows]
  cases q.limit with
  | none => rfl
  | some n =>
      simp only
      split
      · rfl
      · rename_i hshort
        exact (List.take_of_length_le (Nat.le_of_not_lt hshort)).symm

/-- What gathering can do with the rows of one shard: take them in under the cap, or stop
at the cap. -/
theorem gather_cases {chunk : List Row} {r : Except (Except RunError (List Row)) (List Row)}
    (h : gather config q rows (.ok chunk) = r) :
    r = .ok (capped (collectCap config q) (rows ++ chunk)) ∧
        (canEarlyStop q = true → ∀ cap, collectCap config q = some cap →
          (rows ++ chunk).length < cap) ∨
      canEarlyStop q = true ∧ ∃ cap, collectCap config q = some cap ∧
        cap ≤ (rows ++ chunk).length ∧ r = .error (.ok ((rows ++ chunk).take cap)) := by
  rw [gather] at h
  cases hcap : collectCap config q with
  | none =>
      rw [hcap] at h
      exact .inl ⟨h.symm, fun _ _ => nofun⟩
  | some cap =>
      rw [hcap] at h
      simp only at h
      split at h
      · rename_i hfull
        split at h
        · rename_i hearly
          exact .inr ⟨hearly, cap, rfl, hfull, h.symm⟩
        · rename_i hcollect
          exact .inl ⟨h.symm, fun hearly => absurd hearly hcollect⟩
      · rename_i hshort
        have hlt : (rows ++ chunk).length < cap := Nat.lt_of_not_ge hshort
        refine .inl ⟨?_, fun _ cap' hcap' => Option.some.inj hcap' ▸ hlt⟩
        rw [capped_some, List.take_of_length_le (Nat.le_of_lt hlt)]
        exact h.symm

theorem gather_room (h : gather config q rows chunk = .ok rows') :
    Room config q rows' := by
  cases chunk with
  | error e => cases h
  | ok chunk =>
      obtain ⟨htaken, hshort⟩ | ⟨_, _, _, _, hstopped⟩ := gather_cases h
      · intro cap hcap
        rw [Except.ok.inj htaken, hcap, capped_some, List.length_take]
        refine ⟨Nat.min_le_left _ _, fun hearly => ?_⟩
        have := hshort hearly cap hcap
        omega
      · cases hstopped

theorem gather_idle (hroom : Room config q rows) (h : idleChunk chunk = true) :
    gather config q rows chunk = .ok rows := by
  cases chunk with
  | error e => cases h
  | ok chunk =>
      have hnil : chunk = [] := List.isEmpty_iff.mp h
      rw [gather, hnil, List.append_nil]
      cases hcap : collectCap config q with
      | none => rfl
      | some cap =>
          obtain ⟨hle, hlt⟩ := hroom cap hcap
          simp only
          split
          · split
            · rename_i hfull hearly
              have := hlt hearly
              omega
            · rw [List.take_of_length_le hle]
          · rfl

/-- The gathering loop over the chunks can end with these rows. -/
def Gathers (config : RunConfig) (q : Query) (width : Nat)
    (chunks : List (Except RunError (List Row))) (rows : List Row) : Prop :=
  ∃ order r, (Window.prime width chunks []).follow (gather config q) order = some r ∧
    finishGather q r = some rows

variable {width : Nat} {chunks chunks' : List (Except RunError (List Row))}

/-- Without room from the start the limit is zero, and nothing is returned. -/
theorem finishRows_eq_nil (hearly : canEarlyStop q = true) (hcap : collectCap config q = some 0)
    (rows : List Row) : finishRows q rows = [] := by
  unfold collectCap at hcap
  rw [finishRows]
  cases hlimit : q.limit with
  | none => simp [canEarlyStop, hlimit] at hearly
  | some n =>
      simp only [hearly, hlimit, if_true, Option.map_some, Option.some_or,
        Option.some.injEq] at hcap
      simp only [hcap, List.take_zero]

/-- Gathering chunks that are all there cannot fail. -/
theorem finishGather_isSome (hok : ∀ c ∈ chunks, ∃ rows, c = .ok rows) {order : List Nat}
    {r : Except (Except RunError (List Row)) (List Row)}
    (h : (Window.prime width chunks []).follow (gather config q) order = some r) :
    ∃ gathered, finishGather q r = some (finishRows q gathered) := by
  cases r with
  | ok gathered => exact ⟨gathered, rfl⟩
  | error stopped =>
      cases stopped with
      | ok gathered => exact ⟨gathered, rfl⟩
      | error e =>
          obtain ⟨finished, task, rest, gathered, hperm, _, herror⟩ := Window.interrupted h
          obtain ⟨chunk, hchunk⟩ := hok task (hperm.mem_iff.mp (by simp))
          rw [hchunk] at herror
          obtain ⟨htaken, _⟩ | ⟨_, _, _, _, hstopped⟩ := gather_cases herror
          · cases htaken
          · cases hstopped

/-- Chunks without rows do not change what the loop can return. -/
theorem gathers_iff_of_idle (hwidth : 0 < width) (hok : ∀ c ∈ chunks, ∃ rows, c = .ok rows)
    (hok' : ∀ c ∈ chunks', ∃ rows, c = .ok rows)
    (hlive : chunks.filter (fun c => !idleChunk c) = chunks'.filter fun c => !idleChunk c) :
    Gathers config q width chunks rows ↔ Gathers config q width chunks' rows := by
  by_cases hstop : canEarlyStop q = true ∧ collectCap config q = some 0
  · have hnothing : ∀ cs : List (Except RunError (List Row)), (∀ c ∈ cs, ∃ rows, c = .ok rows) →
        (Gathers config q width cs rows ↔ rows = []) := by
      intro cs hcs
      constructor
      · rintro ⟨order, r, hfollow, hrows⟩
        obtain ⟨gathered, hgathered⟩ := finishGather_isSome hcs hfollow
        rw [hgathered, finishRows_eq_nil hstop.1 hstop.2] at hrows
        exact (Option.some.inj hrows).symm
      · intro hrows
        obtain ⟨order, r, hfollow⟩ :=
          Window.exists_follow (gather config q) (Window.prime width cs [])
        obtain ⟨gathered, hgathered⟩ := finishGather_isSome hcs hfollow
        refine ⟨order, r, hfollow, ?_⟩
        rw [hgathered, finishRows_eq_nil hstop.1 hstop.2, hrows]
    rw [hnothing chunks hok, hnothing chunks' hok']
  · have hroom : Room config q [] := by
      intro cap hcap
      refine ⟨Nat.zero_le _, fun hearly => Nat.pos_of_ne_zero ?_⟩
      intro hzero
      exact hstop ⟨hearly, hzero ▸ hcap⟩
    have hfilter : ∀ (cs : List (Except RunError (List Row))),
        Gathers config q width cs rows ↔
          Gathers config q width (cs.filter fun c => !idleChunk c) rows := by
      intro cs
      have hends : ∀ r,
          (∃ order, (Window.prime width cs []).follow (gather config q) order = some r) ↔
          ∃ order, (Window.prime width (cs.filter fun c => !idleChunk c) []).follow
            (gather config q) order = some r := by
        intro r
        refine Window.follow_filter_iff (I := Room config q) hwidth hroom ?_ ?_
        · intro gathered chunk gathered' _ h
          exact gather_room h
        · intro gathered chunk hgathered hidle
          exact gather_idle hgathered (by simpa using hidle)
      constructor
      · rintro ⟨order, r, hfollow, hrows⟩
        obtain ⟨order', hfollow'⟩ := (hends r).mp ⟨order, hfollow⟩
        exact ⟨order', r, hfollow', hrows⟩
      · rintro ⟨order, r, hfollow, hrows⟩
        obtain ⟨order', hfollow'⟩ := (hends r).mpr ⟨order, hfollow⟩
        exact ⟨order', r, hfollow', hrows⟩
    rw [hfilter chunks, hfilter chunks', hlive]

end Gather

section RunProjection

variable {env : Externals} {host : MapHost} {config : RunConfig} {q : Query}
variable {clock : Nat → Nat → Nat} {shards : List Shard} {hosts : List String}

/-- The rows a task brings to the collection. -/
def taskChunk (host : MapHost) (config : RunConfig) (q : Query) (clock : Nat → Nat → Nat)
    (task : Nat × ShardTask) : Except RunError (List Row) :=
  (projectOneShard host config q (clock task.1) task.2).map (·.rows)

/-- Collecting is gathering, seen from the rows. -/
theorem gather_taskChunk (acc : ProjectionReport) (task : Nat × ShardTask) :
    gather config q acc.rows (taskChunk host config q clock task) =
      ((collect host config q clock acc task).map (·.rows)).mapError (·.map (·.rows)) := by
  rw [taskChunk, collect]
  cases projectOneShard host config q (clock task.1) task.2 with
  | error e => rfl
  | ok outcome =>
      simp only [Except.map, gather]
      cases collectCap config q with
      | none => rfl
      | some cap =>
          simp only
          split
          · split <;> rfl
          · rfl

/-- What a projection run can return once its loop is entered is what gathering
the chunks of its tasks can return. -/
theorem runProjection_rows_iff {live : List Shard} {rows : List Row}
    (hentry : projectionEntry env config q shards hosts = .ok live) :
    (∃ order report, runProjection env host config q clock shards hosts order = some (.ok report) ∧
        report.rows = rows) ↔
      Gathers config q (max config.maxInFlight 1)
        ((runTasks env live hosts).map (taskChunk host config q clock)) rows := by
  have hfollow : ∀ order, (Window.prime (max config.maxInFlight 1)
      ((runTasks env live hosts).map (taskChunk host config q clock)) []).follow
        (gather config q) order =
      ((projectionWindow env config live hosts).follow (collect host config q clock) order).map
        fun r => (r.map (·.rows)).mapError (·.map (·.rows)) := by
    intro order
    rw [← Window.follow_map (taskChunk host config q clock) _ _ gather_taskChunk, projectionWindow,
      Window.map_prime]
    rfl
  apply exists_congr
  intro order
  rw [hfollow, runProjection, hentry]
  simp only
  cases (projectionWindow env config live hosts).follow (collect host config q clock) order with
  | none => simp
  | some r =>
      rcases r with (e | acc) | acc
      · simp [Except.map, Except.mapError, finishGather]
      · simp [Except.map, Except.mapError, finishGather, finishProjection_rows]
      · simp [Except.map, Except.mapError, finishGather, finishProjection_rows]

end RunProjection

end CeQuery
