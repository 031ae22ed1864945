import CeQuery.Engine.Deadline
import CeQuery.Foundation.ShortestPrefix

/-!
# The hosts a walk contacts

`mapLoop` and `projectLoop` are the loops of the walks with the position of the host
in turn, which moves past the end of the ranking at the last advance, and they record
the hosts that they contact. What they return are the walks over the rest of the
ranking (`mapLoop_snd`, `projectLoop_snd`). Without a deadline the hosts contacted
are the shortest prefix of the ranking with enough answers, cut at the attempt cap.
-/

namespace CeQuery

/-- A task with the position of the host in turn. -/
structure AssignedTask extends ShardTask where
  attempt : Nat

/-- The task as planned. -/
def ShardTask.assigned (task : ShardTask) : AssignedTask :=
  { task with attempt := 0 }

namespace AssignedTask

variable (task : AssignedTask)

/-- The host in turn. -/
def host : Option String :=
  task.rankedHosts[task.attempt]?

/-- Advance to the next host, or past the end; says whether a further host exists. -/
def advance : Bool × AssignedTask :=
  if task.attempt + 1 < task.rankedHosts.length then
    (true, { task with attempt := task.attempt + 1 })
  else (false, { task with attempt := task.rankedHosts.length })

/-- The hosts from the one in turn on. -/
def remaining : List String :=
  task.rankedHosts.drop task.attempt

theorem host_eq : task.host = task.remaining.head? :=
  List.head?_drop.symm

@[simp] theorem advance_toShardTask : task.advance.2.toShardTask = task.toShardTask := by
  rw [advance]
  split <;> rfl

theorem advance_remaining : task.advance.2.remaining = task.remaining.tail := by
  rw [advance, remaining, remaining, List.tail_drop]
  split
  · rfl
  · rename_i hlast
    rw [List.drop_length, List.drop_of_length_le (Nat.le_of_not_lt hlast)]

theorem advance_fst : task.advance.1 = !task.remaining.tail.isEmpty := by
  rw [advance, remaining, List.tail_drop]
  split
  · rename_i hnext
    simp [hnext]
  · rename_i hlast
    simp [Nat.le_of_not_lt hlast]

variable {task}

theorem length_advance_lt {hostId : String} (h : task.host = some hostId) :
    task.advance.2.remaining.length < task.remaining.length := by
  rw [host_eq] at h
  rw [advance_remaining]
  cases hremaining : task.remaining with
  | nil =>
      rw [hremaining] at h
      cases h
  | cons _ _ => exact Nat.lt_succ_self _

end AssignedTask

theorem ShardTask.assigned_remaining (task : ShardTask) :
    task.assigned.remaining = task.rankedHosts := rfl

section Loops

variable (host : MapHost) (config : RunConfig) (q : Query)

/-- A loop with one more contact before it. -/
def contact (hostId : String) (loop : List String × α) : List String × α :=
  (hostId :: loop.1, loop.2)

/-- The loop of `mapOneShard`, with the hosts that it contacts. -/
def mapLoop (clock : Nat → Nat) (task : AssignedTask) (w : Walk) :
    List String × Except RunError Walk :=
  if deadlinePassed config (clock w.attempts) then ([], .error (.deadline task.shard.cid))
  else
    match _hhost : task.host with
    | none => ([], .ok w)
    | some hostId =>
        if w.attempts ≥ max config.maxAttemptsPerShard 1 then ([], .ok w)
        else
          match host.map hostId task.shard q with
          | .ok p =>
              if (w.accept hostId p).copies.length ≥ max config.redundancy 1 then
                ([hostId], .ok (w.accept hostId p))
              else if task.advance.1 then
                contact hostId (mapLoop clock task.advance.2 (w.accept hostId p))
              else ([hostId], .ok (w.accept hostId p))
          | .error e => contact hostId (mapLoop clock task.advance.2 (w.fail e))
termination_by task.remaining.length
decreasing_by all_goals exact AssignedTask.length_advance_lt _hhost

/-- The loop of `projectOneShard`, with the hosts that it contacts. -/
def projectLoop (clock : Nat → Nat) (task : AssignedTask) (attempts : Nat)
    (lastErr : Option MapError) : List String × Except RunError ProjectOutcome :=
  if deadlinePassed config (clock attempts) then ([], .error (.deadline task.shard.cid))
  else
    match _hhost : task.host with
    | none => ([], .error (.unserved task.shard.cid task.rankedHosts.length lastErr))
    | some hostId =>
        if attempts ≥ max config.maxAttemptsPerShard 1 then
          ([], .error (.unserved task.shard.cid task.rankedHosts.length lastErr))
        else
          match host.project hostId task.shard q with
          | .ok rows =>
              ([hostId], .ok
                { shardCid := task.shard.cid
                  servedBy := hostId
                  rows
                  attempts := attempts + 1 })
          | .error e =>
              contact hostId (projectLoop clock task.advance.2 (attempts + 1) (some e))
termination_by task.remaining.length
decreasing_by exact AssignedTask.length_advance_lt _hhost

end Loops

section Refinement

variable {host : MapHost} {config : RunConfig} {q : Query} {clock : Nat → Nat}
  {task : AssignedTask} {hosts : List String}

theorem mapLoop_nil (h : task.remaining = []) (w : Walk) :
    mapLoop host config q clock task w =
      if deadlinePassed config (clock w.attempts) then ([], .error (.deadline task.shard.cid))
      else ([], .ok w) := by
  have hhost : task.host = none := by
    rw [task.host_eq, h]
    rfl
  rw [mapLoop]
  split
  · rfl
  · split
    · rfl
    · rename_i hsome
      rw [hhost] at hsome
      cases hsome

theorem mapLoop_cons {hostId : String} {rest : List String} (h : task.remaining = hostId :: rest)
    (w : Walk) :
    mapLoop host config q clock task w =
      if deadlinePassed config (clock w.attempts) then ([], .error (.deadline task.shard.cid))
      else if w.attempts ≥ max config.maxAttemptsPerShard 1 then ([], .ok w)
      else
        match host.map hostId task.shard q with
        | .ok p =>
            if w.copies.length + 1 ≥ max config.redundancy 1 ∨ rest.isEmpty then
              ([hostId], .ok (w.accept hostId p))
            else contact hostId (mapLoop host config q clock task.advance.2 (w.accept hostId p))
        | .error e => contact hostId (mapLoop host config q clock task.advance.2 (w.fail e)) := by
  have hhost : task.host = some hostId := by
    rw [task.host_eq, h]
    rfl
  have hadvance : task.advance.1 = !rest.isEmpty := by
    rw [task.advance_fst, h]
    rfl
  rw [mapLoop]
  split
  · rfl
  · split
    · rename_i hnone
      rw [hhost] at hnone
      cases hnone
    · rename_i hsome
      rw [hhost] at hsome
      cases hsome
      split
      · rfl
      · cases host.map hostId task.shard q with
        | error e => rfl
        | ok p =>
            dsimp only
            rw [Walk.accept_copies, List.length_append, List.length_singleton, hadvance]
            cases rest.isEmpty <;> simp

/-- The loop is the walk over the hosts from the one in turn on. -/
theorem mapLoop_snd (h : task.remaining = hosts) (w : Walk) :
    (mapLoop host config q clock task w).2 = mapWalk host config q task.shard clock hosts w := by
  induction hosts generalizing task w with
  | nil =>
      rw [mapLoop_nil h, mapWalk]
      split <;> rfl
  | cons hostId rest ih =>
      have hnext : ∀ w, (mapLoop host config q clock task.advance.2 w).2 =
          mapWalk host config q task.shard clock rest w := by
        intro w
        have hremaining : task.advance.2.remaining = rest := by
          rw [task.advance_remaining, h]
          rfl
        rw [ih hremaining, task.advance_toShardTask]
      rw [mapLoop_cons h, mapWalk]
      split
      · rfl
      · split
        · rfl
        · cases host.map hostId task.shard q with
          | error e => exact hnext _
          | ok p =>
              dsimp only
              split
              · rfl
              · exact hnext _

/-- What the walk has after it has contacted these hosts, in this order. -/
structure Walk.Contacted (host : MapHost) (q : Query) (shard : Shard) (contacts : List String)
    (w w' : Walk) : Prop where
  attempts : w'.attempts = w.attempts + contacts.length
  copies : w'.copies = w.copies ++ contacts.filterMap (answer host q shard)
  firstHost : w'.firstHost = w.firstHost.or (contacts.find? (mapAnswers host q shard))

namespace Walk.Contacted

variable {shard : Shard} {hostId : String} {contacts : List String} {w w' : Walk}

theorem nil (w : Walk) : w.Contacted host q shard [] w :=
  ⟨rfl, (List.append_nil _).symm, Option.or_none.symm⟩

theorem accept {p : Partial} (hmap : host.map hostId shard q = .ok p)
    (h : (w.accept hostId p).Contacted host q shard contacts w') :
    w.Contacted host q shard (hostId :: contacts) w' := by
  obtain ⟨hattempts, hcopies, hfirst⟩ := h
  have hanswer : answer host q shard hostId = some (hostId, p) := answer_eq_some.mpr ⟨rfl, hmap⟩
  have hanswers : mapAnswers host q shard hostId = true := by
    rw [mapAnswers, hmap]
    rfl
  refine ⟨?_, ?_, ?_⟩
  · rw [hattempts, accept_attempts, List.length_cons]
    omega
  · rw [hcopies, accept_copies, List.filterMap_cons_some hanswer, List.append_assoc]
    rfl
  · rw [hfirst, accept_firstHost, List.find?_cons_of_pos hanswers, Option.or_assoc]
    rfl

theorem fail {e : MapError} (hmap : host.map hostId shard q = .error e)
    (h : (w.fail e).Contacted host q shard contacts w') :
    w.Contacted host q shard (hostId :: contacts) w' := by
  obtain ⟨hattempts, hcopies, hfirst⟩ := h
  have hanswer : answer host q shard hostId = none := by
    rw [answer, hmap]
  have hanswers : ¬mapAnswers host q shard hostId = true := by
    rw [mapAnswers, hmap]
    exact Bool.false_ne_true
  refine ⟨?_, ?_, ?_⟩
  · rw [hattempts, fail_attempts, List.length_cons]
    omega
  · rw [hcopies, fail_copies, List.filterMap_cons_none hanswer]
  · rw [hfirst, fail_firstHost, List.find?_cons_of_neg hanswers]

end Walk.Contacted

theorem deadlinePassed_eq_false (h : config.deadline = none) (elapsed : Nat) :
    deadlinePassed config elapsed = false := by
  rw [deadlinePassed, h]
  rfl

/-- Below the attempt cap the first of the hosts can be contacted. -/
theorem take_cons_of_lt {hostId : String} {rest : List String} {cap attempts : Nat}
    (h : attempts < cap) : (hostId :: rest).take (cap - attempts) =
      hostId :: rest.take (cap - (attempts + 1)) := by
  have hcap : cap - attempts = cap - (attempts + 1) + 1 := by omega
  rw [hcap, List.take_succ_cons]

variable (host q clock) in
/-- Without a deadline the loop contacts the shortest prefix of the hosts below the
attempt cap that has the answers still missing. -/
theorem mapLoop_contacts (hdeadline : config.deadline = none) (h : task.remaining = hosts)
    (w : Walk) (hmissing : w.copies.length < max config.redundancy 1) :
    ShortestPrefix (mapAnswers host q task.shard) (max config.redundancy 1 - w.copies.length)
        (hosts.take (max config.maxAttemptsPerShard 1 - w.attempts))
        (mapLoop host config q clock task w).1 ∧
      ∃ w', (mapLoop host config q clock task w).2 = .ok w' ∧
        w.Contacted host q task.shard (mapLoop host config q clock task w).1 w' := by
  induction hosts generalizing task w with
  | nil =>
      rw [mapLoop_nil h, deadlinePassed_eq_false hdeadline, List.take_nil]
      exact ⟨.nil, w, rfl, .nil w⟩
  | cons hostId rest ih =>
      have hremaining : task.advance.2.remaining = rest := by
        rw [task.advance_remaining, h]
        rfl
      have hneeded : 0 < max config.redundancy 1 - w.copies.length := by omega
      rw [mapLoop_cons h, deadlinePassed_eq_false hdeadline, if_neg Bool.false_ne_true]
      split
      · rename_i hcap
        rw [Nat.sub_eq_zero_of_le hcap, List.take_zero]
        exact ⟨.nil, w, rfl, .nil w⟩
      · rename_i hcap
        rw [take_cons_of_lt (Nat.lt_of_not_le hcap)]
        cases hmap : host.map hostId task.shard q with
        | error e =>
            have hanswers : mapAnswers host q task.shard hostId = false := by
              rw [mapAnswers, hmap]
              rfl
            obtain ⟨hshortest, w', hok, hcontacted⟩ := ih hremaining (w.fail e) hmissing
            rw [task.advance_toShardTask] at hshortest hcontacted
            refine ⟨.cons hneeded ?_, w', hok, hcontacted.fail hmap⟩
            rwa [hanswers, if_neg Bool.false_ne_true]
        | ok p =>
            have hanswers : mapAnswers host q task.shard hostId = true := by
              rw [mapAnswers, hmap]
              rfl
            dsimp only
            split
            · rename_i hstop
              refine ⟨.cons hneeded ?_, _, rfl, .accept hmap (.nil _)⟩
              rw [hanswers, if_pos rfl]
              obtain henough | hlast := hstop
              · have hzero : max config.redundancy 1 - w.copies.length - 1 = 0 := by omega
                rw [hzero]
                exact .zero
              · rw [List.isEmpty_iff.mp hlast, List.take_nil]
                exact .nil
            · rename_i hgoes
              have hlength : (w.accept hostId p).copies.length = w.copies.length + 1 := by
                rw [Walk.accept_copies, List.length_append]
                rfl
              obtain ⟨hshortest, w', hok, hcontacted⟩ :=
                ih hremaining (w.accept hostId p) (by omega)
              rw [task.advance_toShardTask] at hshortest hcontacted
              refine ⟨.cons hneeded ?_, w', hok, hcontacted.accept hmap⟩
              rwa [hanswers, if_pos rfl, Nat.sub_sub, ← hlength]

theorem projectLoop_nil (h : task.remaining = []) (attempts : Nat) (lastErr : Option MapError) :
    projectLoop host config q clock task attempts lastErr =
      if deadlinePassed config (clock attempts) then ([], .error (.deadline task.shard.cid))
      else ([], .error (.unserved task.shard.cid task.rankedHosts.length lastErr)) := by
  have hhost : task.host = none := by
    rw [task.host_eq, h]
    rfl
  rw [projectLoop]
  split
  · rfl
  · split
    · rfl
    · rename_i hsome
      rw [hhost] at hsome
      cases hsome

theorem projectLoop_cons {hostId : String} {rest : List String}
    (h : task.remaining = hostId :: rest) (attempts : Nat) (lastErr : Option MapError) :
    projectLoop host config q clock task attempts lastErr =
      if deadlinePassed config (clock attempts) then ([], .error (.deadline task.shard.cid))
      else if attempts ≥ max config.maxAttemptsPerShard 1 then
        ([], .error (.unserved task.shard.cid task.rankedHosts.length lastErr))
      else
        match host.project hostId task.shard q with
        | .ok rows =>
            ([hostId], .ok
              { shardCid := task.shard.cid
                servedBy := hostId
                rows
                attempts := attempts + 1 })
        | .error e => contact hostId
            (projectLoop host config q clock task.advance.2 (attempts + 1) (some e)) := by
  have hhost : task.host = some hostId := by
    rw [task.host_eq, h]
    rfl
  rw [projectLoop]
  split
  · rfl
  · split
    · rename_i hnone
      rw [hhost] at hnone
      cases hnone
    · rename_i hsome
      rw [hhost] at hsome
      cases hsome
      rfl

theorem projectLoop_snd (h : task.remaining = hosts) (attempts : Nat)
    (lastErr : Option MapError) :
    (projectLoop host config q clock task attempts lastErr).2 =
      projectWalk host config q task.shard task.rankedHosts.length clock hosts attempts
        lastErr := by
  induction hosts generalizing task attempts lastErr with
  | nil =>
      rw [projectLoop_nil h, projectWalk]
      split <;> rfl
  | cons hostId rest ih =>
      have hremaining : task.advance.2.remaining = rest := by
        rw [task.advance_remaining, h]
        rfl
      rw [projectLoop_cons h, projectWalk]
      split
      · rfl
      · split
        · rfl
        · cases host.project hostId task.shard q with
          | ok rows => rfl
          | error e =>
              refine (ih hremaining (attempts + 1) (some e)).trans ?_
              rw [task.advance_toShardTask]

variable (host q clock) in
/-- Without a deadline the loop contacts the hosts below the attempt cap up to the
first that answers. -/
theorem projectLoop_contacts (hdeadline : config.deadline = none) (h : task.remaining = hosts)
    (attempts : Nat) (lastErr : Option MapError) :
    ShortestPrefix (projectAnswers host q task.shard) 1
        (hosts.take (max config.maxAttemptsPerShard 1 - attempts))
        (projectLoop host config q clock task attempts lastErr).1 ∧
      match (projectLoop host config q clock task attempts lastErr).1.find?
          (projectAnswers host q task.shard) with
      | none => ∃ e, (projectLoop host config q clock task attempts lastErr).2 =
          .error (.unserved task.shard.cid task.rankedHosts.length e)
      | some hostId => ∃ rows, host.project hostId task.shard q = .ok rows ∧
          (projectLoop host config q clock task attempts lastErr).2 = .ok
            { shardCid := task.shard.cid
              servedBy := hostId
              rows
              attempts := attempts +
                (projectLoop host config q clock task attempts lastErr).1.length } := by
  induction hosts generalizing task attempts lastErr with
  | nil =>
      rw [projectLoop_nil h, deadlinePassed_eq_false hdeadline, List.take_nil]
      exact ⟨.nil, lastErr, rfl⟩
  | cons hostId rest ih =>
      have hremaining : task.advance.2.remaining = rest := by
        rw [task.advance_remaining, h]
        rfl
      rw [projectLoop_cons h, deadlinePassed_eq_false hdeadline, if_neg Bool.false_ne_true]
      split
      · rename_i hcap
        rw [Nat.sub_eq_zero_of_le hcap, List.take_zero]
        exact ⟨.nil, lastErr, rfl⟩
      · rename_i hcap
        rw [take_cons_of_lt (Nat.lt_of_not_le hcap)]
        cases hproject : host.project hostId task.shard q with
        | ok rows =>
            have hanswers : projectAnswers host q task.shard hostId = true := by
              rw [projectAnswers, hproject]
              rfl
            dsimp only
            rw [List.find?_cons_of_pos hanswers]
            refine ⟨.cons Nat.one_pos ?_, rows, hproject, rfl⟩
            rw [hanswers, if_pos rfl]
            exact .zero
        | error e =>
            have hanswers : projectAnswers host q task.shard hostId = false := by
              rw [projectAnswers, hproject]
              rfl
            obtain ⟨hshortest, houtcome⟩ := ih hremaining (attempts + 1) (some e)
            rw [task.advance_toShardTask] at hshortest houtcome
            refine ⟨.cons Nat.one_pos ?_, ?_⟩
            · rwa [hanswers, if_neg Bool.false_ne_true]
            · dsimp only [contact]
              rw [List.find?_cons_of_neg (by rw [hanswers]; exact Bool.false_ne_true),
                List.length_cons, Nat.add_comm (List.length _) 1, ← Nat.add_assoc]
              exact houtcome

end Refinement

section Served

variable {env : Externals} {host : MapHost} {config : RunConfig} {q : Query}
  {clock : Nat → Nat} {task : ShardTask} {w : Walk}

/-- The hosts that mapping a shard contacts. -/
def mapContacts (host : MapHost) (config : RunConfig) (q : Query) (clock : Nat → Nat)
    (task : ShardTask) : List String :=
  (mapLoop host config q clock task.assigned .init).1

/-- The hosts that projecting a shard contacts. -/
def projectContacts (host : MapHost) (config : RunConfig) (q : Query) (clock : Nat → Nat)
    (task : ShardTask) : List String :=
  (projectLoop host config q clock task.assigned 0 none).1

theorem isSome_answer {shard : Shard} (hostId : String) :
    (answer host q shard hostId).isSome = mapAnswers host q shard hostId := by
  rw [answer, mapAnswers]
  cases host.map hostId shard q <;> rfl

/-- There are as many copies as hosts that answer. -/
theorem length_answers {shard : Shard} (contacts : List String) :
    (contacts.filterMap (answer host q shard)).length =
      contacts.countP (mapAnswers host q shard) := by
  rw [List.length_filterMap_eq_countP]
  congr 1
  funext hostId
  exact isSome_answer hostId

/-- Without copies the shard is unserved. -/
theorem mapOneShard_unserved
    (hwalk : mapWalk host config q task.shard clock task.rankedHosts .init = .ok w)
    (hcopies : w.copies = []) : mapOneShard env host config q clock task =
      .error (.unserved task.shard.cid task.rankedHosts.length w.lastErr) := by
  rw [mapOneShard, hwalk]
  dsimp only [bind, Except.bind]
  rw [hcopies]

variable (env) in
/-- With copies the shard is served, unless they cannot be verified. -/
theorem mapOneShard_served
    (hwalk : mapWalk host config q task.shard clock task.rankedHosts .init = .ok w)
    (hcopies : w.copies ≠ []) :
    match mapOneShard env host config q clock task with
    | .error e => ∃ reason, e = .quorum task.shard.cid reason
    | .ok o => o.attempts = w.attempts ∧ o.redistributed = decide (w.attempts > w.copies.length) ∧
        (w.firstHost.isSome = true → w.firstHost = some o.servedBy) ∧
        (o.verified = true ↔ 1 < max config.redundancy 1 ∧ 1 < w.copies.length) := by
  rw [mapOneShard, hwalk]
  dsimp only [bind, Except.bind]
  cases hsplit : w.copies with
  | nil => exact absurd hsplit hcopies
  | cons first others =>
      dsimp only
      have hserved : w.firstHost.isSome = true → w.firstHost = some (w.firstHost.getD first.1) := by
        intro hsome
        cases hfirst : w.firstHost with
        | none => simp [hfirst] at hsome
        | some hostId => rfl
      cases hverified : (decide (max config.redundancy 1 > 1) &&
        decide ((first :: others).length > 1)) with
      | false =>
          have hsingle : ¬(1 < max config.redundancy 1 ∧ 1 < (first :: others).length) := by
            rintro ⟨hredundancy, hothers⟩
            rw [decide_eq_true hredundancy, decide_eq_true hothers] at hverified
            cases hverified
          exact ⟨rfl, rfl, hserved, iff_of_false Bool.false_ne_true hsingle⟩
      | true =>
          have hseveral : 1 < max config.redundancy 1 ∧ 1 < (first :: others).length := by
            simpa only [Bool.and_eq_true, decide_eq_true_iff] using hverified
          cases hchosen : selectQuorum env.canonical (first :: others) config.quorum with
          | error reason => exact ⟨reason, rfl⟩
          | ok p => exact ⟨rfl, rfl, hserved, iff_of_true rfl hseveral⟩

/-- `contacts` is the shortest prefix of the first `cap` hosts of the ranking with
`needed` answers, and has no host twice. -/
structure Contacts (answers : String → Bool) (cap needed : Nat) (ranked contacts : List String) :
    Prop where
  shortest : ShortestPrefix answers needed (ranked.take cap) contacts
  once : contacts.Nodup

theorem Contacts.of_shortest {answers : String → Bool} {cap needed : Nat}
    {ranked contacts : List String} (hdistinct : ranked.Nodup)
    (h : ShortestPrefix answers needed (ranked.take cap) contacts) :
    Contacts answers cap needed ranked contacts where
  shortest := h
  once := hdistinct.sublist (h.isPrefix.sublist.trans (List.take_sublist cap ranked))

/-- What mapping a shard makes of the hosts that it contacts. -/
structure MapServed (env : Externals) (host : MapHost) (config : RunConfig) (q : Query)
    (clock : Nat → Nat) (task : ShardTask) (contacts : List String) : Prop where
  copies : ∃ w, mapWalk host config q task.shard clock task.rankedHosts .init = .ok w ∧
    w.attempts = contacts.length ∧ w.copies = contacts.filterMap (answer host q task.shard)
  unserved : (∃ e, mapOneShard env host config q clock task =
      .error (.unserved task.shard.cid task.rankedHosts.length e)) ↔
    ∀ hostId ∈ contacts, mapAnswers host q task.shard hostId = false
  ok : ∀ o, mapOneShard env host config q clock task = .ok o →
    o.attempts = contacts.length ∧
    contacts.find? (mapAnswers host q task.shard) = some o.servedBy ∧
    (o.redistributed = true ↔ ∃ hostId ∈ contacts, mapAnswers host q task.shard hostId = false) ∧
    (o.verified = true ↔ 1 < max config.redundancy 1 ∧
      2 ≤ contacts.countP (mapAnswers host q task.shard))

/-- What projecting a shard makes of the hosts that it contacts. -/
structure ProjectServed (host : MapHost) (config : RunConfig) (q : Query) (clock : Nat → Nat)
    (task : ShardTask) (contacts : List String) : Prop where
  unserved : (∃ e, projectOneShard host config q clock task =
      .error (.unserved task.shard.cid task.rankedHosts.length e)) ↔
    ∀ hostId ∈ contacts, projectAnswers host q task.shard hostId = false
  ok : ∀ o, projectOneShard host config q clock task = .ok o →
    o.attempts = contacts.length ∧
    contacts.find? (projectAnswers host q task.shard) = some o.servedBy ∧
    host.project o.servedBy task.shard q = .ok o.rows

/-- Fewer copies than contacts means that a host has failed. -/
theorem countP_lt_length_iff {contacts : List String} {answers : String → Bool} :
    contacts.countP answers < contacts.length ↔ ∃ hostId ∈ contacts, answers hostId = false := by
  have hle : contacts.countP answers ≤ contacts.length := List.countP_le_length
  have hall : contacts.countP answers ≠ contacts.length ↔
      ∃ hostId ∈ contacts, answers hostId = false := by
    rw [ne_eq, List.countP_eq_length]
    simp
  rw [← hall]
  omega

theorem mapServed (hdeadline : config.deadline = none) :
    MapServed env host config q clock task (mapContacts host config q clock task) := by
  have hmissing : Walk.init.copies.length < max config.redundancy 1 := by
    change 0 < max config.redundancy 1
    omega
  obtain ⟨_, w, hok, hattempts, hcopies, hfirst⟩ :=
    mapLoop_contacts host q clock hdeadline task.assigned_remaining .init hmissing
  have hwalk : mapWalk host config q task.shard clock task.rankedHosts .init = .ok w :=
    (mapLoop_snd task.assigned_remaining .init).symm.trans hok
  change w.attempts = 0 + (mapContacts host config q clock task).length at hattempts
  change w.copies = (mapContacts host config q clock task).filterMap _ at hcopies
  change w.firstHost = (mapContacts host config q clock task).find?
    (mapAnswers host q task.shard) at hfirst
  generalize mapContacts host config q clock task = contacts at *
  have hlength : w.copies.length = contacts.countP (mapAnswers host q task.shard) := by
    rw [hcopies]
    exact length_answers contacts
  have hnone : w.copies = [] ↔
      ∀ hostId ∈ contacts, mapAnswers host q task.shard hostId = false := by
    rw [← List.length_eq_zero_iff, hlength, List.countP_eq_zero]
    simp only [Bool.not_eq_true]
  refine ⟨⟨w, hwalk, hattempts.trans (Nat.zero_add _), hcopies⟩, ?_, ?_⟩
  · rw [← hnone]
    constructor
    · rintro ⟨e, hunserved⟩
      by_contra hsome
      have hserved := mapOneShard_served env hwalk hsome
      rw [hunserved] at hserved
      obtain ⟨reason, hquorum⟩ := hserved
      cases hquorum
    · exact fun hempty => ⟨w.lastErr, mapOneShard_unserved hwalk hempty⟩
  · intro o ho
    have hsome : w.copies ≠ [] := by
      intro hempty
      rw [mapOneShard_unserved hwalk hempty] at ho
      cases ho
    have hserved := mapOneShard_served env hwalk hsome
    rw [ho] at hserved
    obtain ⟨hattempts', hredistributed, hhost, hverified⟩ := hserved
    refine ⟨?_, ?_, ?_, ?_⟩
    · rw [hattempts', hattempts]
      exact Nat.zero_add _
    · rw [← hfirst]
      apply hhost
      rw [hfirst, List.find?_isSome]
      by_contra hall
      refine hsome (hnone.mpr fun hostId hmem => ?_)
      exact Bool.eq_false_iff.mpr fun hanswers => hall ⟨hostId, hmem, hanswers⟩
    · rw [hredistributed, decide_eq_true_iff, ← countP_lt_length_iff, hattempts, hlength]
      change _ < 0 + _ ↔ _
      rw [Nat.zero_add]
    · rw [hverified, hlength]
      exact Iff.rfl

theorem projectServed (hdeadline : config.deadline = none) :
    ProjectServed host config q clock task (projectContacts host config q clock task) := by
  have houtcome :=
    (projectLoop_contacts host q clock hdeadline task.assigned_remaining 0 none).2
  rw [projectLoop_snd task.assigned_remaining] at houtcome
  change match (projectContacts host config q clock task).find?
      (projectAnswers host q task.shard) with
    | none => ∃ e, projectOneShard host config q clock task =
        .error (.unserved task.shard.cid task.rankedHosts.length e)
    | some hostId => ∃ rows, host.project hostId task.shard q = .ok rows ∧
        projectOneShard host config q clock task = .ok
          { shardCid := task.shard.cid
            servedBy := hostId
            rows
            attempts := 0 + (projectContacts host config q clock task).length } at houtcome
  generalize projectContacts host config q clock task = contacts at *
  cases hfind : contacts.find? (projectAnswers host q task.shard) with
  | none =>
      rw [hfind] at houtcome
      obtain ⟨e, hunserved⟩ := houtcome
      refine ⟨iff_of_true ⟨e, hunserved⟩ ?_, ?_⟩
      · intro hostId hmem
        exact Bool.eq_false_iff.mpr (List.find?_eq_none.mp hfind hostId hmem)
      · intro o ho
        rw [hunserved] at ho
        cases ho
  | some hostId =>
      rw [hfind] at houtcome
      obtain ⟨rows, hproject, hok⟩ := houtcome
      refine ⟨iff_of_false ?_ ?_, ?_⟩
      · rintro ⟨e, hunserved⟩
        rw [hok] at hunserved
        cases hunserved
      · intro hall
        have hanswers := List.find?_some hfind
        rw [hall hostId (List.mem_of_find?_eq_some hfind)] at hanswers
        cases hanswers
      · intro o ho
        rw [hok] at ho
        cases ho
        exact ⟨Nat.zero_add _, hfind, hproject⟩

/-- Without a deadline, mapping a shard contacts the shortest prefix of the hosts below
the attempt cap that has as many answers as copies are wanted, and projecting it the
shortest prefix with one answer. The copies are the answers of these hosts, and the
outcome reports them. -/
theorem mapOneShard_contacts (hdeadline : config.deadline = none)
    (hdistinct : task.rankedHosts.Nodup) :
    (Contacts (mapAnswers host q task.shard) (max config.maxAttemptsPerShard 1)
        (max config.redundancy 1) task.rankedHosts (mapContacts host config q clock task) ∧
      MapServed env host config q clock task (mapContacts host config q clock task)) ∧
    Contacts (projectAnswers host q task.shard) (max config.maxAttemptsPerShard 1) 1
        task.rankedHosts (projectContacts host config q clock task) ∧
      ProjectServed host config q clock task (projectContacts host config q clock task) := by
  have hmissing : Walk.init.copies.length < max config.redundancy 1 := by
    change 0 < max config.redundancy 1
    omega
  refine ⟨⟨.of_shortest hdistinct ?_, mapServed hdeadline⟩, .of_shortest hdistinct ?_,
    projectServed hdeadline⟩
  · exact (mapLoop_contacts host q clock hdeadline task.assigned_remaining .init hmissing).1
  · exact (projectLoop_contacts host q clock hdeadline task.assigned_remaining 0 none).1

end Served

/-- The first host is down. -/
private def failingFirst : MapHost where
  map hostId _ _ :=
    if hostId = "host0" then .error .timeout else .ok { aggregates := [], groups := ∅ }
  project hostId _ _ := if hostId = "host0" then .error .timeout else .ok []

private def patientConfig : RunConfig where
  maxAttemptsPerShard := 3
  maxInFlight := 4
  redundancy := 1
  quorum := 0
  deadline := none
  limits :=
    { maxScanBytes := U64.zero
      maxScanRows := U64.zero
      maxShards := 0
      maxResultGroups := 0 }

private def emptyQuery : Query where
  dataset := "t"
  aggregates := []
  predicate := .true
  groupBy := []
  orderBy := []
  limit := none
  projection := none

private def threeHosts : ShardTask where
  shard := { cid := "s0", rows := U64.one, bytes := U64.zero, stats := none }
  rankedHosts := ["host0", "host1", "host2"]

/-- The second host serves the shard. -/
theorem mapOneShard_contacts_flaky :
    mapContacts failingFirst patientConfig emptyQuery (fun _ => 0) threeHosts = ["host0", "host1"] ∧
      projectContacts failingFirst patientConfig emptyQuery (fun _ => 0) threeHosts =
        ["host0", "host1"] := by
  obtain ⟨⟨hmap, _⟩, hproject, _⟩ := @mapOneShard_contacts .sample failingFirst patientConfig
    emptyQuery (fun _ => 0) threeHosts rfl (by decide)
  refine ⟨hmap.shortest.unique ?_, hproject.shortest.unique ?_⟩
  · exact .cons Nat.one_pos (.cons Nat.one_pos .zero)
  · exact .cons Nat.one_pos (.cons Nat.one_pos .zero)

end CeQuery
