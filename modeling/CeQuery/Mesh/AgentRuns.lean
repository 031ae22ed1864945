import CeQuery.Mesh.Agent
import Mathlib.Data.List.Perm.Lattice

/-!
# What an agent does over a whole run

Every message that an agent takes is settled once: it is dropped if it is no map
request, or it gets one reply (`Agent.settled_once`). A reply is the answer to the
request of its message, under a set of revoked capabilities that the job has read
after the message was taken (`Agent.Accounts`). So a capability that is revoked in
one refresh and in every later one opens nothing to a message taken after that
(`revoked_discloses_nothing`), and an agent is never stuck (`settles_all`).
-/

namespace CeQuery

namespace Agent

variable {Cap Token : Type} {serde : SerdeJson} {json : JsonText} {iam : IamCore Cap}
  {setup : Setup} {w t : World Token} {e : Event Token} {out seen : List (Note Token)}

/-! ## Steps -/

/-- What one event can do. -/
inductive Effect (serde : SerdeJson) (json : JsonText) (iam : IamCore Cap) (setup : Setup)
    (w t : World Token) : Event Token → List (Note Token) → Prop
  | looped {e : Event Token} (htaken : t.taken = w.taken) (hjobs : t.jobs = w.jobs)
      (hrevoked : t.revoked = w.revoked) : Effect serde json iam setup w t e []
  | refreshed (listing : Except String (List (String × U64))) (now : U64)
      (htaken : t.taken = w.taken) (hjobs : t.jobs = w.jobs)
      (hrevoked : t.revoked = refresh w.revoked listing) :
      Effect serde json iam setup w t (.refreshed listing now) []
  | dropped (m : Message Token) (hintake : m.intake json = .ignored)
      (htaken : t.taken = w.taken + 1) (hjobs : t.jobs = w.jobs)
      (hrevoked : t.revoked = w.revoked) :
      Effect serde json iam setup w t .take [.took w.taken m, .dropped w.taken]
  | refused (m : Message Token) (token : Token) (hintake : m.intake json = .refused token)
      (htaken : t.taken = w.taken + 1) (hjobs : t.jobs = w.jobs)
      (hrevoked : t.revoked = w.revoked) :
      Effect serde json iam setup w t .take [.took w.taken m, .replied w.taken token tooLarge]
  | accepted (m : Message Token) (token : Token) (requester : Option NodeId) (req : MapRequest)
      (hintake : m.intake json = .request token requester req)
      (hpermit : w.jobs.length < setup.permits) (htaken : t.taken = w.taken + 1)
      (hjobs : t.jobs =
        w.jobs ++ [{ number := w.taken, token, requester, req, revoked := none }])
      (hrevoked : t.revoked = w.revoked) : Effect serde json iam setup w t .take [.took w.taken m]
  | read (i : Nat) (job : Job Token) (hjob : w.jobs[i]? = some job) (htaken : t.taken = w.taken)
      (hjobs : t.jobs = w.jobs.set i { job with revoked := some w.revoked })
      (hrevoked : t.revoked = w.revoked) : Effect serde json iam setup w t (.read i) []
  | served (i : Nat) (now : U64) (store : BlobStore) (job : Job Token) (revoked : RevokedSet)
      (hjob : w.jobs[i]? = some job) (hset : job.revoked = some revoked)
      (htaken : t.taken = w.taken) (hjobs : t.jobs = w.jobs.eraseIdx i)
      (hrevoked : t.revoked = w.revoked) :
      Effect serde json iam setup w t (.serve i now store)
        [.replied job.number job.token
          (answer serde json iam setup job.requester revoked now store job.req)]

private theorem takeMessage_effect {m : Message Token} {rest : List (Message Token)}
    (h : w.takeMessage json setup m rest = some (t, out)) :
    Effect serde json iam setup w t .take out := by
  rw [World.takeMessage] at h
  cases hintake : m.intake json with
  | ignored =>
      rw [hintake] at h
      cases h
      exact .dropped m hintake rfl rfl rfl
  | refused token =>
      rw [hintake] at h
      cases h
      exact .refused m token hintake rfl rfl rfl
  | request token requester req =>
      rw [hintake] at h
      by_cases hpermit : w.jobs.length < setup.permits
      · simp only [if_pos hpermit] at h
        cases h
        exact .accepted m token requester req hintake hpermit rfl rfl rfl
      · simp only [if_neg hpermit] at h
        cases h

/-- A step does what its event says. -/
theorem next_effect (h : w.next serde json iam setup e = some (t, out)) :
    Effect serde json iam setup w t e out := by
  cases e with
  | check now =>
      simp only [World.next] at h
      split at h
      · cases h
        exact .looped rfl rfl rfl
      · cases h
  | refreshed listing now =>
      simp only [World.next] at h
      split at h
      · cases h
        exact .refreshed listing now rfl rfl rfl
      · cases h
  | polled messages =>
      simp only [World.next] at h
      split at h
      · cases h
        exact .looped rfl rfl rfl
      · cases h
  | take =>
      simp only [World.next] at h
      split at h
      · exact takeMessage_effect h
      · cases h
  | sleep =>
      simp only [World.next] at h
      split at h
      · cases h
        exact .looped rfl rfl rfl
      · cases h
  | read i =>
      simp only [World.next] at h
      split at h
      · rename_i job hjob
        split at h
        · cases h
          exact .read i job hjob rfl rfl rfl
        · cases h
      · cases h
  | serve i now store =>
      simp only [World.next] at h
      split at h
      · rename_i job hjob
        split at h
        · rename_i revoked hset
          cases h
          exact .served i now store job revoked hjob hset rfl rfl rfl
        · cases h
      · cases h

/-! ## Accounts of a run -/

/-- The number of a message that was taken. -/
def Note.taken : Note Token → Option Nat
  | .took n _ => some n
  | _ => none

/-- The number of a message that was dropped or replied to. -/
def Note.settled : Note Token → Option Nat
  | .took _ _ => none
  | .dropped n => some n
  | .replied n _ _ => some n

/-- The requests that are served keep to the permits, and every message that was
taken is served at present, was dropped, or was replied to, one of them and once. -/
structure Settles (setup : Setup) (w : World Token) (seen : List (Note Token)) : Prop where
  bounded : w.jobs.length ≤ setup.permits
  once : (seen.filterMap Note.settled ++ w.jobs.map (·.number)).Perm (List.range w.taken)

private theorem perm_append_middle {α : Type} (xs ys zs : List α) :
    (xs ++ ys ++ zs).Perm (xs ++ zs ++ ys) := by
  rw [List.append_assoc, List.append_assoc]
  exact List.perm_append_comm.append_left xs

/-- One more message is taken and settled in the same step. -/
private theorem Settles.settle_next (h : Settles setup w seen) (hout : out.filterMap Note.settled =
    [w.taken]) (htaken : t.taken = w.taken + 1) (hjobs : t.jobs = w.jobs) :
    Settles setup t (seen ++ out) := by
  refine ⟨hjobs ▸ h.bounded, ?_⟩
  rw [List.filterMap_append, hout, htaken, hjobs, List.range_succ]
  exact (perm_append_middle _ _ _).trans (h.once.append_right _)

theorem settles_step (h : Settles setup w seen)
    (hnext : w.next serde json iam setup e = some (t, out)) : Settles setup t (seen ++ out) := by
  cases next_effect hnext with
  | looped htaken hjobs _ =>
      rw [List.append_nil]
      exact ⟨hjobs ▸ h.bounded, by rw [hjobs, htaken]; exact h.once⟩
  | refreshed _ _ htaken hjobs _ =>
      rw [List.append_nil]
      exact ⟨hjobs ▸ h.bounded, by rw [hjobs, htaken]; exact h.once⟩
  | dropped m _ htaken hjobs _ => exact h.settle_next rfl htaken hjobs
  | refused m token _ htaken hjobs _ => exact h.settle_next rfl htaken hjobs
  | accepted m token requester req _ hpermit htaken hjobs _ =>
      constructor
      · rw [hjobs, List.length_append, List.length_singleton]
        exact hpermit
      · have hout : [Note.took w.taken m].filterMap Note.settled = [] := rfl
        rw [List.filterMap_append, hout, List.append_nil, hjobs, List.map_append, htaken,
          List.range_succ, ← List.append_assoc]
        exact h.once.append_right _
  | read i job hjob htaken hjobs _ =>
      have hnumbers : t.jobs.map (·.number) = w.jobs.map (·.number) := by
        have hnumber : (w.jobs.map (·.number))[i]? = some job.number := by
          rw [List.getElem?_map, hjob, Option.map_some]
        obtain ⟨hi, hget⟩ := List.getElem?_eq_some_iff.mp hnumber
        rw [hjobs, List.map_set]
        change (w.jobs.map (·.number)).set i job.number = _
        rw [← hget]
        exact List.set_getElem_self hi
      refine ⟨?_, ?_⟩
      · rw [hjobs, List.length_set]
        exact h.bounded
      · rw [List.append_nil, hnumbers, htaken]
        exact h.once
  | served i now store job revoked hjob _ htaken hjobs _ =>
      obtain ⟨hi, hget⟩ := List.getElem?_eq_some_iff.mp hjob
      constructor
      · rw [hjobs]
        exact Nat.le_trans (List.length_eraseIdx_le _ _) h.bounded
      · have hperm : (job.number :: (w.jobs.eraseIdx i).map (·.number)).Perm
            (w.jobs.map (·.number)) := by
          have herase := (List.getElem_cons_eraseIdx_perm hi).map (·.number)
          rwa [hget] at herase
        rw [List.filterMap_append, hjobs, htaken, List.append_assoc]
        exact (hperm.append_left _).trans h.once

/-- The requests that an agent serves were read from messages that it took, the sets
of revoked capabilities that their jobs used are good ones, and every reply says what
its message and its set make of it. Messages with a number below `first` are left out. -/
structure Accounts (serde : SerdeJson) (json : JsonText) (iam : IamCore Cap) (setup : Setup)
    (good : Nat → RevokedSet → Prop) (first : Nat) (w : World Token) (seen : List (Note Token)) :
    Prop where
  first_le : first ≤ w.taken
  numbered : seen.filterMap Note.taken = List.range' first (w.taken - first)
  read : ∀ job ∈ w.jobs, first ≤ job.number → ∀ revoked, job.revoked = some revoked →
    good job.number revoked
  serving : ∀ job ∈ w.jobs, first ≤ job.number → ∃ m, .took job.number m ∈ seen ∧
    m.intake json = .request job.token job.requester job.req
  dropped : ∀ n, .dropped n ∈ seen → ∃ m, .took n m ∈ seen ∧ m.intake json = .ignored
  replied : ∀ n token reply, .replied n token reply ∈ seen → first ≤ n →
    ∃ m, .took n m ∈ seen ∧
      (m.intake json = .refused token ∧ reply = tooLarge ∨
        ∃ requester req revoked now store, m.intake json = .request token requester req ∧
          good n revoked ∧ reply = answer serde json iam setup requester revoked now store req)

/-- A job that reads the set gets a good one. -/
def Reads (good : Nat → RevokedSet → Prop) (w : World Token) (e : Event Token) : Prop :=
  ∀ i job, e = .read i → w.jobs[i]? = some job → good job.number w.revoked

/-- The listings that are read give good sets. -/
def Lists (good : RevokedSet → Prop) (_ : World Token) (e : Event Token) : Prop :=
  ∀ listing now, e = .refreshed (.ok listing) now → good (.ofListing listing)

theorem revoked_step {good : RevokedSet → Prop} (h : good w.revoked) (hgood : Lists good w e)
    (hnext : w.next serde json iam setup e = some (t, out)) : good t.revoked := by
  cases next_effect hnext with
  | refreshed listing now _ _ hrevoked =>
      rw [hrevoked]
      cases listing with
      | ok listing => exact hgood listing now rfl
      | error reason => exact h
  | looped _ _ hrevoked => exact hrevoked ▸ h
  | dropped _ _ _ _ hrevoked => exact hrevoked ▸ h
  | refused _ _ _ _ _ hrevoked => exact hrevoked ▸ h
  | accepted _ _ _ _ _ _ _ _ hrevoked => exact hrevoked ▸ h
  | read _ _ _ _ _ hrevoked => exact hrevoked ▸ h
  | served _ _ _ _ _ _ _ _ _ hrevoked => exact hrevoked ▸ h

section Accounts

variable {good : Nat → RevokedSet → Prop} {first : Nat}

/-- One more message is taken. -/
private theorem Accounts.take_next (h : Accounts serde json iam setup good first w seen)
    {m : Message Token} {more : List (Note Token)} (hmore : more.filterMap Note.taken = [])
    (htaken : t.taken = w.taken + 1) :
    (seen ++ .took w.taken m :: more).filterMap Note.taken =
      List.range' first (t.taken - first) := by
  have hfirst := h.first_le
  have hlength : t.taken - first = (w.taken - first) + 1 := by omega
  have hlast : first + (w.taken - first) = w.taken := by omega
  have hout : (Note.took w.taken m :: more).filterMap Note.taken = [w.taken] :=
    congrArg (w.taken :: ·) hmore
  rw [List.filterMap_append, h.numbered, hout, hlength, List.range'_concat, Nat.one_mul, hlast]

/-- What is known of a note or a job does not depend on what comes later. -/
private theorem Accounts.extend (h : Accounts serde json iam setup good first w seen)
    (hfirst : first ≤ t.taken)
    (hnumbered : (seen ++ out).filterMap Note.taken = List.range' first (t.taken - first))
    (hread : ∀ job ∈ t.jobs, first ≤ job.number → ∀ revoked, job.revoked = some revoked →
      good job.number revoked)
    (hserving : ∀ job ∈ t.jobs,
      (∃ old ∈ w.jobs, job = { old with revoked := job.revoked }) ∨
        ∃ m, .took job.number m ∈ out ∧ m.intake json = .request job.token job.requester job.req)
    (hdropped : ∀ n, .dropped n ∈ out → ∃ m, .took n m ∈ seen ++ out ∧ m.intake json = .ignored)
    (hreplied : ∀ n token reply, .replied n token reply ∈ out → first ≤ n →
      ∃ m, .took n m ∈ seen ++ out ∧
        (m.intake json = .refused token ∧ reply = tooLarge ∨
          ∃ requester req revoked now store, m.intake json = .request token requester req ∧
            good n revoked ∧
              reply = answer serde json iam setup requester revoked now store req)) :
    Accounts serde json iam setup good first t (seen ++ out) where
  first_le := hfirst
  numbered := hnumbered
  read := hread
  serving job hjob hnumber := by
    obtain ⟨old, hold, heq⟩ | ⟨m, hm, hintake⟩ := hserving job hjob
    · rw [heq] at hnumber ⊢
      obtain ⟨m, hm, hintake⟩ := h.serving old hold hnumber
      exact ⟨m, List.mem_append_left _ hm, hintake⟩
    · exact ⟨m, List.mem_append_right _ hm, hintake⟩
  dropped n hn := by
    obtain hn | hn := List.mem_append.mp hn
    · obtain ⟨m, hm, hintake⟩ := h.dropped n hn
      exact ⟨m, List.mem_append_left _ hm, hintake⟩
    · exact hdropped n hn
  replied n token reply hn hfirst := by
    obtain hn | hn := List.mem_append.mp hn
    · obtain ⟨m, hm, hreply⟩ := h.replied n token reply hn hfirst
      exact ⟨m, List.mem_append_left _ hm, hreply⟩
    · exact hreplied n token reply hn hfirst

/-- A step of the loop between two messages. -/
private theorem Accounts.loop (h : Accounts serde json iam setup good first w seen)
    (htaken : t.taken = w.taken) (hjobs : t.jobs = w.jobs) :
    Accounts serde json iam setup good first t (seen ++ []) := by
  apply h.extend
  · exact htaken ▸ h.first_le
  · rw [List.append_nil, htaken]
    exact h.numbered
  · rw [hjobs]
    exact h.read
  · rw [hjobs]
    exact fun job hjob => .inl ⟨job, hjob, rfl⟩
  · exact fun _ => nofun
  · exact fun _ _ _ => nofun

theorem accounts_step (h : Accounts serde json iam setup good first w seen)
    (hgood : Reads good w e) (hnext : w.next serde json iam setup e = some (t, out)) :
    Accounts serde json iam setup good first t (seen ++ out) := by
  have hfirst := h.first_le
  cases next_effect hnext with
  | looped htaken hjobs _ => exact h.loop htaken hjobs
  | refreshed _ _ htaken hjobs _ => exact h.loop htaken hjobs
  | dropped m hintake htaken hjobs _ =>
      apply h.extend
      · omega
      · exact h.take_next rfl htaken
      · rw [hjobs]
        exact h.read
      · rw [hjobs]
        exact fun job hjob => .inl ⟨job, hjob, rfl⟩
      · intro n hn
        have hn : n = w.taken := by simpa using hn
        exact ⟨m, by simp [hn], hintake⟩
      · simp
  | refused m token hintake htaken hjobs _ =>
      apply h.extend
      · omega
      · exact h.take_next rfl htaken
      · rw [hjobs]
        exact h.read
      · rw [hjobs]
        exact fun job hjob => .inl ⟨job, hjob, rfl⟩
      · simp
      · intro n token' reply hn _
        have hn : n = w.taken ∧ token' = token ∧ reply = tooLarge := by simpa using hn
        obtain ⟨rfl, rfl, rfl⟩ := hn
        exact ⟨m, by simp, .inl ⟨hintake, rfl⟩⟩
  | accepted m token requester req hintake _ htaken hjobs _ =>
      apply h.extend
      · omega
      · exact h.take_next rfl htaken
      · intro job hjob
        rw [hjobs] at hjob
        obtain hjob | hjob := List.mem_append.mp hjob
        · exact h.read job hjob
        · rw [List.mem_singleton.mp hjob]
          exact fun _ _ => nofun
      · intro job hjob
        rw [hjobs] at hjob
        obtain hjob | hjob := List.mem_append.mp hjob
        · exact .inl ⟨job, hjob, rfl⟩
        · rw [List.mem_singleton.mp hjob]
          exact .inr ⟨m, List.mem_singleton_self _, hintake⟩
      · simp
      · simp
  | read i job hjob htaken hjobs _ =>
      have hmem : ∀ job' ∈ t.jobs,
          job' ∈ w.jobs ∨ job' = { job with revoked := some w.revoked } := by
        rw [hjobs]
        exact fun _ => List.mem_or_eq_of_mem_set
      apply h.extend
      · omega
      · rw [List.append_nil, htaken]
        exact h.numbered
      · intro job' hjob' hnumber revoked hset
        obtain hold | rfl := hmem job' hjob'
        · exact h.read job' hold hnumber revoked hset
        · cases hset
          exact hgood i job rfl hjob
      · intro job' hjob'
        obtain hold | rfl := hmem job' hjob'
        · exact .inl ⟨job', hold, rfl⟩
        · exact .inl ⟨job, List.mem_of_getElem? hjob, rfl⟩
      · exact fun _ => nofun
      · exact fun _ _ _ => nofun
  | served i now store job revoked hjob hset htaken hjobs _ =>
      have hmem : ∀ job' ∈ t.jobs, job' ∈ w.jobs := by
        rw [hjobs]
        exact fun _ => List.mem_of_mem_eraseIdx
      have hold := List.mem_of_getElem? hjob
      apply h.extend
      · omega
      · rw [List.filterMap_append, htaken, h.numbered]
        exact List.append_nil _
      · exact fun job' hjob' => h.read job' (hmem job' hjob')
      · exact fun job' hjob' => .inl ⟨job', hmem job' hjob', rfl⟩
      · simp
      · intro n token reply hn hnumber
        simp only [List.mem_singleton, Note.replied.injEq] at hn
        obtain ⟨rfl, rfl, rfl⟩ := hn
        obtain ⟨m, hm, hintake⟩ := h.serving job hold hnumber
        exact ⟨m, List.mem_append_left _ hm, .inr ⟨job.requester, job.req, revoked, now, store,
          hintake, h.read job hold hnumber revoked hset, rfl⟩⟩

end Accounts

/-! ## Whole runs -/

section Runs

variable {listing : Except String (List (String × U64))} {now : U64} {w' : World Token}
  {es es' : List (Event Token)} {out' : List (Note Token)}

/-- A run in which the agent lists good sets only. -/
theorem run_keeps_accounts {good : RevokedSet → Prop} {first : Nat} (hgood : good w.revoked)
    (hstart : Accounts serde json iam setup (fun _ => good) first w [])
    (hlists : (machine serde json iam setup).Throughout (Lists good) w es')
    (hrun : (machine serde json iam setup).run w es' = some (w', out')) :
    good w'.revoked ∧ Accounts serde json iam setup (fun _ => good) first w' out' := by
  refine Machine.run_invariant (I := fun u seen => good u.revoked ∧
    Accounts serde json iam setup (fun _ => good) first u seen) ?_ ⟨hgood, hstart⟩ hlists hrun
  rintro u seen e u' out ⟨hset, h⟩ hgood hnext
  exact ⟨revoked_step hset hgood hnext, accounts_step h (fun _ _ _ _ => hset) hnext⟩

theorem run_settles (hrun : (machine serde json iam setup).run (.start listing now) es =
    some (w, out)) : Settles setup w out := by
  have hstart : Settles setup (.start listing now : World Token) [] :=
    ⟨Nat.zero_le _, List.Perm.refl _⟩
  refine Machine.run_invariant (P := fun _ _ => True) (I := Settles setup) ?_ hstart
    (.of_forall fun _ _ _ => trivial) hrun
  exact fun _ _ _ _ _ h _ hnext => settles_step h hnext

/-- In a run from this state, the job of a message read the set that the agent had at
that moment. -/
def HasRead (serde : SerdeJson) (json : JsonText) (iam : IamCore Cap) (setup : Setup)
    (w₀ : World Token) (es : List (Event Token)) (n : Nat) (revoked : RevokedSet) : Prop :=
  ∃ before i after u seen job, es = before ++ .read i :: after ∧
    (machine serde json iam setup).run w₀ before = some (u, seen) ∧
      u.jobs[i]? = some job ∧ job.number = n ∧ u.revoked = revoked

/-- Whatever happens, the agent serves no more requests at once than it has permits,
and every message that it took is being served, was dropped, or got one reply; a
dropped message is no map request, and a reply says that the request is too large or
is the answer to it, under the set of revoked capabilities that its job has read. -/
theorem settled_once (hrun : (machine serde json iam setup).run (.start listing now) es =
    some (w, out)) :
    Settles setup w out ∧ Accounts serde json iam setup
      (HasRead serde json iam setup (.start listing now) es) 0 w out := by
  refine ⟨run_settles hrun, ?_⟩
  have hstart : Accounts serde json iam setup
      (HasRead serde json iam setup (.start listing now) es) 0
        (.start listing now : World Token) [] :=
    ⟨Nat.zero_le _, rfl, fun _ => nofun, fun _ => nofun, fun _ => nofun, fun _ _ _ => nofun⟩
  have hreads : (machine serde json iam setup).Throughout
      (Reads (HasRead serde json iam setup (.start listing now) es))
      (.start listing now : World Token) es := by
    refine .of_run fun before e after u seen hsplit hbefore => ?_
    rintro i job rfl hjob
    exact ⟨before, i, after, u, seen, job, hsplit, hbefore, hjob, rfl, rfl⟩
  refine Machine.run_invariant ?_ hstart hreads hrun
  exact fun _ _ _ _ _ h hgood hnext => accounts_step h hgood hnext

/-! ## Revocation -/

/-- A number stands for one message. -/
theorem took_unique (hnodup : (out.filterMap Note.taken).Nodup) {n : Nat}
    {m m' : Message Token} (hm : .took n m ∈ out) (hm' : .took n m' ∈ out) : m = m' := by
  by_contra hne
  have hapart := List.pairwise_filterMap.mp hnodup
  have : Std.Symm fun a b : Note Token =>
      ∀ x, a.taken = some x → ∀ y, b.taken = some y → x ≠ y :=
    ⟨fun _ _ h y hy x hx => (h x hx y hy).symm⟩
  have hnotes : Note.took n m ≠ .took n m' := fun heq => hne (Note.took.inj heq).2
  exact hapart.forall hm hm' hnotes n rfl n rfl rfl

end Runs

/-- What is used of the identity of a capability. -/
structure RevocableIam (Cap : Type) extends IamCore Cap where
  issuer : Cap → NodeId
  nonce : Cap → U64

/-- An authorized chain has no link that is revoked. -/
def RevocableIam.ChecksRevocation (iam : RevocableIam Cap) : Prop :=
  ∀ selfId acceptedRoots selfTags now requester ability chain isRevoked,
    iam.authorize selfId acceptedRoots selfTags now requester ability chain isRevoked = .ok () →
      ∀ cap ∈ chain, isRevoked (iam.issuer cap) (iam.nonce cap) = false

/-- The request presents a token whose chain has a certain link. -/
def RevocableIam.Presents (iam : RevocableIam Cap) (issuer : NodeId) (nonce : U64)
    (req : MapRequest) : Prop :=
  ∃ grant chain, req.grant = some grant ∧ iam.decodeChain grant = .ok chain ∧
    ∃ cap ∈ chain, iam.issuer cap = issuer ∧ iam.nonce cap = nonce

section Revocation

variable {iam : RevocableIam Cap} {issuer : NodeId} {nonce : U64}

/-- With a set that has a link of the token, nothing is disclosed. -/
theorem answer_of_revoked (hiam : iam.ChecksRevocation) (hgrant : setup.requireGrant = true)
    {requester : Option NodeId} {req : MapRequest} (hpresents : iam.Presents issuer nonce req)
    {revoked : RevokedSet} (hrevoked : revoked.has issuer nonce = true) {now : U64}
    {store : BlobStore} :
    ¬(answer serde json iam.toIamCore setup requester revoked now store req).Discloses := by
  intro hdiscloses
  have hcheck := verify_of_discloses hdiscloses
  rw [hgrant] at hcheck
  obtain ⟨node, grant, _, hreq, hverify⟩ := grantCheck_eq_ok_iff.mp hcheck
  obtain ⟨chain, leaf, hdecode, hauthorized, _⟩ := verify_eq_ok_iff.mp hverify
  obtain ⟨grant', chain', hreq', hdecode', cap, hcap, rfl, rfl⟩ := hpresents
  cases hreq.symm.trans hreq'
  cases hdecode.symm.trans hdecode'
  have hfree := hiam _ _ _ _ _ _ _ _ hauthorized cap hcap
  rw [hrevoked] at hfree
  cases hfree

variable {listing : Except String (List (String × U64))} {now : U64} {w' : World Token}
  {es es' : List (Event Token)} {out' : List (Note Token)}

/-- Once the agent has a capability among the revoked ones, and as long as every
listing that it reads names it, no message taken from then on is shown anything of a
shard for a token with that capability in its chain. -/
theorem revoked_discloses_nothing (hiam : iam.ChecksRevocation)
    (hgrant : setup.requireGrant = true)
    (hrun : (machine serde json iam.toIamCore setup).run (.start listing now) es = some (w, out))
    (hrevoked : w.revoked.has issuer nonce = true)
    (hlists : (machine serde json iam.toIamCore setup).Throughout
      (Lists fun revoked => revoked.has issuer nonce = true) w es')
    (hrun' : (machine serde json iam.toIamCore setup).run w es' = some (w', out'))
    {n : Nat} {m : Message Token} {token token' : Token} {requester : Option NodeId}
    {req : MapRequest} {reply : MapReply} (htook : .took n m ∈ out')
    (hintake : m.intake json = .request token requester req)
    (hpresents : iam.Presents issuer nonce req) (hreplied : .replied n token' reply ∈ out') :
    ¬reply.Discloses := by
  have hearlier : ∀ job ∈ w.jobs, ¬w.taken ≤ job.number := by
    intro job hjob
    have hmem := (run_settles hrun).once.subset
      (List.mem_append_right _ (List.mem_map_of_mem hjob))
    exact Nat.not_le.mpr (List.mem_range.mp hmem)
  have hstart : Accounts serde json iam.toIamCore setup
      (fun _ revoked => revoked.has issuer nonce = true) w.taken w [] :=
    ⟨Nat.le_refl _, by rw [Nat.sub_self]; rfl,
      fun job hjob hnumber => absurd hnumber (hearlier job hjob),
      fun job hjob hnumber => absurd hnumber (hearlier job hjob), fun _ => nofun,
      fun _ _ _ => nofun⟩
  have hend := (run_keeps_accounts hrevoked hstart hlists hrun').2
  have hnumber : w.taken ≤ n := by
    have hmem : n ∈ out'.filterMap Note.taken := List.mem_filterMap.mpr ⟨_, htook, rfl⟩
    rw [hend.numbered] at hmem
    exact (List.mem_range'_1.mp hmem).1
  obtain ⟨m', hm', hreply⟩ := hend.replied n token' reply hreplied hnumber
  have hnodup : (out'.filterMap Note.taken).Nodup := hend.numbered ▸ List.nodup_range'
  cases took_unique hnodup htook hm'
  obtain ⟨hrefused, _⟩ | ⟨requester', req', revoked, now', store, hrequest, hgood, rfl⟩ := hreply
  · rw [hintake] at hrefused
    cases hrefused
  · rw [hintake] at hrequest
    cases hrequest
    exact answer_of_revoked hiam hgrant hpresents hgood

end Revocation

/-! ## Progress -/

/-- The messages of the batch that are not taken yet. -/
def Phase.waiting : Phase Token → List (Message Token)
  | .handling messages => messages
  | _ => []

section Progress

/-- The agent can get from one state to another, taking as many messages on the way. -/
def Leads (serde : SerdeJson) (json : JsonText) (iam : IamCore Cap) (setup : Setup)
    (w : World Token) (messages : Nat) (t : World Token) : Prop :=
  ∃ es out, (machine serde json iam setup).run w es = some (t, out) ∧
    t.taken = w.taken + messages

theorem Leads.refl : Leads serde json iam setup w 0 w :=
  ⟨[], [], rfl, rfl⟩

theorem Leads.trans {u : World Token} {k n : Nat} (h : Leads serde json iam setup w k t)
    (h' : Leads serde json iam setup t n u) : Leads serde json iam setup w (k + n) u := by
  obtain ⟨es, out, hrun, htaken⟩ := h
  obtain ⟨es', out', hrun', htaken'⟩ := h'
  exact ⟨es ++ es', out ++ out', Machine.run_append hrun hrun', by omega⟩

theorem Leads.step {k : Nat} (e : Event Token) (out : List (Note Token))
    (htaken : t.taken = w.taken + k) (h : w.next serde json iam setup e = some (t, out)) :
    Leads serde json iam setup w k t :=
  ⟨[e], out, Machine.run_singleton h, htaken⟩

/-- A job that has read the set of revoked capabilities can reply. -/
private theorem leads_serve {job : Job Token} {rest : List (Job Token)} {revoked : RevokedSet}
    (hjobs : w.jobs = job :: rest) (hset : job.revoked = some revoked) :
    Leads serde json iam setup w 0 { w with jobs := rest } := by
  refine .step (.serve 0 U64.zero fun _ => .error "") [.replied job.number job.token
    (answer serde json iam setup job.requester revoked U64.zero (fun _ => .error "")
      job.req)] rfl ?_
  simp only [World.next, hjobs, List.getElem?_cons_zero, hset, List.eraseIdx_cons_zero]

/-- The first job can be brought to its end. -/
private theorem leads_finish {job : Job Token} {rest : List (Job Token)}
    (hjobs : w.jobs = job :: rest) : Leads serde json iam setup w 0 { w with jobs := rest } := by
  cases hset : job.revoked with
  | some revoked => exact leads_serve hjobs hset
  | none =>
      have hread : Leads serde json iam setup w 0
          { w with jobs := { job with revoked := some w.revoked } :: rest } := by
        refine .step (.read 0) [] rfl ?_
        simp only [World.next, hjobs, List.getElem?_cons_zero, hset, List.set_cons_zero]
      exact hread.trans (leads_serve rfl rfl)

/-- All jobs can be brought to their ends. -/
theorem leads_idle (w : World Token) : Leads serde json iam setup w 0 { w with jobs := [] } := by
  cases hjobs : w.jobs with
  | nil =>
      have hsame : { w with jobs := [] } = w := by rw [← hjobs]
      rw [hsame]
      exact .refl
  | cons job rest =>
      have hfinish : Leads serde json iam setup w 0 { w with jobs := rest } := leads_finish hjobs
      clear hjobs
      induction rest generalizing job w with
      | nil => exact hfinish
      | cons job' rest ih =>
          exact hfinish.trans (ih { w with jobs := job' :: rest } job' (leads_finish rfl))

/-- With a free permit the next message can be taken. -/
private theorem leads_take {m : Message Token} {rest : List (Message Token)}
    (hphase : w.phase = .handling (m :: rest)) (hjobs : w.jobs = []) :
    ∃ t, Leads serde json iam setup w 1 t ∧ t.phase = .handling rest := by
  have hpermit : w.jobs.length < setup.permits := by
    rw [hjobs, Setup.permits, List.length_nil]
    omega
  cases hintake : m.intake json with
  | ignored =>
      refine ⟨{ w with phase := .handling rest, taken := w.taken + 1 },
        .step .take [.took w.taken m, .dropped w.taken] rfl ?_, rfl⟩
      simp only [World.next, hphase, World.takeMessage, hintake]
  | refused token =>
      refine ⟨{ w with phase := .handling rest, taken := w.taken + 1 },
        .step .take [.took w.taken m, .replied w.taken token tooLarge] rfl ?_, rfl⟩
      simp only [World.next, hphase, World.takeMessage, hintake]
  | request token requester req =>
      refine ⟨{ w with
          phase := .handling rest
          taken := w.taken + 1
          jobs := w.jobs ++ [{ number := w.taken, token, requester, req, revoked := none }] },
        .step .take [.took w.taken m] rfl ?_, rfl⟩
      simp only [World.next, hphase, World.takeMessage, hintake, if_pos hpermit]

/-- The whole batch can be worked off. -/
private theorem leads_top {messages : List (Message Token)}
    (hphase : w.phase = .handling messages) :
    ∃ t, Leads serde json iam setup w messages.length t ∧ t.phase = .top ∧ t.jobs = [] := by
  induction messages generalizing w with
  | nil =>
      refine ⟨{ w with phase := .top, jobs := [] }, (leads_idle w).trans (n := 0) ?_, rfl, rfl⟩
      refine .step .sleep [] rfl ?_
      simp only [World.next, hphase]
  | cons m rest ih =>
      obtain ⟨u, htake, hrest⟩ : ∃ u, Leads serde json iam setup { w with jobs := [] } 1 u ∧
        u.phase = .handling rest := leads_take hphase rfl
      obtain ⟨t, hmore, htop, hidle⟩ := ih hrest
      refine ⟨t, ?_, htop, hidle⟩
      have hall := ((leads_idle w).trans htake).trans hmore
      rwa [Nat.zero_add, Nat.add_comm, ← List.length_cons (a := m)] at hall

/-- The agent can always come to the top of its loop without a job. -/
theorem leads_rest (w : World Token) :
    ∃ t, Leads serde json iam setup w w.phase.waiting.length t ∧ t.phase = .top ∧ t.jobs = [] := by
  have hpolled : ∀ u : World Token, u.phase = .polling →
      ∃ t, Leads serde json iam setup u 0 t ∧ t.phase = .top ∧ t.jobs = [] := by
    intro u hu
    have hbatch : Leads serde json iam setup u 0 { u with phase := .handling [] } := by
      refine .step (.polled (.error "")) [] rfl ?_
      simp only [World.next, hu]
      rfl
    obtain ⟨t, hmore, ht⟩ : ∃ t, Leads serde json iam setup { u with phase := .handling [] }
        ([] : List (Message Token)).length t ∧ t.phase = .top ∧ t.jobs = [] := leads_top rfl
    exact ⟨t, hbatch.trans hmore, ht⟩
  cases hphase : w.phase with
  | top => exact ⟨{ w with jobs := [] }, leads_idle w, hphase, rfl⟩
  | handling messages => exact leads_top hphase
  | polling => exact hpolled w hphase
  | refreshing =>
      have hrefreshed : Leads serde json iam setup w 0
          { w with phase := .polling, lastRefresh := U64.zero } := by
        refine .step (.refreshed (.error "") U64.zero) [] rfl ?_
        simp only [World.next, hphase]
        rfl
      obtain ⟨t, hmore, ht⟩ := hpolled { w with phase := .polling, lastRefresh := U64.zero } rfl
      exact ⟨t, hrefreshed.trans hmore, ht⟩

/-- An agent is never stuck: from every state that it comes to, the rest of the batch
can be worked off, and then every message has been settled, each of them once. -/
theorem settles_all {listing : Except String (List (String × U64))} {now : U64}
    {es : List (Event Token)}
    (hrun : (machine serde json iam setup).run (.start listing now) es = some (w, out)) :
    ∃ es' t out', (machine serde json iam setup).run w es' = some (t, out') ∧ t.phase = .top ∧
      t.jobs = [] ∧ t.taken = w.taken + w.phase.waiting.length ∧
        ((out ++ out').filterMap Note.settled).Perm (List.range t.taken) := by
  obtain ⟨t, ⟨es', out', hrun', htaken⟩, htop, hidle⟩ :
    ∃ t, Leads serde json iam setup w w.phase.waiting.length t ∧ t.phase = .top ∧ t.jobs = [] :=
    leads_rest w
  have hsettles := (run_settles (Machine.run_append hrun hrun')).once
  rw [hidle, List.map_nil, List.append_nil] at hsettles
  exact ⟨es', t, out', hrun', htop, hidle, htaken, hsettles⟩

end Progress

/-! ## A run -/

/-- A request with a token, and a text that stands for it. -/
def tokenRequest : MapRequest where
  query :=
    { dataset := "sales"
      aggregates := [.count]
      predicate := .true
      groupBy := []
      orderBy := []
      limit := none
      projection := none }
  shard := { cid := "s0", rows := U64.one, bytes := U64.zero, stats := none }
  grant := some "token"

def saleRow (n : Nat) : Row :=
  Std.ExtTreeMap.ofList [("v", .ofU64 (U64.wrap n))] compare

/-- A blob with two rows. -/
def salesBlob : ByteArray :=
  "\x7b\"v\":1\x7d\n\x7b\"v\":2\x7d\n".toUTF8

def salesStore : BlobStore :=
  fun _ => .ok salesBlob

def saleRows : List Row :=
  [saleRow 1, saleRow 2]

/-- Texts of the two rows and of the request. -/
def requestText : JsonText where
  print _ := "request"
  printPretty _ := "request"
  parse text :=
    if text = "\x7b\"v\":1\x7d" then some (.object [("v", .int 1)])
    else if text = "\x7b\"v\":2\x7d" then some (.object [("v", .int 2)])
    else some (requestCodec.encode tokenRequest)

def requestMessage : Message Unit where
  topic := mapTopic
  replyToken := some ()
  sender := String.ofList (hexDigits .zero)
  payload := .ok "request".toUTF8

private def otherMessage : Message Unit :=
  { requestMessage with topic := "ce-query/other" }

theorem decodeShard_sales : decodeShard requestText salesBlob = .ok saleRows := by
  rw [salesBlob, decodeShard_toUTF8]
  rfl

theorem requestMessage_intake :
    requestMessage.intake requestText = .request () (some .zero) tokenRequest := by
  have hkeeps : requestCodec.Keeps tokenRequest :=
    requestCodec_keeps_iff.mpr ⟨queryCodec_keeps_iff.mpr (predicateCodec_keeps (.inl rfl)),
      shardCodec_keeps_iff.mpr fun _ => nofun⟩
  have hdecode : decodeRequest requestText "request".toUTF8 = some tokenRequest := by
    rw [decodeRequest, JsonText.parseBytes_toUTF8]
    exact hkeeps
  have hsize : ¬"request".toUTF8.size > maxMapPayloadBytes := by decide
  simp only [Message.intake, requestMessage, ne_eq, not_true_eq_false, if_false, if_neg hsize,
    hdecode, (parseNodeId_hexDigits .zero).1]
  rfl

/-- A crate of capabilities in which a token is one capability of the zero node. -/
def oneLink : RevocableIam (NodeId × U64) where
  decodeChain _ := .ok [(.zero, U64.one)]
  authorize _ _ _ _ _ _ chain isRevoked :=
    if chain.any fun cap => isRevoked cap.1 cap.2 then .error "capability revoked" else .ok ()
  abilities _ := [abilityQuery]
  pathPrefix _ := none
  issuer := Prod.fst
  nonce := Prod.snd

private theorem oneLink_checks : oneLink.ChecksRevocation := by
  intro _ _ _ _ _ _ chain isRevoked h cap hcap
  by_cases hany : (chain.any fun cap => isRevoked cap.1 cap.2) = true
  · simp only [oneLink, if_pos hany] at h
    cases h
  · exact Bool.eq_false_iff.mpr fun hrevoked => hany (List.any_eq_true.mpr ⟨cap, hcap, hrevoked⟩)

def grantSetup : Setup where
  selfId := .zero
  requireGrant := true
  revocationRefreshSecs := U64.zero
  acceptedRoots := []
  maxConcurrent := 0

/-- Without a revocation the agent counts the rows of the blob. -/
theorem answer_sales : answer .sample requestText oneLink.toIamCore grantSetup (some .zero) []
    U64.one salesStore tokenRequest = .ok (tokenRequest.query.mapShard .sample saleRows) :=
  serveMap_eq rfl rfl rfl (by decide) decodeShard_sales nofun

/-- The listing of the one capability. -/
private def oneRevoked : Except String (List (String × U64)) :=
  .ok [(String.ofList (hexDigits .zero), U64.one)]

private def twoMessages : List (Event Unit) :=
  [.check U64.zero, .polled (.ok [otherMessage, requestMessage]), .take, .take, .read 0,
    .serve 0 U64.one salesStore]

private def twoNotes : List (Note Unit) :=
  [.took 0 otherMessage, .dropped 0, .took 1 requestMessage,
    .replied 1 () (answer .sample requestText oneLink.toIamCore grantSetup (some .zero)
      (refresh [] oneRevoked) U64.one salesStore tokenRequest)]

private theorem run_twoMessages : (machine .sample requestText oneLink.toIamCore grantSetup).run
    (.start oneRevoked U64.zero) twoMessages = some
      ({ (.start oneRevoked U64.zero : World Unit) with phase := .handling [], taken := 2 },
        twoNotes) := by
  rfl

/-- Two messages, of which one is a request. -/
theorem settled_once_two_messages : ∃ w out,
    (machine .sample requestText oneLink.toIamCore grantSetup).run (.start oneRevoked U64.zero)
        twoMessages = some (w, out) ∧ Settles grantSetup w out ∧
      Accounts .sample requestText oneLink.toIamCore grantSetup
        (HasRead .sample requestText oneLink.toIamCore grantSetup (.start oneRevoked U64.zero)
          twoMessages) 0 w out :=
  ⟨_, _, run_twoMessages, settled_once run_twoMessages⟩

/-- A request is being served, which takes the only permit, and a message waits. -/
private def halfway : World Unit :=
  { (.start oneRevoked U64.zero : World Unit) with
    phase := .handling [otherMessage]
    taken := 1
    jobs :=
      [{ number := 0
         token := ()
         requester := some .zero
         req := tokenRequest
         revoked := none }] }

private theorem run_halfway : (machine .sample requestText oneLink.toIamCore grantSetup).run
    (.start oneRevoked U64.zero)
      [.check U64.zero, .polled (.ok [requestMessage, otherMessage]), .take] =
    some (halfway, [.took 0 requestMessage]) := by
  rfl

/-- From there both messages can be settled. -/
theorem settles_all_two_messages : ∃ es' t out',
    (machine .sample requestText oneLink.toIamCore grantSetup).run halfway es' =
      some (t, out') ∧ t.phase = .top ∧ t.jobs = [] ∧ t.taken = 2 ∧
        ((Note.took 0 requestMessage :: out').filterMap Note.settled).Perm
          (List.range t.taken) :=
  settles_all run_halfway

/-- The capability of the token is revoked when the agent starts, so that the rows of the
blob are not counted, which they are otherwise. -/
theorem revoked_discloses_nothing_one_link : ∃ w out reply,
    (machine .sample requestText oneLink.toIamCore grantSetup).run (.start oneRevoked U64.zero)
        twoMessages = some (w, out) ∧
      .replied 1 () reply ∈ out ∧ ¬reply.Discloses ∧
      answer .sample requestText oneLink.toIamCore grantSetup (some .zero) [] U64.one salesStore
        tokenRequest = .ok (tokenRequest.query.mapShard .sample saleRows) := by
  have hset : (World.start oneRevoked U64.zero : World Unit).revoked.has .zero U64.one = true := by
    simp only [World.start, refresh, oneRevoked, RevokedSet.ofListing, RevokedSet.has,
      List.filterMap_cons, (parseNodeId_hexDigits .zero).1]
    decide
  have hlists : (machine .sample requestText oneLink.toIamCore grantSetup).Throughout
      (Lists fun revoked => revoked.has .zero U64.one = true)
      (.start oneRevoked U64.zero) twoMessages := by
    apply Machine.Throughout.of_forall
    intro e he _ listing now heq
    rw [heq] at he
    simp [twoMessages] at he
  have hpresents : oneLink.Presents .zero U64.one tokenRequest :=
    ⟨"token", _, rfl, rfl, _, List.mem_singleton_self _, rfl, rfl⟩
  have hstart : (machine .sample requestText oneLink.toIamCore grantSetup).run
      (.start oneRevoked U64.zero : World Unit) [] = some (.start oneRevoked U64.zero, []) := rfl
  have htook : Note.took 1 requestMessage ∈ twoNotes :=
    List.mem_of_getElem? (show twoNotes[2]? = _ from rfl)
  have hreplied := List.mem_of_getElem? (show twoNotes[3]? = _ from rfl)
  have hclosed := revoked_discloses_nothing oneLink_checks rfl hstart hset hlists run_twoMessages
    htook requestMessage_intake hpresents hreplied
  exact ⟨_, _, _, run_twoMessages, hreplied, hclosed, answer_sales⟩

end Agent

end CeQuery
