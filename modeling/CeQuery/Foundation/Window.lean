import Mathlib.Data.List.Perm.Basic
import Mathlib.Tactic.Common

/-!
# Bounded fan-out with completions in any order

A list of tasks is worked off concurrently, with at most `width` of them
outstanding. The loop waits for any outstanding task, absorbs its result into an
accumulator, and starts the next pending task in its place. Absorbing may also
leave the loop, with an error or because enough has been collected.

Which outstanding task completes next is not determined. `follow` executes the
loop along a list of choices, one for each completion, so a statement about
every list of choices is a statement about every completion order. The state
records which tasks were started and which finished, in their order; these
histories are read by no step.
-/

namespace CeQuery

section Fold

variable {τ : Type u} {σ : Type v} {ρ : Type w} {f : σ → τ → Except ρ σ} {acc acc' : σ}
variable {t : τ} {ts us : List τ}

/-- Absorbing several results is absorbing the first and then the others. -/
theorem foldlM_cons_ok_iff : (t :: ts).foldlM f acc = .ok acc' ↔
    ∃ acc₁, f acc t = .ok acc₁ ∧ ts.foldlM f acc₁ = .ok acc' := by
  rw [List.foldlM_cons]
  cases f acc t with
  | error e => simp [bind, Except.bind]
  | ok acc₁ => simp [bind, Except.bind]

theorem foldlM_append_ok_iff : (ts ++ us).foldlM f acc = .ok acc' ↔
    ∃ acc₁, ts.foldlM f acc = .ok acc₁ ∧ us.foldlM f acc₁ = .ok acc' := by
  rw [List.foldlM_append]
  cases ts.foldlM f acc with
  | error e => simp [bind, Except.bind]
  | ok acc₁ => simp [bind, Except.bind]

end Fold

/-- The state of the loop between two completions. -/
structure Window (τ : Type u) (σ : Type v) where
  pending : List τ
  inflight : List τ
  acc : σ
  started : List τ
  finished : List τ

namespace Window

variable {τ : Type u} {σ : Type v} {ρ : Type w}

/-- Start the next pending task, if there is one. -/
def start (s : Window τ σ) : Window τ σ :=
  match s.pending with
  | [] => s
  | t :: rest =>
      { s with
        pending := rest
        inflight := s.inflight ++ [t]
        started := s.started ++ [t] }

def startMany : Nat → Window τ σ → Window τ σ
  | 0, s => s
  | n + 1, s => startMany n s.start

/-- The state when the loop is entered: the window is filled once. -/
def prime (width : Nat) (tasks : List τ) (acc : σ) : Window τ σ :=
  startMany width { pending := tasks, inflight := [], acc, started := [], finished := [] }

/-- The `i`-th outstanding task completes. Its result is absorbed and the window
refilled, unless absorbing leaves the loop. -/
def complete (absorb : σ → τ → Except ρ σ) (i : Nat) (s : Window τ σ) :
    Option (Except ρ (Window τ σ)) :=
  match s.inflight[i]? with
  | none => none
  | some t =>
      match absorb s.acc t with
      | .error r => some (.error r)
      | .ok acc =>
          some (.ok (start { s with
            inflight := s.inflight.eraseIdx i
            acc := acc
            finished := s.finished ++ [t] }))

/-- Run the loop along a completion order. An order that chooses a task that is
not outstanding, or ends while tasks are outstanding, is not one of the loop. -/
def follow (absorb : σ → τ → Except ρ σ) : List Nat → Window τ σ → Option (Except ρ σ)
  | [], s => if s.inflight.isEmpty then some (.ok s.acc) else none
  | i :: order, s =>
      match complete absorb i s with
      | none => none
      | some (.error r) => some (.error r)
      | some (.ok s') => follow absorb order s'

/-- The tasks whose results are absorbed along a completion order. If the loop is left,
the last of them is the one at which it is left. -/
def taken (absorb : σ → τ → Except ρ σ) : List Nat → Window τ σ → List τ
  | [], _ => []
  | i :: order, s =>
      match s.inflight[i]? with
      | none => []
      | some t =>
          match absorb s.acc t with
          | .error _ => [t]
          | .ok acc =>
              t :: taken absorb order (start { s with
                inflight := s.inflight.eraseIdx i
                acc := acc
                finished := s.finished ++ [t] })

/-- The tasks in the order in which they complete when the loop is not left. -/
def completions (order : List Nat) (s : Window τ σ) : List τ :=
  taken (fun acc _ => (.ok acc : Except Empty σ)) order s

/-- `s'` is a state the loop can be in after it was in `s`. -/
inductive Reaches (absorb : σ → τ → Except ρ σ) (s : Window τ σ) : Window τ σ → Prop where
  | refl : Reaches absorb s s
  | step {t u : Window τ σ} (i : Nat) (ht : Reaches absorb s t)
      (hu : complete absorb i t = some (.ok u)) : Reaches absorb s u

/-- What holds whatever happened so far. The `level` is the number of tasks that
are outstanding as long as further ones are pending. -/
structure Inv (absorb : σ → τ → Except ρ σ) (tasks : List τ) (acc₀ : σ) (level : Nat)
    (s : Window τ σ) : Prop where
  /-- Tasks are started once and in their order. -/
  started_append : s.started ++ s.pending = tasks
  /-- A started task is outstanding or finished, never both. -/
  outstanding : s.started.Perm (s.inflight ++ s.finished)
  bounded : s.inflight.length ≤ level
  full : s.pending ≠ [] → s.inflight.length = level
  /-- The accumulator has absorbed the finished tasks in their order. -/
  absorbed : s.finished.foldlM absorb acc₀ = .ok s.acc

variable {absorb : σ → τ → Except ρ σ} {width level : Nat} {tasks : List τ} {acc₀ : σ}
variable {s s' : Window τ σ}

section Start

theorem start_pending (s : Window τ σ) : s.start.pending = s.pending.tail := by
  cases hp : s.pending <;> simp [start, hp]

theorem start_inflight (s : Window τ σ) : s.start.inflight = s.inflight ++ s.pending.take 1 := by
  cases hp : s.pending <;> simp [start, hp]

@[simp] theorem start_acc (s : Window τ σ) : s.start.acc = s.acc := by
  rw [start]
  split <;> rfl

@[simp] theorem start_finished (s : Window τ σ) : s.start.finished = s.finished := by
  rw [start]
  split <;> rfl

@[simp] theorem startMany_acc (n : Nat) (s : Window τ σ) : (startMany n s).acc = s.acc := by
  induction n generalizing s with
  | zero => rfl
  | succ n ih => rw [startMany, ih, start_acc]

@[simp] theorem startMany_finished (n : Nat) (s : Window τ σ) :
    (startMany n s).finished = s.finished := by
  induction n generalizing s with
  | zero => rfl
  | succ n ih => rw [startMany, ih, start_finished]

@[simp] theorem prime_acc (width : Nat) (tasks : List τ) (acc : σ) :
    (prime width tasks acc).acc = acc :=
  startMany_acc width _

@[simp] theorem prime_finished (width : Nat) (tasks : List τ) (acc : σ) :
    (prime width tasks acc).finished = [] :=
  startMany_finished width _

end Start

/-! ## One step -/

/-- Starting a task raises the level by one. -/
theorem Inv.start (h : Inv absorb tasks acc₀ level s) :
    Inv absorb tasks acc₀ (level + 1) s.start := by
  cases hp : s.pending with
  | nil =>
      have hs : s.start = s := by simp [Window.start, hp]
      rw [hs]
      refine ⟨h.started_append, h.outstanding, Nat.le_succ_of_le h.bounded, ?_, h.absorbed⟩
      intro hne
      exact absurd hp hne
  | cons t rest =>
      have hlevel : s.inflight.length = level := h.full (by simp [hp])
      have hmove : (s.started ++ [t]).Perm (s.inflight ++ [t] ++ s.finished) := by
        apply (h.outstanding.append_right [t]).trans
        rw [List.append_assoc, List.append_assoc]
        exact List.perm_append_comm.append_left s.inflight
      simp only [Window.start, hp]
      refine ⟨?_, hmove, ?_, ?_, h.absorbed⟩
      · simpa [hp] using h.started_append
      · simp [hlevel]
      · simp [hlevel]

theorem Inv.startMany (n : Nat) (h : Inv absorb tasks acc₀ level s) :
    Inv absorb tasks acc₀ (level + n) (startMany n s) := by
  induction n generalizing level s with
  | zero => exact h
  | succ n ih =>
      have hlevel : level + (n + 1) = level + 1 + n := by omega
      rw [hlevel]
      exact ih h.start

theorem inv_prime (width : Nat) (tasks : List τ) (acc₀ : σ) :
    Inv absorb tasks acc₀ width (prime width tasks acc₀) := by
  have hinit : Inv absorb tasks acc₀ 0
      { pending := tasks, inflight := [], acc := acc₀, started := [], finished := [] } :=
    ⟨rfl, .nil, Nat.le_refl 0, fun _ => rfl, rfl⟩
  simpa [prime] using hinit.startMany width

/-- Without tasks none completes. -/
theorem taken_prime_nil (absorb : σ → τ → Except ρ σ) (width : Nat) (acc₀ : σ)
    (order : List Nat) : taken absorb order (prime width [] acc₀) = [] := by
  have hinv : Inv absorb [] acc₀ width (prime width [] acc₀) := inv_prime width [] acc₀
  have hstarted := (List.append_eq_nil_iff.mp hinv.started_append).1
  have hinflight : (prime width ([] : List τ) acc₀).inflight = [] := by
    have hperm := hinv.outstanding
    rw [hstarted] at hperm
    exact (List.append_eq_nil_iff.mp hperm.symm.eq_nil).1
  cases order with
  | nil => rfl
  | cons i order => simp only [taken, hinflight, List.getElem?_nil]

/-- What a completion can do: absorb an outstanding task, and either leave the
loop or refill the window. -/
theorem complete_cases {i : Nat} {r : Except ρ (Window τ σ)} (h : complete absorb i s = some r) :
    ∃ t, s.inflight[i]? = some t ∧
      ((∃ e, absorb s.acc t = .error e ∧ r = .error e) ∨
        ∃ acc, absorb s.acc t = .ok acc ∧
          r = .ok (Window.start { s with
            inflight := s.inflight.eraseIdx i
            acc := acc
            finished := s.finished ++ [t] })) := by
  unfold complete at h
  split at h
  · cases h
  · rename_i t ht
    refine ⟨t, ht, ?_⟩
    split at h
    · rename_i e he
      exact .inl ⟨e, he, (Option.some.inj h).symm⟩
    · rename_i acc hacc
      exact .inr ⟨acc, hacc, (Option.some.inj h).symm⟩

/-- A completion that stays in the loop keeps the level. -/
theorem Inv.complete {i : Nat} (h : Inv absorb tasks acc₀ level s)
    (hs : complete absorb i s = some (.ok s')) : Inv absorb tasks acc₀ level s' := by
  obtain ⟨t, ht, hcase⟩ := complete_cases hs
  rcases hcase with ⟨e, _, hout⟩ | ⟨acc, hacc, hout⟩
  · cases hout
  · cases hout
    obtain ⟨hi, hget⟩ := List.getElem?_eq_some_iff.mp ht
    have hlength : (s.inflight.eraseIdx i).length + 1 = s.inflight.length := by
      rw [List.length_eraseIdx_of_lt hi]
      omega
    have hpos : level - 1 + 1 = level := by
      have := h.bounded
      omega
    rw [← hpos]
    refine Inv.start ⟨h.started_append, ?_, ?_, ?_, ?_⟩
    · have hsplit : (t :: s.inflight.eraseIdx i).Perm s.inflight :=
        hget ▸ List.getElem_cons_eraseIdx_perm hi
      refine h.outstanding.trans ((hsplit.symm.append_right s.finished).trans ?_)
      have hmove : (t :: (s.inflight.eraseIdx i ++ s.finished)).Perm
          (s.inflight.eraseIdx i ++ s.finished ++ [t]) := (List.perm_append_singleton t _).symm
      rwa [List.cons_append, ← List.append_assoc]
    · have := h.bounded
      change (s.inflight.eraseIdx i).length ≤ level - 1
      omega
    · intro hne
      have := h.full hne
      change (s.inflight.eraseIdx i).length = level - 1
      omega
    · apply foldlM_append_ok_iff.mpr
      exact ⟨s.acc, h.absorbed, foldlM_cons_ok_iff.mpr ⟨acc, hacc, rfl⟩⟩

/-! ## Whole runs -/

theorem Reaches.inv (hr : Reaches absorb s s') (h : Inv absorb tasks acc₀ level s) :
    Inv absorb tasks acc₀ level s' := by
  induction hr with
  | refl => exact h
  | step i _ hu ih => exact ih.complete hu

theorem Reaches.head {i : Nat} {t : Window τ σ} (hs : complete absorb i s = some (.ok t))
    (hr : Reaches absorb t s') : Reaches absorb s s' := by
  induction hr with
  | refl => exact .step i .refl hs
  | step j _ hu ih => exact .step j ih hu

/-- A completion that stays in the loop takes one task and goes on. -/
theorem taken_cons {i : Nat} (h : complete absorb i s = some (.ok s')) :
    ∃ t, s'.finished = s.finished ++ [t] ∧
      ∀ order, taken absorb (i :: order) s = t :: taken absorb order s' := by
  obtain ⟨t, hget, ⟨e, _, hout⟩ | ⟨acc, hacc, hout⟩⟩ := complete_cases h
  · cases hout
  · cases hout
    refine ⟨t, start_finished _, fun order => ?_⟩
    simp only [taken, hget, hacc]

/-- A run that drains the window ends in a reachable state with nothing outstanding. -/
theorem follow_ok {order : List Nat} {acc : σ} (h : follow absorb order s = some (.ok acc)) :
    ∃ t, Reaches absorb s t ∧ t.inflight = [] ∧ t.acc = acc ∧
      t.finished = s.finished ++ taken absorb order s := by
  induction order generalizing s with
  | nil =>
      rw [follow] at h
      split at h
      · rename_i hempty
        exact ⟨s, .refl, List.isEmpty_iff.mp hempty, by simpa using h, by simp [taken]⟩
      · cases h
  | cons i order ih =>
      rw [follow] at h
      split at h
      · cases h
      · cases h
      · rename_i s' hs
        obtain ⟨t, hr, hempty, hacc, hfinished⟩ := ih h
        obtain ⟨task, hfirst, htaken⟩ := taken_cons hs
        refine ⟨t, hr.head hs, hempty, hacc, ?_⟩
        rw [hfinished, hfirst, htaken, List.append_assoc]
        rfl

/-- A run that leaves the loop does so at an outstanding task of a reachable state. -/
theorem follow_error {order : List Nat} {r : ρ} (h : follow absorb order s = some (.error r)) :
    ∃ t task, Reaches absorb s t ∧ task ∈ t.inflight ∧ absorb t.acc task = .error r ∧
      t.finished ++ [task] = s.finished ++ taken absorb order s := by
  induction order generalizing s with
  | nil =>
      rw [follow] at h
      split at h <;> cases h
  | cons i order ih =>
      rw [follow] at h
      split at h
      · cases h
      · rename_i e hs
        obtain ⟨task, hget, hcase⟩ := complete_cases hs
        rcases hcase with ⟨e', he', hout⟩ | ⟨_, _, hout⟩
        · cases hout
          cases h
          refine ⟨s, task, .refl, List.mem_of_getElem? hget, he', ?_⟩
          simp only [taken, hget, he']
        · cases hout
      · rename_i s' hs
        obtain ⟨t, task, hr, hmem, herror, hfinished⟩ := ih h
        obtain ⟨first, hfirst, htaken⟩ := taken_cons hs
        refine ⟨t, task, hr.head hs, hmem, herror, ?_⟩
        rw [hfinished, hfirst, htaken, List.append_assoc]
        rfl

/-- In which order the tasks complete depends on the outstanding and the pending ones only. -/
theorem completions_congr {σ' : Type x} {u : Window τ σ'} (hpending : s.pending = u.pending)
    (hinflight : s.inflight = u.inflight) (order : List Nat) :
    completions order s = completions order u := by
  induction order generalizing s u with
  | nil => rfl
  | cons i order ih =>
      unfold completions
      rw [taken, taken, hinflight]
      cases u.inflight[i]? with
      | none => rfl
      | some t =>
          refine congrArg (t :: ·) (ih ?_ ?_)
          · simp only [start_pending, hpending]
          · simp only [start_inflight, hpending]

/-- The task that completes first, and then those of the loop that goes on with it. -/
theorem completions_cons {i : Nat} {t : τ} (hget : s.inflight[i]? = some t) (acc : σ)
    (order : List Nat) : completions (i :: order) s =
      t :: completions order (start { s with
        inflight := s.inflight.eraseIdx i
        acc := acc
        finished := s.finished ++ [t] }) := by
  have hfirst : completions (i :: order) s =
      t :: completions order (start { s with
        inflight := s.inflight.eraseIdx i
        finished := s.finished ++ [t] }) := by
    unfold completions
    rw [taken, hget]
  rw [hfirst]
  refine congrArg (t :: ·) (completions_congr ?_ ?_ order)
  · rw [start_pending, start_pending]
  · rw [start_inflight, start_inflight]

/-- If the loop is not left, its tasks complete as they do in a loop that cannot be
left. -/
theorem completions_eq_taken {order : List Nat} {acc : σ}
    (h : follow absorb order s = some (.ok acc)) : completions order s = taken absorb order s := by
  induction order generalizing s with
  | nil => rfl
  | cons i order ih =>
      rw [follow] at h
      split at h
      · cases h
      · cases h
      · rename_i s' hs
        obtain ⟨t, hget, ⟨e, _, hout⟩ | ⟨acc', hacc, hout⟩⟩ := complete_cases hs
        · cases hout
        · cases hout
          rw [completions_cons hget acc', ih h]
          simp only [taken, hget, hacc]

/-- Tasks that have not finished. -/
def remaining (s : Window τ σ) : Nat :=
  s.pending.length + s.inflight.length

@[simp] theorem remaining_start (s : Window τ σ) : s.start.remaining = s.remaining := by
  cases hp : s.pending with
  | nil => simp [start, hp]
  | cons t rest =>
      simp only [start, hp, remaining, List.length_append, List.length_cons, List.length_nil]
      omega

theorem remaining_complete {i : Nat} (h : complete absorb i s = some (.ok s')) :
    s'.remaining + 1 = s.remaining := by
  obtain ⟨t, ht, hcase⟩ := complete_cases h
  rcases hcase with ⟨e, _, hout⟩ | ⟨acc, _, hout⟩
  · cases hout
  · cases hout
    obtain ⟨hi, _⟩ := List.getElem?_eq_some_iff.mp ht
    rw [remaining_start]
    simp only [remaining, List.length_eraseIdx_of_lt hi]
    omega

/-- The loop ends: always taking the oldest outstanding task is a completion
order of it. -/
theorem exists_follow (absorb : σ → τ → Except ρ σ) (s : Window τ σ) :
    ∃ order result, follow absorb order s = some result := by
  induction hn : s.remaining using Nat.strongRecOn generalizing s with
  | ind n ih =>
      cases hs : complete absorb 0 s with
      | none =>
          have hempty : s.inflight = [] := by
            unfold complete at hs
            split at hs
            · simpa using ‹s.inflight[0]? = none›
            · split at hs <;> cases hs
          exact ⟨[], .ok s.acc, by simp [follow, hempty]⟩
      | some r =>
          cases r with
          | error e => exact ⟨[0], .error e, by simp [follow, hs]⟩
          | ok s' =>
              have hlt := remaining_complete hs
              obtain ⟨order, result, hfollow⟩ := ih s'.remaining (by omega) s' rfl
              exact ⟨0 :: order, result, by simpa [follow, hs] using hfollow⟩

/-- With nothing outstanding every task is finished. -/
theorem Inv.finished_perm (h : Inv absorb tasks acc₀ width s) (hwidth : 0 < width)
    (hempty : s.inflight = []) : s.finished.Perm tasks := by
  have hpending : s.pending = [] := by
    by_contra hne
    have hfull := h.full hne
    rw [hempty, List.length_nil] at hfull
    omega
  have hstarted := h.started_append
  rw [hpending, List.append_nil] at hstarted
  have hperm := h.outstanding
  rw [hempty, List.nil_append, hstarted] at hperm
  exact hperm.symm

/-- Draining the window absorbs every task, in the order of completion. -/
theorem drained_taken {order : List Nat} {acc : σ} (hwidth : 0 < width)
    (h : follow absorb order (prime width tasks acc₀) = some (.ok acc)) :
    (taken absorb order (prime width tasks acc₀)).Perm tasks ∧
      (taken absorb order (prime width tasks acc₀)).foldlM absorb acc₀ = .ok acc := by
  obtain ⟨t, hr, hempty, hacc, hfinished⟩ := follow_ok h
  rw [prime_finished, List.nil_append] at hfinished
  have hinv := hr.inv (inv_prime width tasks acc₀)
  rw [← hfinished]
  exact ⟨hinv.finished_perm hwidth hempty, hacc ▸ hinv.absorbed⟩

theorem drained {order : List Nat} {acc : σ} (hwidth : 0 < width)
    (h : follow absorb order (prime width tasks acc₀) = some (.ok acc)) :
    ∃ finished : List τ, finished.Perm tasks ∧ finished.foldlM absorb acc₀ = .ok acc :=
  ⟨_, drained_taken hwidth h⟩

/-- Leaving the loop happens at the last task that is taken, after absorbing the others. -/
theorem interrupted_taken {order : List Nat} {r : ρ}
    (h : follow absorb order (prime width tasks acc₀) = some (.error r)) :
    ∃ (finished : List τ) (task : τ) (rest : List τ) (acc : σ),
      taken absorb order (prime width tasks acc₀) = finished ++ [task] ∧
        (finished ++ task :: rest).Perm tasks ∧
        finished.foldlM absorb acc₀ = .ok acc ∧ absorb acc task = .error r := by
  obtain ⟨t, task, hr, hmem, herror, hfinished⟩ := follow_error h
  rw [prime_finished, List.nil_append] at hfinished
  have hinv := hr.inv (inv_prime width tasks acc₀)
  obtain ⟨before, after, hsplit⟩ := List.append_of_mem hmem
  refine ⟨t.finished, task, before ++ after ++ t.pending, t.acc, hfinished.symm, ?_,
    hinv.absorbed, herror⟩
  have hinflight : t.inflight.Perm (task :: (before ++ after)) := by
    rw [hsplit]
    exact List.perm_middle
  calc
    (t.finished ++ task :: (before ++ after ++ t.pending)).Perm
        (t.finished ++ (task :: (before ++ after)) ++ t.pending) := by simp
    List.Perm _ (t.inflight ++ t.finished ++ t.pending) := by
        apply List.Perm.append_right t.pending
        exact (hinflight.symm.append_left t.finished).trans List.perm_append_comm
    List.Perm _ (t.started ++ t.pending) := hinv.outstanding.symm.append_right t.pending
    _ = tasks := hinv.started_append

theorem interrupted {order : List Nat} {r : ρ}
    (h : follow absorb order (prime width tasks acc₀) = some (.error r)) :
    ∃ (finished : List τ) (task : τ) (rest : List τ) (acc : σ),
      (finished ++ task :: rest).Perm tasks ∧
        finished.foldlM absorb acc₀ = .ok acc ∧ absorb acc task = .error r := by
  obtain ⟨finished, task, rest, acc, _, hleft⟩ := interrupted_taken h
  exact ⟨finished, task, rest, acc, hleft⟩

/-! ## Absorbing in another way -/

/-- Only what becomes of the tasks that are pending or outstanding matters. -/
theorem follow_congr {absorb' : σ → τ → Except ρ σ} {s : Window τ σ}
    (h : ∀ t, t ∈ s.pending ∨ t ∈ s.inflight → ∀ acc, absorb acc t = absorb' acc t)
    (order : List Nat) : follow absorb order s = follow absorb' order s := by
  induction order generalizing s with
  | nil => rfl
  | cons i order ih =>
      rw [follow, follow, complete, complete]
      cases hget : s.inflight[i]? with
      | none => rfl
      | some t =>
          have hsame := h t (.inr (List.mem_of_getElem? hget)) s.acc
          dsimp only
          rw [hsame]
          cases absorb' s.acc t with
          | error e => rfl
          | ok acc =>
              refine ih fun t' ht' => h t' ?_
              rw [start_pending, start_inflight, List.mem_append] at ht'
              obtain hpending | hleft | hstarted := ht'
              · exact .inl (List.mem_of_mem_tail hpending)
              · exact .inr (List.mem_of_mem_eraseIdx hleft)
              · exact .inl (List.mem_of_mem_take hstarted)

theorem follow_prime_congr {absorb' : σ → τ → Except ρ σ}
    (h : ∀ t ∈ tasks, ∀ acc, absorb acc t = absorb' acc t) (order : List Nat) :
    follow absorb order (prime width tasks acc₀) =
      follow absorb' order (prime width tasks acc₀) := by
  have hinv : Inv absorb tasks acc₀ width (prime width tasks acc₀) := inv_prime width tasks acc₀
  have hstarted := hinv.started_append
  refine follow_congr (fun t ht => h t ?_) order
  rw [← hstarted, List.mem_append]
  obtain hpending | hinflight := ht
  · exact .inr hpending
  · exact .inl (hinv.outstanding.mem_iff.mpr (List.mem_append_left _ hinflight))

/-! ## Abstracting tasks and accumulators -/

section Map

universe x y z

variable {υ : Type x} {σ' : Type y} {ρ' : Type z} (f : τ → υ) (g : σ → σ') (k : ρ → ρ')

/-- The same state seen through an abstraction of its tasks and its accumulator. -/
def map (s : Window τ σ) : Window υ σ' where
  pending := s.pending.map f
  inflight := s.inflight.map f
  acc := g s.acc
  started := s.started.map f
  finished := s.finished.map f

theorem map_start (s : Window τ σ) : s.start.map f g = (s.map f g).start := by
  cases hp : s.pending <;> simp [start, map, hp]

theorem map_prime (width : Nat) (tasks : List τ) (acc : σ) :
    (prime width tasks acc).map f g = prime width (tasks.map f) (g acc) := by
  have hmany : ∀ (n : Nat) (s : Window τ σ), (startMany n s).map f g = startMany n (s.map f g) := by
    intro n
    induction n with
    | zero => intro s; rfl
    | succ n ih =>
        intro s
        rw [startMany, ih, map_start]
        rfl
  exact hmany width _

/-- A loop whose work commutes with an abstraction runs as the abstract loop. -/
theorem follow_map {absorb' : σ' → υ → Except ρ' σ'}
    (h : ∀ acc t, absorb' (g acc) (f t) = ((absorb acc t).map g).mapError k) (order : List Nat)
    (s : Window τ σ) :
    follow absorb' order (s.map f g) =
      (follow absorb order s).map fun r => (r.map g).mapError k := by
  induction order generalizing s with
  | nil =>
      rw [follow, follow]
      have hempty : (s.map f g).inflight.isEmpty = s.inflight.isEmpty := by simp [map]
      rw [hempty]
      split <;> rfl
  | cons i order ih =>
      cases hget : s.inflight[i]? with
      | none => simp [follow, complete, map, hget]
      | some t =>
          have ht := h s.acc t
          cases habsorb : absorb s.acc t with
          | error e =>
              rw [habsorb] at ht
              have habs : absorb' (g s.acc) (f t) = .error (k e) := ht
              simp [follow, complete, map, hget, habsorb, habs, Except.map, Except.mapError]
          | ok acc =>
              rw [habsorb] at ht
              have habs : absorb' (g s.acc) (f t) = .ok (g acc) := ht
              have hrest := ih (start { s with
                inflight := s.inflight.eraseIdx i
                acc := acc
                finished := s.finished ++ [t] })
              rw [map_start] at hrest
              simpa [follow, complete, map, hget, habsorb, habs, List.eraseIdx_map] using hrest

end Map

end Window

end CeQuery
