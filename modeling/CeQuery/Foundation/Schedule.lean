import CeQuery.Foundation.Window
import Mathlib.Data.List.Induction
import Mathlib.Data.List.Perm.Subperm

/-!
# The completion orders of a bounded fan-out

The completion orders of a window of a given width are a matter of the task list
alone: the `k`-th task to finish is one of the first `width + k` tasks
(`Admissible`). These are exactly the orders the loop can produce
(`follow_ok_iff`, `follow_error_iff`), so properties of runs can be argued on
lists of tasks.

Tasks that do nothing can be left out or put in (`follow_filter_iff`): an
admissible order of all tasks restricts to one of the tasks that matter
(`Admissible.filter`), and an admissible order of those extends to one of all
tasks (`Admissible.exists_extend`).
-/

namespace CeQuery

namespace Window

variable {τ : Type u} {σ : Type v} {ρ : Type w}

/-- Finishing the tasks in the order `done` never runs ahead of the window. -/
def Admissible (width : Nat) (tasks done : List τ) : Prop :=
  ∀ k < done.length, (done.take (k + 1)).Subperm (tasks.take (width + k))

namespace Admissible

variable {width : Nat} {tasks done : List τ} {t : τ}

theorem nil : Admissible width tasks [] :=
  fun _ hk => absurd hk (Nat.not_lt_zero _)

/-- One more task may finish if it is among the tasks started by then. -/
theorem snoc_iff : Admissible width tasks (done ++ [t]) ↔
    Admissible width tasks done ∧
      (done ++ [t]).Subperm (tasks.take (width + done.length)) := by
  constructor
  · intro h
    refine ⟨?_, ?_⟩
    · intro k hk
      have hk' := h k (by simp; omega)
      rwa [List.take_append_of_le_length (by omega)] at hk'
    · have hlast := h done.length (by simp)
      rwa [List.take_of_length_le (by simp)] at hlast
  · rintro ⟨h, hlast⟩ k hk
    rw [List.length_append, List.length_singleton] at hk
    by_cases hlt : k < done.length
    · rw [List.take_append_of_le_length (by omega)]
      exact h k hlt
    · have heq : k = done.length := by omega
      rwa [heq, List.take_of_length_le (by simp)]

theorem append_left {rest : List τ} (h : Admissible width tasks (done ++ rest)) :
    Admissible width tasks done := by
  intro k hk
  have hk' := h k (by rw [List.length_append]; omega)
  rwa [List.take_append_of_le_length (by omega)] at hk'

end Admissible

/-! ## Admissible orders are the orders of the loop -/

section Reachable

variable {absorb : σ → τ → Except ρ σ} {width : Nat} {tasks : List τ} {acc₀ : σ}
variable {s t : Window τ σ}

theorem Inv.started_take (h : Inv absorb tasks acc₀ width s) :
    s.started = tasks.take s.started.length := by
  rw [← h.started_append, List.take_left]

theorem Inv.started_length (h : Inv absorb tasks acc₀ width s) :
    s.started.length = s.inflight.length + s.finished.length := by
  rw [h.outstanding.length_eq, List.length_append]

/-- An outstanding task may finish next. -/
theorem Inv.snoc_subperm (h : Inv absorb tasks acc₀ width s) {task : τ}
    (hmem : task ∈ s.inflight) :
    (s.finished ++ [task]).Subperm (tasks.take (width + s.finished.length)) := by
  have hstarted : (s.finished ++ [task]).Subperm s.started := by
    have hone : [task].Subperm s.inflight := List.singleton_subperm_iff.mpr hmem
    have hboth := (List.subperm_append_right s.finished).mpr hone
    apply (List.perm_append_comm.subperm_right.mp hboth).trans
    exact h.outstanding.symm.subperm
  apply hstarted.trans
  rw [h.started_take]
  refine (List.take_sublist_take_left ?_).subperm
  have := h.started_length
  have := h.bounded
  omega

/-- A task that may finish next is outstanding. -/
theorem Inv.mem_inflight (h : Inv absorb tasks acc₀ width s) {task : τ}
    (hnext : (s.finished ++ [task]).Subperm (tasks.take (width + s.finished.length))) :
    task ∈ s.inflight := by
  have hstarted : (tasks.take (width + s.finished.length)).Sublist s.started := by
    by_cases hpending : s.pending = []
    · have hall := h.started_append
      rw [hpending, List.append_nil] at hall
      rw [hall]
      exact List.take_sublist _ _
    · have hfull := h.full hpending
      have hlength := h.started_length
      rw [h.started_take, hlength, hfull]
  have hsub : (s.finished ++ [task]).Subperm (s.inflight ++ s.finished) :=
    (hnext.trans hstarted.subperm).trans h.outstanding.subperm
  have hsub' : ([task] ++ s.finished).Subperm (s.inflight ++ s.finished) :=
    List.perm_append_comm.subperm_right.mp hsub
  exact List.singleton_subperm_iff.mp ((List.subperm_append_right _).mp hsub')

theorem Reaches.admissible (hr : Reaches absorb (prime width tasks acc₀) s) :
    Admissible width tasks s.finished := by
  induction hr with
  | refl =>
      rw [prime_finished]
      exact Admissible.nil
  | @step t u i ht hu ih =>
      have hinv := ht.inv (inv_prime width tasks acc₀)
      obtain ⟨task, hget, hcase⟩ := complete_cases hu
      rcases hcase with ⟨e, _, hout⟩ | ⟨acc, _, hout⟩
      · cases hout
      · cases hout
        rw [start_finished]
        exact Admissible.snoc_iff.mpr ⟨ih, hinv.snoc_subperm (List.mem_of_getElem? hget)⟩

/-- The loop can finish the tasks of an admissible order, in that order, as long
as absorbing them does not leave it. -/
theorem exists_reaches {done : List τ} {acc : σ} (h : Admissible width tasks done)
    (hfold : done.foldlM absorb acc₀ = .ok acc) :
    ∃ s, Reaches absorb (prime width tasks acc₀) s ∧ s.finished = done ∧ s.acc = acc := by
  induction done using List.reverseRecOn generalizing acc with
  | nil =>
      cases hfold
      exact ⟨_, .refl, prime_finished _ _ _, prime_acc _ _ _⟩
  | append_singleton done task ih =>
      obtain ⟨hinit, hnext⟩ := Admissible.snoc_iff.mp h
      obtain ⟨acc₁, hdone, hlast⟩ := foldlM_append_ok_iff.mp hfold
      obtain ⟨acc₂, htask, hnil⟩ := foldlM_cons_ok_iff.mp hlast
      cases hnil
      obtain ⟨s, hr, hfinished, hacc⟩ := ih hinit hdone
      have hinv := hr.inv (inv_prime width tasks acc₀)
      rw [← hfinished] at hnext
      obtain ⟨i, hget⟩ := List.mem_iff_getElem?.mp (hinv.mem_inflight hnext)
      have habsorb : absorb s.acc task = .ok acc := by rw [hacc, htask]
      have hstep : complete absorb i s = some (.ok (Window.start { s with
          inflight := s.inflight.eraseIdx i
          acc := acc
          finished := s.finished ++ [task] })) := by simp [complete, hget, habsorb]
      refine ⟨_, .step i hr hstep, ?_, ?_⟩
      · simp [hfinished]
      · simp

/-- A run from a reachable state is the end of a run from the first one. -/
theorem Reaches.exists_follow {order : List Nat} {r : Except ρ σ} (hr : Reaches absorb s t)
    (h : follow absorb order t = some r) : ∃ order', follow absorb order' s = some r := by
  induction hr generalizing order with
  | refl => exact ⟨order, h⟩
  | @step u v i _ hu ih =>
      have hstep : follow absorb (i :: order) u = some r := by simpa [follow, hu] using h
      exact ih hstep

/-- The results of draining the window: absorb all tasks in an admissible order. -/
theorem follow_ok_iff (hwidth : 0 < width) {acc : σ} :
    (∃ order, follow absorb order (prime width tasks acc₀) = some (.ok acc)) ↔
      ∃ done, Admissible width tasks done ∧ done.Perm tasks ∧
        done.foldlM absorb acc₀ = .ok acc := by
  constructor
  · rintro ⟨order, h⟩
    obtain ⟨s, hr, hempty, rfl, _⟩ := follow_ok h
    have hinv := hr.inv (inv_prime width tasks acc₀)
    exact ⟨s.finished, hr.admissible, hinv.finished_perm hwidth hempty, hinv.absorbed⟩
  · rintro ⟨done, hadm, hperm, hfold⟩
    obtain ⟨s, hr, rfl, rfl⟩ := exists_reaches hadm hfold
    have hinv := hr.inv (inv_prime width tasks acc₀)
    have hlength := hinv.started_length
    have htasks := congrArg List.length hinv.started_append
    rw [← hperm.length_eq, List.length_append] at htasks
    have hempty : s.inflight = [] := List.length_eq_zero_iff.mp (by omega)
    have hend : follow absorb [] s = some (.ok s.acc) := by simp [follow, hempty]
    exact hr.exists_follow hend

/-- The results of leaving the loop: absorb an admissible order up to a task that
leaves it. -/
theorem follow_error_iff {r : ρ} :
    (∃ order, follow absorb order (prime width tasks acc₀) = some (.error r)) ↔
      ∃ done task acc, Admissible width tasks (done ++ [task]) ∧
        done.foldlM absorb acc₀ = .ok acc ∧ absorb acc task = .error r := by
  constructor
  · rintro ⟨order, h⟩
    obtain ⟨s, task, hr, hmem, herror, _⟩ := follow_error h
    have hinv := hr.inv (inv_prime width tasks acc₀)
    exact ⟨s.finished, task, s.acc,
      Admissible.snoc_iff.mpr ⟨hr.admissible, hinv.snoc_subperm hmem⟩, hinv.absorbed, herror⟩
  · rintro ⟨done, task, acc, hadm, hfold, herror⟩
    obtain ⟨hinit, hnext⟩ := Admissible.snoc_iff.mp hadm
    obtain ⟨s, hr, rfl, rfl⟩ := exists_reaches hinit hfold
    have hinv := hr.inv (inv_prime width tasks acc₀)
    obtain ⟨i, hget⟩ := List.mem_iff_getElem?.mp (hinv.mem_inflight hnext)
    have hend : follow absorb [i] s = some (.error r) := by simp [follow, complete, hget, herror]
    exact hr.exists_follow hend

end Reachable

/-! ## Tasks that may be left out -/

namespace Admissible

variable {width : Nat} {tasks done : List τ}

/-- Filtered, an admissible order is one of the filtered tasks. -/
theorem filter (p : τ → Bool) (h : Admissible width tasks done) :
    Admissible width (tasks.filter p) (done.filter p) := by
  induction done using List.reverseRecOn with
  | nil => exact nil
  | append_singleton done t ih =>
      obtain ⟨hinit, hnext⟩ := snoc_iff.mp h
      by_cases hp : p t = true
      · rw [List.filter_append, List.filter_cons_of_pos hp, List.filter_nil, snoc_iff]
        refine ⟨ih hinit, ?_⟩
        have hlive := hnext.filter p
        have hidle := (hnext.filter fun t => !p t).length_le
        rw [List.filter_append, List.filter_cons_of_pos hp, List.filter_nil] at hlive
        rw [List.filter_append, List.filter_cons_of_neg (by simp [hp]), List.filter_nil,
          List.append_nil] at hidle
        -- the idle tasks that finished are among the idle tasks that were started
        have hstarted := List.length_eq_length_filter_add (l := tasks.take (width + done.length)) p
        have hfinished := List.length_eq_length_filter_add (l := done) p
        have hbound := List.length_take_le (width + done.length) tasks
        refine hlive.trans (List.Sublist.subperm ?_)
        have hsplit : (tasks.take (width + done.length)).filter p =
            (tasks.filter p).take ((tasks.take (width + done.length)).filter p).length := by
          conv_rhs => rw [← List.take_append_drop (width + done.length) tasks, List.filter_append]
          rw [List.take_left']
          simp
        rw [hsplit]
        apply List.take_sublist_take_left
        omega
      · rw [List.filter_append, List.filter_cons_of_neg hp, List.filter_nil, List.append_nil]
        exact ih hinit

section Insert

variable {before after : List τ} {t : τ} {n : Nat}

private theorem take_insert_of_le (h : n ≤ before.length) :
    (before ++ t :: after).take n = (before ++ after).take n := by
  rw [List.take_append_of_le_length h, List.take_append_of_le_length h]

private theorem take_insert_of_lt (h : before.length < n) :
    ((before ++ t :: after).take n).Perm (t :: (before ++ after).take (n - 1)) := by
  have hlong : (before ++ t :: after).take n =
      before ++ t :: after.take (n - 1 - before.length) := by
    rw [List.take_append, List.take_of_length_le (Nat.le_of_lt h)]
    have hn : n - before.length = (n - 1 - before.length) + 1 := by omega
    rw [hn, List.take_succ_cons]
  have hshort : (before ++ after).take (n - 1) = before ++ after.take (n - 1 - before.length) := by
    rw [List.take_append, List.take_of_length_le (by omega)]
  rw [hlong, hshort]
  exact List.perm_middle

/-- A further task, put between `before` and `after`, finishes as soon as the
window has reached it. -/
private theorem insert (hwidth : 0 < width) (t : τ)
    (h : Admissible width (before ++ after) done) :
    ∃ done', Admissible width (before ++ t :: after) done' ∧
      (∀ p : τ → Bool, p t = false → done'.filter p = done.filter p) ∧
        (done.Perm (before ++ after) → done'.Perm (before ++ t :: after)) := by
  by_cases hj : before.length + 1 - width ≤ done.length
  · generalize hjdef : before.length + 1 - width = j at hj
    have hsplit := List.take_append_drop j done
    have hmiddle : (done.take j ++ t :: done.drop j).Perm (t :: done) := by
      apply List.perm_middle.trans
      rw [hsplit]
    refine ⟨done.take j ++ t :: done.drop j, ?_, ?_, ?_⟩
    · intro k hk
      rw [hmiddle.length_eq, List.length_cons] at hk
      have htake : (done.take j).length = j := List.length_take_of_le hj
      by_cases hkj : k < j
      · have htasks :
          (before ++ t :: after).take (width + k) = (before ++ after).take (width + k) :=
          take_insert_of_le (by omega)
        rw [htasks, List.take_append_of_le_length (by omega), List.take_take,
          Nat.min_eq_left (by omega)]
        exact h k (by omega)
      · have hdone : ((done.take j ++ t :: done.drop j).take (k + 1)).Perm (t :: done.take k) := by
          have hmoved : ((done.take j ++ t :: done.drop j).take (k + 1)).Perm
              (t :: (done.take j ++ done.drop j).take (k + 1 - 1)) :=
            take_insert_of_lt (by omega)
          rwa [hsplit] at hmoved
        apply (hdone.subperm_right).mpr
        refine ((take_insert_of_lt (by omega)).subperm_left).mpr ((List.subperm_cons t).mpr ?_)
        cases k with
        | zero => simp
        | succ k =>
            have hk' := h k (by omega)
            rwa [Nat.add_sub_assoc (by omega), Nat.add_sub_cancel]
    · intro p hp
      conv_rhs => rw [← hsplit]
      rw [List.filter_append, List.filter_cons_of_neg (by simp [hp]), List.filter_append]
    · intro hperm
      exact (hmiddle.trans (hperm.cons t)).trans List.perm_middle.symm
  · refine ⟨done, ?_, fun _ _ => rfl, ?_⟩
    · intro k hk
      rw [take_insert_of_le (by omega)]
      exact h k hk
    · intro hperm
      have hlength := hperm.length_eq
      rw [List.length_append] at hlength
      omega

end Insert

private theorem exists_extend_aux (hwidth : 0 < width) (p : τ → Bool) (before rest : List τ)
    (h : Admissible width (before ++ rest.filter p) done) :
    ∃ done', Admissible width (before ++ rest) done' ∧ done'.filter p = done.filter p ∧
      (done.Perm (before ++ rest.filter p) → done'.Perm (before ++ rest)) := by
  induction rest generalizing before done with
  | nil => exact ⟨done, by simpa using h, rfl, by simp⟩
  | cons t rest ih =>
      have hstep : before ++ t :: rest = (before ++ [t]) ++ rest := by simp
      rw [hstep]
      by_cases hp : p t = true
      · have hlive : before ++ (t :: rest).filter p = (before ++ [t]) ++ rest.filter p := by
          simp [List.filter_cons_of_pos hp]
        rw [hlive] at h ⊢
        exact ih (before ++ [t]) h
      · rw [List.filter_cons_of_neg hp] at h ⊢
        obtain ⟨done₁, hadm, hfilter, hperm⟩ := h.insert hwidth t
        have hmoved : before ++ t :: rest.filter p = (before ++ [t]) ++ rest.filter p := by simp
        rw [hmoved] at hadm hperm
        obtain ⟨done₂, hadm₂, hfilter₂, hperm₂⟩ := ih (before ++ [t]) hadm
        refine ⟨done₂, hadm₂, ?_, fun hall => hperm₂ (hperm hall)⟩
        rw [hfilter₂, hfilter p (by simpa using hp)]

/-- An order of the tasks that matter extends to an order of all tasks. -/
theorem exists_extend (hwidth : 0 < width) (p : τ → Bool)
    (h : Admissible width (tasks.filter p) done) :
    ∃ done', Admissible width tasks done' ∧ done'.filter p = done.filter p ∧
      (done.Perm (tasks.filter p) → done'.Perm tasks) := by
  have hextend := exists_extend_aux hwidth p [] tasks h
  simpa using hextend

end Admissible

section Idle

variable {absorb : σ → τ → Except ρ σ} {width : Nat} {tasks : List τ} {acc₀ : σ}
variable {p : τ → Bool} {I : σ → Prop}

/-- Under an invariant that makes the tasks outside `p` do nothing, absorbing a
list is absorbing its tasks in `p`. -/
private theorem foldlM_filter (hstep : ∀ acc t acc', I acc → absorb acc t = .ok acc' → I acc')
    (hidle : ∀ acc t, I acc → p t = false → absorb acc t = .ok acc) (done : List τ) {acc : σ}
    (hacc : I acc) :
    done.foldlM absorb acc = (done.filter p).foldlM absorb acc ∧
      ∀ acc', done.foldlM absorb acc = .ok acc' → I acc' := by
  induction done generalizing acc with
  | nil =>
      refine ⟨rfl, ?_⟩
      intro acc' h
      cases h
      exact hacc
  | cons t done ih =>
      cases htask : absorb acc t with
      | error r =>
          have hp : p t = true := by
            by_contra hp
            rw [hidle acc t hacc (by simpa using hp)] at htask
            cases htask
          rw [List.filter_cons_of_pos hp, List.foldlM_cons, List.foldlM_cons, htask]
          refine ⟨rfl, ?_⟩
          intro acc' h
          cases h
      | ok acc₁ =>
          obtain ⟨hsame, hinv⟩ := ih (hstep acc t acc₁ hacc htask)
          rw [List.foldlM_cons, htask]
          refine ⟨?_, hinv⟩
          cases hp : p t with
          | true =>
              rw [List.filter_cons_of_pos hp, List.foldlM_cons, htask]
              exact hsame
          | false =>
              rw [hidle acc t hacc hp] at htask
              cases htask
              rw [List.filter_cons_of_neg (by simp [hp])]
              exact hsame

/-- Tasks that do nothing under an invariant of the loop can be left out: the
loop can end in the same ways without them. -/
theorem follow_filter_iff (hwidth : 0 < width) (hinit : I acc₀)
    (hstep : ∀ acc t acc', I acc → absorb acc t = .ok acc' → I acc')
    (hidle : ∀ acc t, I acc → p t = false → absorb acc t = .ok acc) {r : Except ρ σ} :
    (∃ order, follow absorb order (prime width tasks acc₀) = some r) ↔
      ∃ order, follow absorb order (prime width (tasks.filter p) acc₀) = some r := by
  have hfold := fun done => foldlM_filter (p := p) hstep hidle done hinit
  cases r with
  | ok acc =>
      rw [follow_ok_iff hwidth, follow_ok_iff hwidth]
      constructor
      · rintro ⟨done, hadm, hperm, hdone⟩
        exact ⟨done.filter p, hadm.filter p, hperm.filter p, (hfold done).1 ▸ hdone⟩
      · rintro ⟨done, hadm, hperm, hdone⟩
        obtain ⟨done', hadm', hfilter, hperm'⟩ := hadm.exists_extend hwidth p
        exact ⟨done', hadm', hperm' hperm,
          by rw [(hfold done').1, hfilter, ← (hfold done).1, hdone]⟩
  | error e =>
      rw [follow_error_iff, follow_error_iff]
      constructor
      · rintro ⟨done, task, acc, hadm, hdone, herror⟩
        have hp : p task = true := by
          by_contra hp
          rw [hidle acc task ((hfold done).2 acc hdone) (by simpa using hp)] at herror
          cases herror
        have hadm' := hadm.filter p
        rw [List.filter_append, List.filter_cons_of_pos hp] at hadm'
        exact ⟨done.filter p, task, acc, hadm', (hfold done).1 ▸ hdone, herror⟩
      · rintro ⟨done, task, acc, hadm, hdone, herror⟩
        have hp : p task = true := by
          by_contra hp
          rw [hidle acc task ((hfold done).2 acc hdone) (by simpa using hp)] at herror
          cases herror
        obtain ⟨done', hadm', hfilter, _⟩ := hadm.exists_extend hwidth p
        rw [List.filter_append, List.filter_cons_of_pos hp, List.filter_nil,
          List.filter_eq_append_iff] at hfilter
        obtain ⟨before, after, rfl, hbefore, hafter⟩ := hfilter
        obtain ⟨idle, rest, rfl, hnone, _, _⟩ := List.filter_eq_cons_iff.mp hafter
        have hadm₁ : Admissible width tasks (before ++ idle ++ [task]) := by
          have hall : Admissible width tasks (before ++ idle ++ [task] ++ rest) := by
            simpa using hadm'
          exact hall.append_left
        have hlive : (before ++ idle).filter p = done.filter p := by
          rw [List.filter_append, hbefore, List.filter_eq_nil_iff.mpr hnone, List.append_nil]
        refine ⟨before ++ idle, task, acc, hadm₁, ?_, herror⟩
        rw [(hfold _).1, hlive, ← (hfold done).1, hdone]

end Idle

end Window

end CeQuery
