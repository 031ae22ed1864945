import Mathlib.Data.List.Basic
import Mathlib.Tactic.Common

/-!
# Failover under a deadline

Candidates are called in turn until `needed` of them have answered. Before each call
the time is checked, and then whether `limit` calls were made. After the call that
completes the work the loop stops at once: the time is not checked again.

So no call is started late (`Failover.started_in_time`), and of the answers only the
one that completes the work can come late (`Failover.answered_in_time_iff`).
-/

namespace CeQuery

/-- A call, with the number of calls before it. -/
structure Attempt where
  index : Nat
  answered : Bool

/-- The calls of the loop, and whether it ended at a check of the time. -/
structure Failover where
  attempts : List Attempt
  late : Bool

/-- The readings of the time before each call, and when the reply of each call arrives. -/
structure Timed (clock arrival : Nat → Nat) : Prop where
  duration : ∀ n, clock n ≤ arrival n
  next : ∀ n, arrival n ≤ clock (n + 1)

namespace Failover

variable {α : Type u}

/-- The loop with one more call before it. -/
def after (attempt : Attempt) (rest : Failover) : Failover :=
  { rest with attempts := attempt :: rest.attempts }

@[simp] theorem after_attempts (attempt : Attempt) (rest : Failover) :
    (after attempt rest).attempts = attempt :: rest.attempts := rfl

@[simp] theorem after_late (attempt : Attempt) (rest : Failover) :
    (after attempt rest).late = rest.late := rfl

section

variable (answers : α → Bool) (passed : Nat → Bool) (limit needed : Nat)

/-- With the answer of `a`, after the candidates in `tried`, there are enough answers
or no candidate is left. -/
def Stops (tried : List α) (a : α) (rest : List α) : Prop :=
  answers a = true ∧ (needed ≤ tried.countP answers + 1 ∨ rest.isEmpty = true)

instance (tried : List α) (a : α) (rest : List α) :
    Decidable (Stops answers needed tried a rest) :=
  inferInstanceAs (Decidable (_ ∧ _))

/-- The loop over the candidates that are left after those in `tried`. -/
def run : List α → List α → Failover
  | tried, [] => { attempts := [], late := passed tried.length }
  | tried, a :: rest =>
      if passed tried.length then { attempts := [], late := true }
      else if tried.length ≥ limit then { attempts := [], late := false }
      else if Stops answers needed tried a rest then
        { attempts := [⟨tried.length, true⟩], late := false }
      else after ⟨tried.length, answers a⟩ (run (tried ++ [a]) rest)

/-- The call after `n` others is the one that completes the work. -/
structure Completes (candidates : List α) (n : Nat) : Prop where
  within : n < limit
  missing : (candidates.take n).countP answers < needed
  stops : ∃ a rest, candidates.drop n = a :: rest ∧ Stops answers needed (candidates.take n) a rest

end

variable {answers : α → Bool} {passed : Nat → Bool} {limit needed : Nat}
variable {candidates tried rest : List α} {attempt : Attempt}

theorem started_in_time (h : attempt ∈ (run answers passed limit needed tried rest).attempts) :
    passed attempt.index = false := by
  induction rest generalizing tried with
  | nil => simp [run] at h
  | cons a rest ih =>
      rw [run] at h
      split at h
      · simp at h
      · rename_i hpassed
        have htried : passed tried.length = false := by simpa using hpassed
        split at h
        · simp at h
        · split at h
          · obtain rfl := List.mem_singleton.mp h
            exact htried
          · obtain rfl | hrest := List.mem_cons.mp h
            · exact htried
            · exact ih hrest

/-- The loop begins with a check of the time. -/
theorem begins_in_time (h : (run answers passed limit needed tried rest).late = false) :
    passed tried.length = false := by
  cases rest with
  | nil => exact h
  | cons a rest =>
      rw [run] at h
      split at h
      · cases h
      · simpa using ‹¬passed tried.length = true›

/-- After an answer the time is checked again unless the work is completed. -/
theorem completes_or_checked (hcandidates : tried ++ rest = candidates)
    (hmissing : tried.countP answers < needed)
    (hlate : (run answers passed limit needed tried rest).late = false)
    (h : attempt ∈ (run answers passed limit needed tried rest).attempts)
    (hanswered : attempt.answered = true) :
    Completes answers limit needed candidates attempt.index ∨
      passed (attempt.index + 1) = false := by
  induction rest generalizing tried with
  | nil => simp [run] at h
  | cons a rest ih =>
      rw [run] at h hlate
      split at h
      · simp at h
      · split at h
        · simp at h
        · rename_i hpassed hlimit
          rw [if_neg hpassed, if_neg hlimit] at hlate
          split at h
          · rename_i hstops
            obtain rfl := List.mem_singleton.mp h
            refine .inl ⟨Nat.lt_of_not_ge hlimit, ?_, a, rest, ?_, ?_⟩
            · rwa [← hcandidates, List.take_left]
            · rw [← hcandidates, List.drop_left]
            · rwa [← hcandidates, List.take_left]
          · rename_i hgoes
            rw [if_neg hgoes, after_late] at hlate
            have hnext : passed (tried.length + 1) = false := by
              simpa using begins_in_time hlate
            obtain rfl | hrest := List.mem_cons.mp h
            · exact .inr hnext
            · have hstill : (tried ++ [a]).countP answers < needed := by
                rw [List.countP_append, List.countP_singleton]
                split
                · by_contra hfull
                  exact hgoes ⟨‹_›, .inl (Nat.le_of_not_lt hfull)⟩
                · exact hmissing
              exact ih (by rw [List.append_assoc]; exact hcandidates) hstill hlate hrest

/-- Unless the time is up before it, the call that completes the work is made. -/
theorem mem_attempts_of_completes {n : Nat} (hcandidates : tried ++ rest = candidates)
    (hlate : (run answers passed limit needed tried rest).late = false)
    (h : Completes answers limit needed candidates n) (hn : tried.length ≤ n) :
    ⟨n, true⟩ ∈ (run answers passed limit needed tried rest).attempts := by
  obtain ⟨b, others, hdrop, hstops⟩ := h.stops
  induction rest generalizing tried with
  | nil =>
      rw [← hcandidates, List.append_nil, List.drop_of_length_le hn] at hdrop
      cases hdrop
  | cons a rest ih =>
      rw [run] at hlate ⊢
      split at hlate
      · cases hlate
      · rename_i hpassed
        have hlimit : ¬tried.length ≥ limit := by
          have := h.within
          omega
        rw [if_neg hpassed]
        rw [if_neg hlimit] at hlate ⊢
        obtain heq | hlt := Nat.eq_or_lt_of_le hn
        · -- the candidate in turn is the one that completes the work
          rw [← heq, ← hcandidates, List.drop_left] at hdrop
          rw [← heq, ← hcandidates, List.take_left] at hstops
          obtain ⟨rfl, rfl⟩ := List.cons.inj hdrop
          rw [if_pos hstops, heq]
          exact List.mem_singleton_self _
        · have hlonger : (tried ++ [a]).length ≤ n := by
            rw [List.length_append]
            exact hlt
          have hgoes : ¬Stops answers needed tried a rest := by
            rintro ⟨ha, hfull | hempty⟩
            · have hcount : (tried ++ [a]).countP answers ≤ (candidates.take n).countP answers := by
                refine List.Sublist.countP_le (List.IsPrefix.sublist ?_)
                rw [List.prefix_take_iff, ← hcandidates]
                exact ⟨⟨rest, by simp⟩, hlonger⟩
              rw [List.countP_append, List.countP_singleton, if_pos ha] at hcount
              have := h.missing
              omega
            · obtain rfl := List.isEmpty_iff.mp hempty
              rw [← hcandidates, List.drop_of_length_le hlonger] at hdrop
              cases hdrop
          rw [if_neg hgoes] at hlate ⊢
          refine List.mem_cons_of_mem _ (ih ?_ hlate hlonger)
          rw [List.append_assoc]
          exact hcandidates

section Deadline

variable {clock arrival : Nat → Nat} {deadline : Nat}

/-- In a loop that does not end at a check of the time, the answers arrive before the
deadline exactly if the one that completes the work does. -/
theorem answered_in_time_iff (htimed : Timed clock arrival) (hneeded : 0 < needed)
    (hlate : (run answers (fun n => deadline ≤ clock n) limit needed [] candidates).late = false) :
    (∀ attempt ∈ (run answers (fun n => deadline ≤ clock n) limit needed [] candidates).attempts,
        attempt.answered = true → arrival attempt.index < deadline) ↔
      ∀ n, Completes answers limit needed candidates n → clock n < deadline →
        arrival n < deadline := by
  constructor
  · intro h n hcompletes _
    exact h ⟨n, true⟩ (mem_attempts_of_completes rfl hlate hcompletes (Nat.zero_le n)) rfl
  · intro h attempt hmem hanswered
    have hstarted : clock attempt.index < deadline := by
      simpa using started_in_time hmem
    obtain hcompletes | hchecked := completes_or_checked rfl hneeded hlate hmem hanswered
    · exact h attempt.index hcompletes hstarted
    · have hnext : clock (attempt.index + 1) < deadline := by simpa using hchecked
      exact Nat.lt_of_le_of_lt (htimed.next attempt.index) hnext

end Deadline

end Failover

end CeQuery
