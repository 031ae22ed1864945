import Mathlib.Data.Nat.Find

/-!
# Loops that try again

A loop meets something in every round, and the round decides on a result or that
the loop goes on. What it meets is an endless sequence given from outside. The loop
has the result of the first round that has one (`within_eq_some_iff`), so it ends
exactly if there is such a round (`exists_within_iff`).
-/

namespace CeQuery

namespace Retry

variable {φ ρ : Type} (round : φ → Option ρ) (meets : Nat → φ)

/-- The result of the loop, if it has one after so many rounds, the first of which has
this number. -/
def withinFrom : Nat → Nat → Option ρ
  | _, 0 => none
  | first, n + 1 => (round (meets first)).or (withinFrom (first + 1) n)

/-- The result of the loop, if it has one after so many rounds. -/
def within (n : Nat) : Option ρ :=
  withinFrom round meets 0 n

variable {round meets} {n first : Nat} {r : ρ}

/-- The result is that of the first round that has one. -/
theorem withinFrom_eq_some_iff : withinFrom round meets first n = some r ↔
    ∃ k < n, round (meets (first + k)) = some r ∧
      ∀ j < k, round (meets (first + j)) = none := by
  induction n generalizing first with
  | zero =>
      constructor
      · intro h
        cases h
      · rintro ⟨k, hk, _⟩
        exact absurd hk (Nat.not_lt_zero k)
  | succ n ih =>
      rw [withinFrom]
      cases hround : round (meets first) with
      | some r' =>
          rw [Option.some_or]
          constructor
          · intro h
            cases h
            exact ⟨0, Nat.succ_pos n, hround, fun j hj => absurd hj (Nat.not_lt_zero j)⟩
          · rintro ⟨k, _, hk, hbefore⟩
            cases k with
            | zero => rw [← hk, Nat.add_zero, hround]
            | succ k => cases hround.symm.trans (hbefore 0 (Nat.succ_pos k))
      | none =>
          rw [Option.none_or, ih]
          constructor
          · rintro ⟨k, hk, hresult, hbefore⟩
            refine ⟨k + 1, Nat.succ_lt_succ hk, ?_, ?_⟩
            · rw [← hresult, Nat.add_assoc, Nat.add_comm 1]
            · intro j hj
              cases j with
              | zero => exact hround
              | succ j =>
                  rw [Nat.add_comm j, ← Nat.add_assoc]
                  exact hbefore j (Nat.lt_of_succ_lt_succ hj)
          · rintro ⟨k, hk, hresult, hbefore⟩
            cases k with
            | zero => cases hround.symm.trans hresult
            | succ k =>
                refine ⟨k, Nat.lt_of_succ_lt_succ hk, ?_, ?_⟩
                · rw [← hresult, Nat.add_assoc, Nat.add_comm 1]
                · intro j hj
                  rw [Nat.add_assoc, Nat.add_comm 1]
                  exact hbefore (j + 1) (Nat.succ_lt_succ hj)

theorem within_eq_some_iff : within round meets n = some r ↔
    ∃ k < n, round (meets k) = some r ∧ ∀ j < k, round (meets j) = none := by
  rw [within, withinFrom_eq_some_iff]
  simp only [Nat.zero_add]

/-- The loop ends if some round has a result. -/
theorem exists_within_iff : (∃ n r, within round meets n = some r) ↔
    ∃ k, (round (meets k)).isSome = true := by
  constructor
  · rintro ⟨n, r, h⟩
    obtain ⟨k, _, hk, _⟩ := within_eq_some_iff.mp h
    exact ⟨k, by rw [hk]; rfl⟩
  · intro h
    classical
    obtain ⟨r, hr⟩ := Option.isSome_iff_exists.mp (Nat.find_spec h)
    refine ⟨Nat.find h + 1, r, within_eq_some_iff.mpr ⟨_, Nat.lt_succ_self _, hr, ?_⟩⟩
    intro j hj
    exact Option.not_isSome_iff_eq_none.mp (Nat.find_min h hj)

end Retry

end CeQuery
