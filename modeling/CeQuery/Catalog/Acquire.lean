import CeQuery.Catalog.Intact
import CeQuery.Foundation.Retry

/-!
# Waiting for the lock

`CatalogLock::acquire` is followed here round by round, whatever the file system
answers. A round in which the lock file is there and stale goes on to the next round
after trying to remove it. Neither the outcome of the removal nor the time is looked
at then, so a stale lock file that cannot be removed, or that is there again at once,
keeps the loop going for ever (`acquire_returns_iff`).
-/

namespace CeQuery

/-- Why a file operation fails. -/
inductive IoError where
  | alreadyExists
  | other (reason : String)
  deriving DecidableEq

/-- What is known of a file: how long ago it was modified, unless this cannot be read;
none if it was modified in the future. -/
structure Metadata where
  modified : Except IoError (Option Nat)

namespace CatalogLock

/-- What a round of the loop meets. -/
structure Round where
  createNew : Except IoError Unit
  writePid : Except IoError Unit
  metadata : Except IoError Metadata
  removeFile : Except IoError Unit
  /-- The time since the loop began. -/
  elapsed : Nat

/-- The age of the lock file can be read and is that of a stale one. -/
def Round.stale (r : Round) : Bool :=
  (r.metadata.toOption.bind fun found => found.modified.toOption.bind id).any
    fun age => decide (age > Mutate.staleAge)

inductive AcquireError where
  | timedOut (lock : String)
  | opening (lock : String) (e : IoError)

/-- The lock file, for whoever has taken the lock. -/
structure Held where
  path : String

/-- One round: its result, or none to try again. The outcomes of writing the process id
and of removing a stale lock file are not looked at. -/
def round (lock : String) (timeout : Nat) (r : Round) : Option (Except AcquireError Held) :=
  match r.createNew with
  | .ok () => some (.ok { path := lock })
  | .error .alreadyExists =>
      if r.stale then none
      else if r.elapsed ≥ timeout then some (.error (.timedOut lock))
      else none
  | .error e => some (.error (.opening lock e))

/-- The result of `acquire`, if it returns after so many rounds. -/
def acquire (catalog : String) (timeout : Nat) (meets : Nat → Round) (n : Nat) :
    Option (Except AcquireError Held) :=
  Retry.within (round (Mutate.lockName catalog) timeout) meets n

/-- `acquire` returns at some time. -/
def Returns (catalog : String) (timeout : Nat) (meets : Nat → Round) : Prop :=
  ∃ n result, acquire catalog timeout meets n = some result

/-- From some round on the timeout has passed. -/
def TimeComes (timeout : Nat) (meets : Nat → Round) : Prop :=
  ∃ n, ∀ k, n ≤ k → timeout ≤ (meets k).elapsed

/-- In some round the lock file can be created, or this fails for another reason than
that it is there; or the lock file found when the timeout has passed is not stale. -/
def GivesWay (timeout : Nat) (meets : Nat → Round) : Prop :=
  ∃ n, (meets n).createNew ≠ .error .alreadyExists ∨
    ((meets n).stale = false ∧ timeout ≤ (meets n).elapsed)

section Rounds

variable {lock : String} {timeout : Nat} {r : Round}

theorem Round.stale_of_age {found : Metadata} {age : Nat} (hfound : r.metadata = .ok found)
    (hmodified : found.modified = .ok (some age)) (hage : age > Mutate.staleAge) :
    r.stale = true := by
  rw [stale, hfound, Except.toOption, Option.bind_some, hmodified, Except.toOption,
    Option.bind_some, id, Option.any_some]
  exact decide_eq_true hage

theorem isSome_round_iff : (round lock timeout r).isSome = true ↔
    r.createNew ≠ .error .alreadyExists ∨ (r.stale = false ∧ timeout ≤ r.elapsed) := by
  rw [round]
  rcases hcreate : r.createNew with (_ | reason) | _
  · cases hstale : r.stale
    · by_cases htime : timeout ≤ r.elapsed
      · simp [htime]
      · simp [htime]
    · simp
  · simp
  · simp

end Rounds

/-- `acquire` returns exactly if the lock gives way. -/
theorem acquire_returns_iff (catalog : String) (timeout : Nat) (meets : Nat → Round) :
    Returns catalog timeout meets ↔ GivesWay timeout meets := by
  rw [Returns, GivesWay]
  unfold acquire
  rw [Retry.exists_within_iff]
  exact exists_congr fun n => isSome_round_iff

/-- If `acquire` goes on for ever although the timeout passes, it finds nothing but stale
lock files from then on, and does not sleep any more. -/
theorem stale_of_not_returns {catalog : String} {timeout : Nat} {meets : Nat → Round}
    (htime : TimeComes timeout meets) (h : ¬Returns catalog timeout meets) :
    ∃ n, ∀ k, n ≤ k →
      (meets k).createNew = .error .alreadyExists ∧ (meets k).stale = true := by
  rw [acquire_returns_iff, GivesWay, not_exists] at h
  obtain ⟨n, hn⟩ := htime
  refine ⟨n, fun k hk => ?_⟩
  obtain ⟨hcreate, hstale⟩ := not_or.mp (h k)
  refine ⟨not_not.mp hcreate, ?_⟩
  by_contra hfresh
  exact hstale ⟨Bool.eq_false_iff.mpr hfresh, hn k hk⟩

/-- Each round takes a second and finds a lock file of a crashed process, in a directory
in which it may not be removed. -/
private def unremovable (n : Nat) : Round where
  createNew := .error .alreadyExists
  writePid := .ok ()
  metadata := .ok { modified := .ok (some (Mutate.seconds (61 + n))) }
  removeFile := .error (.other "permission denied")
  elapsed := Mutate.seconds n

/-- The timeout of ten seconds passes without an end. -/
theorem acquire_stuck : TimeComes Mutate.lockTimeout unremovable ∧
    ¬Returns "catalog.json" Mutate.lockTimeout unremovable := by
  constructor
  · refine ⟨10, fun n hn => ?_⟩
    change Mutate.lockTimeout ≤ Mutate.seconds n
    rw [Mutate.lockTimeout, Mutate.seconds, Mutate.seconds]
    omega
  · rintro ⟨n, result, h⟩
    obtain ⟨k, _, hk, _⟩ := Retry.within_eq_some_iff.mp h
    have hage : Mutate.seconds (61 + k) > Mutate.staleAge := by
      rw [Mutate.staleAge, Mutate.seconds, Mutate.seconds]
      omega
    rw [round, Round.stale_of_age rfl rfl hage] at hk
    cases hk

end CatalogLock

end CeQuery
