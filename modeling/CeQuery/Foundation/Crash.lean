/-!
# Programs that can die

A program performs operations on a state, one after another. What an operation
meets is decided from outside, by an answer, and a program whose answers are used
up has died at this point. So the lists of answers are the ways in which a program
can go, and every moment of a way is the end of one of its beginnings.

`Contract` has a condition for the states in which a program can die beside the
one for the states in which it returns.
-/

namespace CeQuery

/-- A program: the state in which it ends and, unless it died, its result and the
answers that are left. -/
def Crashing (φ σ ε α : Type) : Type :=
  List φ → σ → σ × Option (Except ε α × List φ)

namespace Crashing

variable {φ σ ε δ α β : Type}

/-- A single operation. -/
def op (act : φ → σ → Except ε α × σ) : Crashing φ σ ε α
  | [], s => (s, none)
  | a :: as, s => ((act a s).2, some ((act a s).1, as))

def fail (e : ε) : Crashing φ σ ε α :=
  fun as s => (s, some (.error e, as))

instance : Monad (Crashing φ σ ε) where
  pure a := fun as s => (s, some (.ok a, as))
  bind x f := fun as s =>
    match x as s with
    | (s, none) => (s, none)
    | (s, some (.ok a, as)) => f a as s
    | (s, some (.error e, as)) => (s, some (.error e, as))

/-- Go on whatever the result is. -/
def ignoring (x : Crashing φ σ δ α) : Crashing φ σ ε Unit := fun as s =>
  match x as s with
  | (s, none) => (s, none)
  | (s, some (_, as)) => (s, some (.ok (), as))

/-- Clean up when the program has returned, with a result or with an error. -/
def thenAlways (x : Crashing φ σ ε α) (cleanup : Crashing φ σ δ Unit) : Crashing φ σ ε α :=
  fun as s =>
    match x as s with
    | (s, none) => (s, none)
    | (s, some (r, as)) =>
        match cleanup as s with
        | (s, none) => (s, none)
        | (s, some (_, as)) => (s, some (r, as))

/-- Repeat the body until it has a result, at most so many times. -/
def repeated (body : Crashing φ σ ε (Option α)) : Nat → Crashing φ σ ε α
  | 0 => fun _ s => (s, none)
  | n + 1 => body >>= fun
      | some a => pure a
      | none => repeated body n

/-- Repeat the body until it has a result. A body performs an operation every time,
so there is an answer for each repetition but the last. -/
def loop (body : Crashing φ σ ε (Option α)) : Crashing φ σ ε α :=
  fun as s => repeated body (as.length + 1) as s

/-! ## Contracts -/

/-- From the states of `P` the program can die in those of `C` only, and what it
returns and the state it returns in are related by `Q`. -/
def Contract (P C : σ → Prop) (Q : Except ε α → σ → Prop) (x : Crashing φ σ ε α) : Prop :=
  ∀ as s, P s →
    match x as s with
    | (t, none) => C t
    | (t, some (r, _)) => Q r t

namespace Contract

variable {P P' C C' : σ → Prop} {Q Q' : Except ε α → σ → Prop} {R : Except ε β → σ → Prop}
  {x : Crashing φ σ ε α}

theorem consequence (h : Contract P C Q x) (pre : ∀ s, P' s → P s) (dies : ∀ s, C s → C' s)
    (post : ∀ r s, Q r s → Q' r s) : Contract P' C' Q' x := by
  intro as s hs
  have hx := h as s (pre s hs)
  revert hx
  cases x as s with
  | mk t out =>
      cases out with
      | none => exact dies t
      | some r => exact post r.1 t

/-- What does not depend on the state can be assumed. -/
theorem assuming {p : Prop} (h : p → Contract P C Q x) : Contract (fun s => p ∧ P s) C Q x :=
  fun as s hs => h hs.1 as s hs.2

protected theorem pure {a : α} (h : ∀ s, P s → Q (.ok a) s) :
    Contract P C Q (pure a : Crashing φ σ ε α) :=
  fun _ s hs => h s hs

protected theorem fail {e : ε} (h : ∀ s, P s → Q (.error e) s) :
    Contract P C Q (fail e : Crashing φ σ ε α) :=
  fun _ s hs => h s hs

protected theorem op {act : φ → σ → Except ε α × σ} (hdies : ∀ s, P s → C s)
    (hact : ∀ a s, P s → Q (act a s).1 (act a s).2) : Contract P C Q (op act) := by
  intro as s hs
  cases as with
  | nil => exact hdies s hs
  | cons a as => exact hact a s hs

protected theorem bind {f : α → Crashing φ σ ε β} (hx : Contract P C Q x)
    (hf : ∀ a, Contract (Q (.ok a)) C R (f a)) (herror : ∀ e s, Q (.error e) s → R (.error e) s) :
    Contract P C R (x >>= f) := by
  intro as s hs
  have hfirst := hx as s hs
  revert hfirst
  change _ → match (match x as s with
    | (s, none) => (s, none)
    | (s, some (.ok a, as)) => f a as s
    | (s, some (.error e, as)) => (s, some (.error e, as))) with
    | (t, none) => C t
    | (t, some (r, _)) => R r t
  cases x as s with
  | mk t out =>
      cases out with
      | none => exact id
      | some r =>
          obtain ⟨r, as⟩ := r
          cases r with
          | error e => exact herror e t
          | ok a => exact fun h => hf a as t h

theorem ignoring {Q : Except δ α → σ → Prop} {R : Except ε Unit → σ → Prop}
    {x : Crashing φ σ δ α} (hx : Contract P C Q x) (h : ∀ r s, Q r s → R (.ok ()) s) :
    Contract P C R x.ignoring := by
  intro as s hs
  have hfirst := hx as s hs
  revert hfirst
  simp only [Crashing.ignoring]
  cases x as s with
  | mk t out =>
      cases out with
      | none => exact id
      | some r => exact h r.1 t

theorem thenAlways {cleanup : Crashing φ σ δ Unit} (hx : Contract P C Q x)
    (hcleanup : ∀ r, Contract (Q r) C (fun _ => Q' r) cleanup) :
    Contract P C Q' (x.thenAlways cleanup) := by
  intro as s hs
  have hfirst := hx as s hs
  revert hfirst
  simp only [Crashing.thenAlways]
  cases x as s with
  | mk t out =>
      cases out with
      | none => exact id
      | some r =>
          obtain ⟨r, as⟩ := r
          intro h
          have hlast := hcleanup r as t h
          revert hlast
          simp only
          cases cleanup as t with
          | mk u out =>
              cases out with
              | none => exact id
              | some r => exact id

/-- A condition that the body keeps as long as it has no result holds in every round. -/
protected theorem loop {body : Crashing φ σ ε (Option α)} (hdies : ∀ s, P s → C s)
    (hbody : Contract P C (fun
      | .ok none => P
      | .ok (some a) => Q (.ok a)
      | .error e => Q (.error e)) body) : Contract P C Q (loop body) := by
  have hrepeated : ∀ n, Contract P C Q (repeated body n) := by
    intro n
    induction n with
    | zero => exact fun _ s hs => hdies s hs
    | succ n ih =>
        refine hbody.bind ?_ fun _ _ h => h
        intro out
        cases out with
        | none => exact ih
        | some a => exact .pure fun _ h => h
  exact fun as s hs => hrepeated _ as s hs

end Contract

end Crashing

end CeQuery
