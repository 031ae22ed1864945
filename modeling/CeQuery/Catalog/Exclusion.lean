import CeQuery.Catalog.Mutate

/-!
# No lost update

A process that holds the lock is the creator of the lock file, as long as nobody
removes the lock file of a holder. The removal at the end of a call cannot do
that, but the removal of a stale lock file can: its age was read before, and the
file may be another one by now, or its creator may only be slow.

In runs without such removals at most one process holds the lock, and the file
is what the committed calls make of it when each of them is run alone, in the
order in which they committed (`mutate_exclusive`).
-/

namespace CeQuery

namespace Mutate

variable {T : Type}

/-- The event removes, as stale, the lock file of a process that holds the lock. -/
def ReclaimsLive (w : World T) : Event T → Prop
  | .step p .ok =>
      (∃ started, (w.procs p).phase = .reclaim started) ∧
        ∃ l, w.lock = some l ∧ (w.procs l.creator).phase.holds = true
  | _ => False

/-- A call that changed the file, with what it returns. -/
structure Commit (T : Type) where
  call : Call
  update : Update T
  out : T

/-- The calls, run one after another, lead from one content of the file to
another. -/
inductive Serial (json : JsonText) (file₀ : Option ByteArray) :
    List (Commit T) → Option ByteArray → Prop where
  | nil : Serial json file₀ [] file₀
  | snoc {order : List (Commit T)} {file : Option ByteArray} {commit : Commit T} {c c' : Catalog}
      (before : Serial json file₀ order file)
      (loads : Catalog.load json (readFile file) = .ok c)
      (updates : commit.update c = .ok (c', commit.out)) :
      Serial json file₀ (order ++ [commit]) (some (c'.saved json))

/-! ## The invariant -/

/-- A process in a call. -/
def Phase.busy : Phase T → Bool
  | idle | crashed => false
  | _ => true

section Invariant

variable (json : JsonText)

/-- The catalog is what the update makes of the file. -/
def Prepared (file : Option ByteArray) (update : Update T) (c : Catalog) (out : T) : Prop :=
  ∃ c₀, Catalog.load json (readFile file) = .ok c₀ ∧ update c₀ = .ok (c, out)

/-- What a process at this point knows of the files. -/
def Knows (file temp : Option ByteArray) (update : Update T) : Phase T → Prop
  | .update c => Catalog.load json (readFile file) = .ok c
  | .createDir c out => Prepared json file update c out
  | .createTemp c out => Prepared json file update c out
  | .writeTemp c out => Prepared json file update c out
  | .syncTemp c out => Prepared json file update c out ∧ temp = some (c.saved json)
  | .rename c out => Prepared json file update c out ∧ temp = some (c.saved json)
  | _ => True

/-- The call has begun and has not changed the file. -/
def Pending (notes : List (Note T)) (order : List (Commit T)) (call : Call) (update : Update T) :
    Prop :=
  .began call update ∈ notes ∧ ∀ commit ∈ order, commit.call ≠ call

/-- What holds of a process at this point of a call. -/
def Stands (notes : List (Note T)) (order : List (Commit T)) (file temp : Option ByteArray)
    (call : Call) (update : Update T) : Phase T → Prop
  | .idle => True
  | .crashed => True
  | .release (.ok out) => ∃ commit ∈ order, commit.call = call ∧ commit.out = out
  | phase => Pending notes order call update ∧ Knows json file temp update phase

structure Inv (file₀ : Option ByteArray) (w : World T) (notes : List (Note T))
    (order : List (Commit T)) : Prop where
  lock : ∀ p, (w.procs p).phase.holds = true → w.lock.map LockFile.creator = some p
  serial : Serial json file₀ order w.file
  distinct : (order.map Commit.call).Nodup
  counted : ∀ commit ∈ order, commit.call.2 ≤ (w.procs commit.call.1).calls
  began : ∀ commit ∈ order, .began commit.call commit.update ∈ notes
  stands : ∀ p, Stands json notes order w.file (w.temp p) (w.call p) (w.procs p).update
    (w.procs p).phase
  past : ∀ call result, .returned call result ∈ notes → call.2 ≤ (w.procs call.1).calls ∧
    ((w.procs call.1).phase.busy = true → call.2 ≠ (w.procs call.1).calls)
  returned : ∀ call out, .returned call (.ok out) ∈ notes →
    ∃ commit ∈ order, commit.call = call ∧ commit.out = out
  failed : ∀ call e, .returned call (.error e) ∈ notes → ∀ commit ∈ order, commit.call ≠ call

end Invariant

section Frame

variable {json : JsonText} {file₀ : Option ByteArray} {w w₁ : World T} {notes : List (Note T)}
  {order : List (Commit T)} {p q : ProcId} {phase : Phase T}

@[simp] theorem setPhase_self :
    ((w.setPhase p phase).procs p) = { w.procs p with phase := phase } :=
  Function.update_self ..

theorem setPhase_of_ne (h : q ≠ p) : (w.setPhase p phase).procs q = w.procs q :=
  Function.update_of_ne h ..

@[simp] theorem setPhase_calls : ((w.setPhase p phase).procs q).calls = (w.procs q).calls := by
  by_cases h : q = p
  · subst h
    rw [setPhase_self]
  · rw [setPhase_of_ne h]

@[simp] theorem setPhase_update : ((w.setPhase p phase).procs q).update = (w.procs q).update := by
  by_cases h : q = p
  · subst h
    rw [setPhase_self]
  · rw [setPhase_of_ne h]

/-- Only one process holds the lock. -/
theorem Inv.exclusive (h : Inv json file₀ w notes order) (hp : (w.procs p).phase.holds = true)
    (hq : (w.procs q).phase.holds = true) : p = q :=
  Option.some.inj ((h.lock p hp).symm.trans (h.lock q hq))

/-- Within a call a process may change the lock file and the file it writes. -/
theorem Inv.goto (h : Inv json file₀ w notes order) (hfile : w₁.file = w.file)
    (hprocs : w₁.procs = w.procs) (htemp : ∀ q, q ≠ p → w₁.temp q = w.temp q)
    (hlock : ∀ q, q ≠ p → (w.procs q).phase.holds = true → w₁.lock.map LockFile.creator = some q)
    (hself : phase.holds = true → w₁.lock.map LockFile.creator = some p)
    (hbusy : phase.busy = true → (w.procs p).phase.busy = true)
    (hstands : Stands json notes order w.file (w₁.temp p) (w.call p) (w.procs p).update phase) :
    Inv json file₀ (w₁.setPhase p phase) notes order := by
  have hself' : ((w₁.setPhase p phase).procs p).phase = phase := by rw [setPhase_self]
  have hother : ∀ q, q ≠ p → ((w₁.setPhase p phase).procs q).phase = (w.procs q).phase := by
    intro q hq
    rw [setPhase_of_ne hq, hprocs]
  constructor
  · intro q hq
    by_cases hqp : q = p
    · subst hqp
      exact hself (hself' ▸ hq)
    · exact hlock q hqp (hother q hqp ▸ hq)
  · exact hfile ▸ h.serial
  · exact h.distinct
  · intro commit hcommit
    rw [setPhase_calls, hprocs]
    exact h.counted commit hcommit
  · exact h.began
  · intro q
    have hcall : (w₁.setPhase p phase).call q = w.call q := by
      rw [World.call, setPhase_calls, hprocs, World.call]
    rw [hcall, setPhase_update, hprocs]
    change Stands json notes order w₁.file (w₁.temp q) _ _ _
    by_cases hqp : q = p
    · subst hqp
      rw [hself', hfile]
      exact hstands
    · rw [hother q hqp, hfile, htemp q hqp]
      exact h.stands q
  · intro call result hreturned
    rw [setPhase_calls, hprocs]
    refine ⟨(h.past call result hreturned).1, ?_⟩
    intro hcall
    apply (h.past call result hreturned).2
    by_cases hqp : call.1 = p
    · rw [hqp] at hcall ⊢
      exact hbusy (hself' ▸ hcall)
    · exact hother _ hqp ▸ hcall
  · exact h.returned
  · exact h.failed

/-- A process that holds the lock may change the lock file as well: nobody else
holds it. -/
theorem Inv.goto_of_holds (h : Inv json file₀ w notes order)
    (hholds : (w.procs p).phase.holds = true) (hfile : w₁.file = w.file)
    (hprocs : w₁.procs = w.procs) (htemp : ∀ q, q ≠ p → w₁.temp q = w.temp q)
    (hself : phase.holds = true → w₁.lock.map LockFile.creator = some p)
    (hbusy : phase.busy = true → (w.procs p).phase.busy = true)
    (hstands : Stands json notes order w.file (w₁.temp p) (w.call p) (w.procs p).update phase) :
    Inv json file₀ (w₁.setPhase p phase) notes order :=
  h.goto hfile hprocs htemp (fun _ hq hheld => absurd (h.exclusive hheld hholds) hq) hself hbusy
    hstands

/-- A process goes on and leaves the files alone. -/
theorem Inv.stay (h : Inv json file₀ w notes order)
    (hholds : phase.holds = true → (w.procs p).phase.holds = true)
    (hbusy : phase.busy = true → (w.procs p).phase.busy = true)
    (hstands : Stands json notes order w.file (w.temp p) (w.call p) (w.procs p).update phase) :
    Inv json file₀ (w.setPhase p phase) notes order :=
  h.goto rfl rfl (fun _ _ => rfl) (fun q _ => h.lock q) (fun hphase => h.lock p (hholds hphase))
    hbusy hstands

/-! ## Notes -/

theorem Stands.append {file temp : Option ByteArray} {call : Call} {update : Update T}
    (h : Stands json notes order file temp call update phase) (out : List (Note T)) :
    Stands json (notes ++ out) order file temp call update phase := by
  have hpending : Pending notes order call update → Pending (notes ++ out) order call update :=
    fun h => ⟨List.mem_append_left _ h.1, h.2⟩
  cases phase with
  | idle => trivial
  | crashed => trivial
  | release result =>
      cases result with
      | ok out => exact h
      | error e => exact h.imp hpending id
  | _ => exact h.imp hpending id

/-- A note that is no return adds no return. -/
theorem returned_before {note : Note T} {call : Call} {result : Except MutateError T}
    (h : .returned call result ∈ notes ++ [note])
    (hnote : ∀ call result, note ≠ .returned call result) : .returned call result ∈ notes := by
  rcases List.mem_append.mp h with h | h
  · exact h
  · exact absurd (List.mem_singleton.mp h).symm (hnote call result)

/-- The result of a call, and whether the call has changed the file. -/
def Settled (order : List (Commit T)) (call : Call) : Except MutateError T → Prop
  | .ok out => ∃ commit ∈ order, commit.call = call ∧ commit.out = out
  | .error _ => ∀ commit ∈ order, commit.call ≠ call

theorem Stands.settled {file temp : Option ByteArray} {call : Call} {update : Update T}
    {result : Except MutateError T}
    (h : Stands json notes order file temp call update (.release result)) :
    Settled order call result := by
  cases result with
  | ok out => exact h
  | error e => exact h.1.2

/-- A call returns. -/
theorem Inv.return (h : Inv json file₀ w notes order) (hidle : (w.procs p).phase = .idle)
    {result : Except MutateError T} (hsettled : Settled order (w.call p) result) :
    Inv json file₀ w (notes ++ [.returned (w.call p) result]) order := by
  constructor
  · exact h.lock
  · exact h.serial
  · exact h.distinct
  · exact h.counted
  · exact fun commit hcommit => List.mem_append_left _ (h.began commit hcommit)
  · exact fun q => (h.stands q).append _
  · intro call result' hreturned
    rcases List.mem_append.mp hreturned with hreturned | hreturned
    · exact h.past call result' hreturned
    · cases List.mem_singleton.mp hreturned
      refine ⟨Nat.le_refl _, ?_⟩
      intro hbusy
      change (w.procs p).phase.busy = true at hbusy
      rw [hidle] at hbusy
      cases hbusy
  · intro call out hreturned
    rcases List.mem_append.mp hreturned with hreturned | hreturned
    · exact h.returned call out hreturned
    · cases List.mem_singleton.mp hreturned
      exact hsettled
  · intro call e hreturned
    rcases List.mem_append.mp hreturned with hreturned | hreturned
    · exact h.failed call e hreturned
    · cases List.mem_singleton.mp hreturned
      exact hsettled

/-- A call returns, and the process may have removed the lock file. -/
theorem Inv.finish (h : Inv json file₀ w notes order) (hfile : w₁.file = w.file)
    (hprocs : w₁.procs = w.procs) (htemp : w₁.temp = w.temp)
    (hlock : ∀ q, q ≠ p → (w.procs q).phase.holds = true → w₁.lock.map LockFile.creator = some q)
    {result : Except MutateError T} (hsettled : Settled order (w.call p) result) :
    Inv json file₀ (w₁.setPhase p .idle) (notes ++ [.returned (w₁.call p) result]) order := by
  have hgoto : Inv json file₀ (w₁.setPhase p .idle) notes order :=
    h.goto hfile hprocs (fun q _ => congrFun htemp q) hlock nofun nofun trivial
  have hcall : (w₁.setPhase p .idle).call p = w.call p := by
    rw [World.call, setPhase_calls, hprocs, World.call]
  have hcall₁ : w₁.call p = w.call p := by rw [World.call, hprocs, World.call]
  rw [hcall₁, ← hcall]
  apply hgoto.return (by rw [setPhase_self])
  rwa [hcall]

/-- A process begins a call. -/
theorem Inv.begin (h : Inv json file₀ w notes order) (update : Update T) :
    Inv json file₀ (w.setProc p
        { phase := .create w.now
          calls := (w.procs p).calls + 1
          update }) (notes ++ [.began (p, (w.procs p).calls + 1) update]) order := by
  generalize hproc : ({ phase := .create w.now, calls := (w.procs p).calls + 1, update } : Proc T) =
    proc
  have hcalls : proc.calls = (w.procs p).calls + 1 := hproc ▸ rfl
  have hself : (w.setProc p proc).procs p = proc := Function.update_self ..
  have hother : ∀ q, q ≠ p → (w.setProc p proc).procs q = w.procs q :=
    fun q hq => Function.update_of_ne hq ..
  constructor
  · intro q hq
    by_cases hqp : q = p
    · subst hqp
      rw [hself, ← hproc] at hq
      cases hq
    · rw [hother q hqp] at hq
      exact h.lock q hq
  · exact h.serial
  · exact h.distinct
  · intro commit hcommit
    have hle := h.counted commit hcommit
    by_cases hqp : commit.call.1 = p
    · rw [hqp] at hle ⊢
      rw [hself, hcalls]
      exact Nat.le_succ_of_le hle
    · rwa [hother _ hqp]
  · exact fun commit hcommit => List.mem_append_left _ (h.began commit hcommit)
  · intro q
    by_cases hqp : q = p
    · subst hqp
      rw [World.call, hself, hcalls, ← hproc]
      refine ⟨⟨List.mem_append_right _ (List.mem_singleton_self _), ?_⟩, trivial⟩
      rintro commit hcommit hcall
      have hle := h.counted commit hcommit
      rw [hcall] at hle
      exact absurd hle (Nat.not_succ_le_self _)
    · rw [World.call, hother q hqp]
      exact (h.stands q).append _
  · intro call result hreturned
    have hpast := h.past call result (returned_before hreturned nofun)
    by_cases hqp : call.1 = p
    · rw [hqp] at hpast ⊢
      rw [hself, hcalls]
      exact ⟨Nat.le_succ_of_le hpast.1, fun _ => Nat.ne_of_lt (Nat.lt_succ_of_le hpast.1)⟩
    · rwa [hother _ hqp]
  · exact fun call out hreturned => h.returned call out (returned_before hreturned nofun)
  · exact fun call e hreturned => h.failed call e (returned_before hreturned nofun)

/-- A process that does not hold the lock knows nothing of the files, and its call
is not the one that commits. -/
theorem Stands.commit {file temp file' : Option ByteArray} {call : Call} {update : Update T}
    {commit : Commit T} (h : Stands json notes order file temp call update phase)
    (hholds : phase.holds = false) (hcall : commit.call ≠ call) :
    Stands json notes (order ++ [commit]) file' temp call update phase := by
  have hpending : Pending notes order call update →
      Pending notes (order ++ [commit]) call update := by
    rintro ⟨hbegan, hnone⟩
    refine ⟨hbegan, ?_⟩
    intro commit' hcommit'
    rcases List.mem_append.mp hcommit' with hcommit' | hcommit'
    · exact hnone commit' hcommit'
    · rwa [List.mem_singleton.mp hcommit']
  cases phase with
  | idle => trivial
  | crashed => trivial
  | create started => exact h.imp hpending id
  | inspect started => exact h.imp hpending id
  | reclaim started => exact h.imp hpending id
  | pause started => exact h.imp hpending id
  | _ => cases hholds

/-- A process renames what it has written. -/
theorem Inv.commit (h : Inv json file₀ w notes order) {c : Catalog} {out : T}
    (hphase : (w.procs p).phase = .rename c out) :
    Inv json file₀ ({ w with
        file := some (c.saved json)
        temp := Function.update w.temp p none }.setPhase p (.release (.ok out)))
      (notes ++ [.committed (w.call p) out])
      (order ++ [{ call := w.call p, update := (w.procs p).update, out }]) := by
  have hstands := h.stands p
  rw [hphase] at hstands
  obtain ⟨⟨hbegan, hnone⟩, ⟨c₀, hloads, hupdates⟩, _⟩ := hstands
  have hholds : (w.procs p).phase.holds = true := hphase ▸ rfl
  have hother : ∀ q, q ≠ p → (w.procs q).phase.holds = false := by
    intro q hq
    rw [Bool.eq_false_iff]
    exact fun hheld => hq (h.exclusive hheld hholds)
  constructor
  · intro q _
    by_cases hqp : q = p
    · subst hqp
      exact h.lock q hholds
    · rename_i hheld
      rw [setPhase_of_ne hqp] at hheld
      exact absurd hheld (Bool.eq_false_iff.mp (hother q hqp))
  · exact .snoc h.serial hloads hupdates
  · rw [List.map_append, List.map_singleton, (List.perm_append_singleton _ _).nodup_iff,
      List.nodup_cons]
    refine ⟨?_, h.distinct⟩
    intro hmem
    obtain ⟨commit, hcommit, hcall⟩ := List.mem_map.mp hmem
    exact hnone commit hcommit hcall
  · refine List.forall_mem_append.mpr ⟨?_, List.forall_mem_singleton.mpr ?_⟩
    · intro commit hcommit
      rw [setPhase_calls]
      exact h.counted commit hcommit
    · rw [setPhase_calls]
      exact Nat.le_refl _
  · refine List.forall_mem_append.mpr ⟨?_, List.forall_mem_singleton.mpr ?_⟩
    · exact fun commit hcommit => List.mem_append_left _ (h.began commit hcommit)
    · exact List.mem_append_left _ hbegan
  · intro q
    have hcall : ∀ phase, ({ w with
        file := some (c.saved json)
        temp := Function.update w.temp p none }.setPhase p phase).call q = w.call q := by
      intro phase
      rw [World.call, setPhase_calls, World.call]
    rw [hcall, setPhase_update]
    by_cases hqp : q = p
    · subst hqp
      rw [setPhase_self]
      exact ⟨_, List.mem_append_right _ (List.mem_singleton_self _), rfl, rfl⟩
    · have hne : w.call p ≠ w.call q := fun heq => hqp (congrArg Prod.fst heq).symm
      have htemp : Function.update w.temp p none q = w.temp q := Function.update_of_ne hqp ..
      rw [setPhase_of_ne hqp]
      change Stands json _ _ _ (Function.update w.temp p none q) _ _ _
      rw [htemp]
      exact ((h.stands q).commit (hother q hqp) hne).append _
  · intro call result hreturned
    have hpast := h.past call result (returned_before hreturned nofun)
    rw [setPhase_calls]
    refine ⟨hpast.1, fun hbusy => hpast.2 ?_⟩
    by_cases hqp : call.1 = p
    · rw [hqp, hphase]
      rfl
    · rwa [setPhase_of_ne hqp] at hbusy
  · intro call out' hreturned
    obtain ⟨commit, hcommit, hresult⟩ := h.returned call out' (returned_before hreturned nofun)
    exact ⟨commit, List.mem_append_left _ hcommit, hresult⟩
  · intro call e hreturned
    have hpast := (h.past call (.error e) (returned_before hreturned nofun)).2
    refine List.forall_mem_append.mpr ⟨h.failed call e (returned_before hreturned nofun), ?_⟩
    refine List.forall_mem_singleton.mpr ?_
    rintro rfl
    exact hpast (by rw [World.call, hphase]; rfl) rfl

/-! ## Steps -/

/-- The invariant holds wherever an operation leads. -/
def Keeps (json : JsonText) (file₀ : Option ByteArray) (notes : List (Note T))
    (next : Option (World T × List (Note T))) : Prop :=
  ∀ w' out, next = some (w', out) → ∃ order, Inv json file₀ w' (notes ++ out) order

/-- It holds there with an order that goes on from this one. -/
def KeepsOrder (json : JsonText) (file₀ : Option ByteArray) (notes : List (Note T))
    (order : List (Commit T)) (next : Option (World T × List (Note T))) : Prop :=
  ∀ w' out, next = some (w', out) →
    ∃ order', order <+: order' ∧ Inv json file₀ w' (notes ++ out) order'

theorem Inv.keeps_goto (h : Inv json file₀ (w₁.setPhase p phase) notes order) :
    KeepsOrder json file₀ notes order (w₁.goto p phase) := by
  rintro _ _ ⟨⟩
  exact ⟨order, List.prefix_rfl, by rwa [List.append_nil]⟩

section Step

variable {phase₀ : Phase T} {result : Except MutateError T} {answer : Answer} {started : Nat}
  {c : Catalog} {out : T} (h : Inv json file₀ w notes order)
include h

theorem Inv.stands_at (hphase : (w.procs p).phase = phase) :
    Stands json notes order w.file (w.temp p) (w.call p) (w.procs p).update phase :=
  hphase ▸ h.stands p

/-- A process goes on and leaves the files alone. -/
theorem Inv.keeps_stay (hphase : (w.procs p).phase = phase₀)
    (hholds : phase.holds = true → phase₀.holds = true)
    (hbusy : phase.busy = true → phase₀.busy = true)
    (hstands : Stands json notes order w.file (w.temp p) (w.call p) (w.procs p).update phase) :
    KeepsOrder json file₀ notes order (w.goto p phase) := by
  subst hphase
  exact (h.stay hholds hbusy hstands).keeps_goto

/-- A process that holds the lock changes the file that it writes. -/
theorem Inv.keeps_write {bytes : Option ByteArray} (hphase : (w.procs p).phase = phase₀)
    (hholds : phase₀.holds = true) (hbusy : phase.busy = true → phase₀.busy = true)
    (hstands : Stands json notes order w.file bytes (w.call p) (w.procs p).update phase) :
    KeepsOrder json file₀ notes order
      ({ w with temp := Function.update w.temp p bytes }.goto p phase) := by
  subst hphase
  refine Inv.keeps_goto (?_ : Inv json file₀ _ notes order)
  refine h.goto_of_holds hholds rfl rfl ?_ ?_ hbusy ?_
  · exact fun q hq => Function.update_of_ne hq ..
  · exact fun _ => h.lock p hholds
  · change Stands json notes order w.file (Function.update w.temp p bytes p) _ _ _
    rwa [Function.update_self]

/-- A call returns, and the process may have removed the lock file. -/
theorem Inv.keeps_finish (hfile : w₁.file = w.file) (hprocs : w₁.procs = w.procs)
    (htemp : w₁.temp = w.temp)
    (hlock : ∀ q, q ≠ p → (w.procs q).phase.holds = true → w₁.lock.map LockFile.creator = some q)
    (hsettled : Settled order (w.call p) result) :
    KeepsOrder json file₀ notes order (w₁.finish p result) := by
  rintro _ _ ⟨⟩
  exact ⟨order, List.prefix_rfl, h.finish hfile hprocs htemp hlock hsettled⟩

theorem Inv.keeps_create (hphase : (w.procs p).phase = .create started) :
    KeepsOrder json file₀ notes order (w.step json p answer) := by
  have hstands := h.stands_at hphase
  cases answer with
  | fails written =>
      rw [World.step.eq_def, hphase]
      exact h.keeps_finish rfl rfl rfl (fun q _ => h.lock q) hstands.1.2
  | ok =>
      cases hlock : w.lock with
      | some l =>
          rw [World.step.eq_def, hphase]
          dsimp only
          rw [hlock]
          exact h.keeps_stay hphase id id hstands
      | none =>
          rw [World.step.eq_def, hphase]
          dsimp only
          rw [hlock]
          refine Inv.keeps_goto (?_ : Inv json file₀ _ notes order)
          refine h.goto rfl rfl (fun _ _ => rfl) ?_ (fun _ => rfl) (fun _ => hphase ▸ rfl) hstands
          intro q _ hq
          have hsome := h.lock q hq
          rw [hlock] at hsome
          cases hsome

theorem Inv.keeps_inspect (hphase : (w.procs p).phase = .inspect started) :
    KeepsOrder json file₀ notes order (w.step json p answer) := by
  have hstands := h.stands_at hphase
  have hpause : KeepsOrder json file₀ notes order (w.goto p (.pause started)) :=
    h.keeps_stay hphase id id hstands
  cases answer with
  | fails written =>
      rw [World.step.eq_def, hphase]
      exact hpause
  | ok =>
      rw [World.step.eq_def, hphase]
      dsimp only
      split
      · split
        · exact h.keeps_stay hphase id id hstands
        · exact hpause
      · exact hpause

theorem Inv.keeps_reclaim (hphase : (w.procs p).phase = .reclaim started)
    (hsafe : ¬ReclaimsLive w (.step p answer)) :
    KeepsOrder json file₀ notes order (w.step json p answer) := by
  have hstands := h.stands_at hphase
  cases answer with
  | fails written =>
      rw [World.step.eq_def, hphase]
      exact h.keeps_stay hphase id id hstands
  | ok =>
      rw [World.step.eq_def, hphase]
      refine Inv.keeps_goto (?_ : Inv json file₀ _ notes order)
      refine h.goto rfl rfl (fun _ _ => rfl) ?_ nofun (fun _ => hphase ▸ rfl) hstands
      intro q _ hq
      -- A holder is the creator of the lock file, so this removal takes its lock.
      obtain ⟨l, hl, rfl⟩ := Option.map_eq_some_iff.mp (h.lock q hq)
      exact absurd ⟨⟨started, hphase⟩, l, hl, hq⟩ hsafe

theorem Inv.keeps_pause (hphase : (w.procs p).phase = .pause started) :
    KeepsOrder json file₀ notes order (w.step json p answer) := by
  have hstands := h.stands_at hphase
  rw [World.step.eq_def, hphase]
  dsimp only
  split
  · exact h.keeps_finish rfl rfl rfl (fun q _ => h.lock q) hstands.1.2
  · exact h.keeps_stay hphase id id hstands

theorem Inv.keeps_stamp (hphase : (w.procs p).phase = .stamp) :
    KeepsOrder json file₀ notes order (w.step json p answer) := by
  have hstands := h.stands_at hphase
  have hholds : (w.procs p).phase.holds = true := hphase ▸ rfl
  cases answer with
  | fails written =>
      rw [World.step.eq_def, hphase]
      exact h.keeps_stay hphase id id hstands
  | ok =>
      rw [World.step.eq_def, hphase]
      refine Inv.keeps_goto (?_ : Inv json file₀ _ notes order)
      refine h.goto_of_holds hholds rfl rfl (fun _ _ => rfl) ?_ (fun _ => hphase ▸ rfl) hstands
      intro _
      obtain ⟨l, hl, hcreator⟩ := Option.map_eq_some_iff.mp (h.lock p hholds)
      simp [World.stampLock, hl, hcreator]

theorem Inv.keeps_load (hphase : (w.procs p).phase = .load) :
    KeepsOrder json file₀ notes order (w.step json p answer) := by
  have hstands := h.stands_at hphase
  cases answer with
  | fails written =>
      rw [World.step.eq_def, hphase]
      exact h.keeps_stay hphase id id hstands
  | ok =>
      rw [World.step.eq_def, hphase]
      dsimp only
      split
      · rename_i c hload
        exact h.keeps_stay hphase id id ⟨hstands.1, hload⟩
      · exact h.keeps_stay hphase id id hstands

theorem Inv.keeps_update (hphase : (w.procs p).phase = .update c) :
    KeepsOrder json file₀ notes order (w.step json p answer) := by
  obtain ⟨hpending, hload⟩ := h.stands_at hphase
  rw [World.step.eq_def, hphase]
  dsimp only
  split
  · rename_i c' out hupdate
    exact h.keeps_stay hphase id id ⟨hpending, c, hload, hupdate⟩
  · exact h.keeps_stay hphase id id ⟨hpending, trivial⟩

theorem Inv.keeps_createDir (hphase : (w.procs p).phase = .createDir c out) :
    KeepsOrder json file₀ notes order (w.step json p answer) := by
  have hstands := h.stands_at hphase
  cases answer with
  | fails written =>
      rw [World.step.eq_def, hphase]
      exact h.keeps_stay hphase id id ⟨hstands.1, trivial⟩
  | ok =>
      rw [World.step.eq_def, hphase]
      exact h.keeps_stay hphase id id hstands

theorem Inv.keeps_createTemp (hphase : (w.procs p).phase = .createTemp c out) :
    KeepsOrder json file₀ notes order (w.step json p answer) := by
  have hstands := h.stands_at hphase
  cases answer with
  | fails written =>
      rw [World.step.eq_def, hphase]
      exact h.keeps_stay hphase id id ⟨hstands.1, trivial⟩
  | ok =>
      rw [World.step.eq_def, hphase]
      exact h.keeps_write hphase rfl id hstands

theorem Inv.keeps_writeTemp (hphase : (w.procs p).phase = .writeTemp c out) :
    KeepsOrder json file₀ notes order (w.step json p answer) := by
  have hstands := h.stands_at hphase
  cases answer with
  | fails written =>
      rw [World.step.eq_def, hphase]
      exact h.keeps_write hphase rfl id ⟨hstands.1, trivial⟩
  | ok =>
      rw [World.step.eq_def, hphase]
      exact h.keeps_write hphase rfl id ⟨hstands.1, hstands.2, rfl⟩

theorem Inv.keeps_syncTemp (hphase : (w.procs p).phase = .syncTemp c out) :
    KeepsOrder json file₀ notes order (w.step json p answer) := by
  have hstands := h.stands_at hphase
  cases answer with
  | fails written =>
      rw [World.step.eq_def, hphase]
      exact h.keeps_stay hphase id id ⟨hstands.1, trivial⟩
  | ok =>
      rw [World.step.eq_def, hphase]
      exact h.keeps_stay hphase id id hstands

theorem Inv.keeps_rename (hphase : (w.procs p).phase = .rename c out) :
    KeepsOrder json file₀ notes order (w.step json p answer) := by
  have hstands := h.stands_at hphase
  cases answer with
  | fails written =>
      rw [World.step.eq_def, hphase]
      exact h.keeps_stay hphase id id ⟨hstands.1, trivial⟩
  | ok =>
      -- What is renamed are the bytes that were written and synced.
      have htemp : w.temp p = some (c.saved json) := hstands.2.2
      rw [World.step.eq_def, hphase]
      dsimp only
      rw [htemp]
      rintro _ _ ⟨⟩
      exact ⟨_, List.prefix_append _ _, h.commit hphase⟩

theorem Inv.keeps_release (hphase : (w.procs p).phase = .release result) :
    KeepsOrder json file₀ notes order (w.step json p answer) := by
  have hsettled : Settled order (w.call p) result := (h.stands_at hphase).settled
  cases answer with
  | fails written =>
      rw [World.step.eq_def, hphase]
      exact h.keeps_finish rfl rfl rfl (fun q _ => h.lock q) hsettled
  | ok =>
      rw [World.step.eq_def, hphase]
      refine h.keeps_finish rfl rfl rfl ?_ hsettled
      exact fun q hq hother => absurd (h.exclusive hother (hphase ▸ rfl)) hq

/-- The operations of a process preserve the invariant, unless one removes the lock
file of a holder as stale. -/
theorem Inv.keeps_step (hsafe : ¬ReclaimsLive w (.step p answer)) :
    KeepsOrder json file₀ notes order (w.step json p answer) := by
  cases hphase : (w.procs p).phase with
  | idle =>
      rw [World.step.eq_def, hphase]
      exact nofun
  | crashed =>
      rw [World.step.eq_def, hphase]
      exact nofun
  | create started => exact h.keeps_create hphase
  | inspect started => exact h.keeps_inspect hphase
  | reclaim started => exact h.keeps_reclaim hphase hsafe
  | pause started => exact h.keeps_pause hphase
  | stamp => exact h.keeps_stamp hphase
  | load => exact h.keeps_load hphase
  | update c => exact h.keeps_update hphase
  | createDir c out => exact h.keeps_createDir hphase
  | createTemp c out => exact h.keeps_createTemp hphase
  | writeTemp c out => exact h.keeps_writeTemp hphase
  | syncTemp c out => exact h.keeps_syncTemp hphase
  | rename c out => exact h.keeps_rename hphase
  | release result => exact h.keeps_release hphase

/-- Every event preserves the invariant, unless it removes the lock file of a holder
as stale, and at most adds a commit. -/
theorem Inv.keepsOrder_next {e : Event T} (hsafe : ¬ReclaimsLive w e) :
    KeepsOrder json file₀ notes order (w.next json e) := by
  cases e with
  | tick duration =>
      rintro _ _ ⟨⟩
      rw [List.append_nil]
      exact ⟨order, List.prefix_rfl, h.lock, h.serial, h.distinct, h.counted, h.began, h.stands,
        h.past, h.returned, h.failed⟩
  | begin p update =>
      simp only [World.next]
      split
      · rintro _ _ ⟨⟩
        exact ⟨order, List.prefix_rfl, h.begin update⟩
      · exact nofun
  | step p answer => exact h.keeps_step hsafe
  | crash p => exact h.keeps_stay rfl nofun nofun trivial

theorem Inv.keeps_next {e : Event T} (hsafe : ¬ReclaimsLive w e) :
    Keeps json file₀ notes (w.next json e) := by
  intro w' out hnext
  obtain ⟨order', _, h'⟩ := h.keepsOrder_next hsafe w' out hnext
  exact ⟨order', h'⟩

end Step

/-- Before the first call nothing is locked and nothing has changed. -/
theorem World.Quiet.inv (hquiet : w.Quiet) : Inv json w.file w [] [] where
  lock p hp := by
    rw [hquiet p] at hp
    cases hp
  serial := .nil
  distinct := List.nodup_nil
  counted := nofun
  began := nofun
  stands p := by
    rw [hquiet p]
    trivial
  past := nofun
  returned := nofun
  failed := nofun

end Frame

/-! ## Runs -/

variable {json : JsonText} {w₀ w : World T} {events : List (Event T)} {notes : List (Note T)}

/-- If no lock file of a holder is removed as stale, at most one process holds the
lock, and the calls that returned a value are among those that, run one after another,
give the file. -/
theorem mutate_exclusive (hquiet : w₀.Quiet)
    (hsafe : (machine json).Throughout (fun w e => ¬ReclaimsLive w e) w₀ events)
    (hrun : (machine json).run w₀ events = some (w, notes)) :
    (∀ p q, (w.procs p).phase.holds = true → (w.procs q).phase.holds = true → p = q) ∧
      ∃ order, Serial json w₀.file order w.file ∧ (order.map Commit.call).Nodup ∧
        (∀ commit ∈ order, .began commit.call commit.update ∈ notes) ∧
        (∀ call out, .returned call (.ok out) ∈ notes →
          ∃ commit ∈ order, commit.call = call ∧ commit.out = out) ∧
        ∀ call e, .returned call (.error e) ∈ notes → ∀ commit ∈ order, commit.call ≠ call := by
  have hstep : ∀ (w : World T) (seen : List (Note T)) (e : Event T) (w' : World T)
      (out : List (Note T)), (∃ order, Inv json w₀.file w seen order) → ¬ReclaimsLive w e →
      (machine json).next w e = some (w', out) →
      ∃ order, Inv json w₀.file w' (seen ++ out) order := by
    rintro w seen e w' out ⟨order, h⟩ hlive hnext
    exact h.keeps_next hlive w' out hnext
  obtain ⟨order, h⟩ := Machine.run_invariant hstep ⟨[], hquiet.inv⟩ hsafe hrun
  exact ⟨fun _ _ => h.exclusive, order, h.serial, h.distinct, h.began, h.returned, h.failed⟩

/-- The text of a catalog with empty datasets. -/
private def emptyDatasetsText (names : List String) : String :=
  "\x7b\n  \"version\": 1,\n  \"datasets\": \x7b\n" ++
    ",\n".intercalate (names.map fun name =>
      "    \"" ++ name ++ "\": \x7b\n      \"name\": \"" ++ name ++
        "\",\n      \"schema\": [],\n      \"shards\": []\n    \x7d") ++
    "\n  \x7d\n\x7d"

private def emptyDataset (name : String) : Dataset where
  name
  schema := []
  shards := []

/-- What printing does to such catalogs; the one with the dataset `a` is read. -/
private def emptyDatasets : JsonText where
  print _ := ""
  printPretty
    | .object [_, (_, .object datasets)] => emptyDatasetsText (datasets.map Prod.fst)
    | _ => ""
  parse text :=
    if text = emptyDatasetsText ["a"] then
      some (catalogCodec.encode (Catalog.new.put (emptyDataset "a")))
    else none

private def putDataset (name : String) : Update Unit :=
  fun c => .ok (c.put (emptyDataset name), ())

private def fresh (lock : Option LockFile) : World Unit where
  now := seconds 100
  lock
  file := none
  temp _ := none
  procs _ := { phase := .idle, calls := 0, update := putDataset "" }

private def goOn (n : Nat) (p : ProcId) : List (Event Unit) :=
  List.replicate n (.step p .ok)

/-- A process dies with the lock in its hands. Then two others want it: the first one
removes the stale lock file and takes the lock, the second one has to wait. -/
private def contended : List (Event Unit) :=
  [.begin 2 (putDataset "c"), .step 2 .ok, .crash 2, .tick (seconds 100),
    .begin 0 (putDataset "a"), .begin 1 (putDataset "b")] ++ goOn 4 0 ++ goOn 3 1 ++ goOn 9 0 ++
    goOn 10 1

set_option maxRecDepth 4000 in
/-- Both of them change the file, one after the other. -/
theorem mutate_exclusive_contended :
    ∃ w notes, (machine emptyDatasets).run (fresh none) contended = some (w, notes) ∧
      .returned (0, 1) (.ok ()) ∈ notes ∧ .returned (1, 1) (.ok ()) ∈ notes ∧
      w.file = some (emptyDatasetsText ["a", "b"]).toUTF8 ∧
      (∀ p q, (w.procs p).phase.holds = true → (w.procs q).phase.holds = true → p = q) ∧
      ∃ order, Serial emptyDatasets none order w.file ∧ (order.map Commit.call).Nodup ∧
        (∀ commit ∈ order, .began commit.call commit.update ∈ notes) ∧
        (∀ call out, .returned call (.ok out) ∈ notes →
          ∃ commit ∈ order, commit.call = call ∧ commit.out = out) ∧
        ∀ call e, .returned call (.error e) ∈ notes → ∀ commit ∈ order, commit.call ≠ call := by
  have hrun : (machine emptyDatasets).run (fresh none) contended = some (_,
      [.began (2, 1) (putDataset "c"), .began (0, 1) (putDataset "a"),
        .began (1, 1) (putDataset "b"), .committed (0, 1) (), .returned (0, 1) (.ok ()),
        .committed (1, 1) (), .returned (1, 1) (.ok ())]) := rfl
  have hsafe : (machine emptyDatasets).Throughout (fun w e => ¬ReclaimsLive w e) (fresh none)
      contended := by
    refine .cons nofun rfl ?_
    refine .cons ?_ rfl ?_
    · rintro ⟨⟨started, h⟩, _⟩
      cases h
    iterate 4
      refine .cons nofun rfl ?_
    iterate 2
      refine .cons ?_ rfl ?_
      · rintro ⟨⟨started, h⟩, _⟩
        cases h
    -- The lock file that is removed belongs to the process that died.
    refine .cons ?_ rfl ?_
    · rintro ⟨_, l, hl, hholds⟩
      cases hl
      cases hholds
    iterate 23
      refine .cons ?_ rfl ?_
      · rintro ⟨⟨started, h⟩, _⟩
        cases h
    trivial
  exact ⟨_, _, hrun, by simp, by simp, rfl, mutate_exclusive (fun _ => rfl) hsafe hrun⟩

/-- A process that crashed left its lock file. -/
private def abandoned : World Unit :=
  fresh (some { creator := 2, modified := 0 })

/-- Both find the lock file stale, and each removes it and creates its own. -/
private def takeOver : List (Event Unit) :=
  [.begin 0 (putDataset "a"), .begin 1 (putDataset "b")] ++ goOn 2 0 ++ goOn 2 1 ++ goOn 2 0 ++
    goOn 2 1

/-- A process removes the lock file that another has created since: two processes
hold the lock, and a change is lost. -/
theorem mutate_race :
    abandoned.Quiet ∧
      (∃ w notes, (machine emptyDatasets).run abandoned takeOver = some (w, notes) ∧
        ¬∀ p q, (w.procs p).phase.holds = true → (w.procs q).phase.holds = true → p = q) ∧
      ∃ w notes, (machine emptyDatasets).run abandoned
          (takeOver ++ goOn 2 0 ++ goOn 2 1 ++ goOn 7 0 ++ goOn 7 1) = some (w, notes) ∧
        .returned (0, 1) (.ok ()) ∈ notes ∧ .returned (1, 1) (.ok ()) ∈ notes ∧
        w.file = some (emptyDatasetsText ["b"]).toUTF8 := by
  refine ⟨fun _ => rfl, ⟨_, _, rfl, ?_⟩, _,
    [.began (0, 1) (putDataset "a"), .began (1, 1) (putDataset "b"),
      .committed (0, 1) (), .returned (0, 1) (.ok ()),
      .committed (1, 1) (), .returned (1, 1) (.ok ())], rfl, ?_, ?_, rfl⟩
  · intro h
    exact absurd (h 0 1 rfl rfl) (by decide)
  · simp
  · simp

end Mutate

end CeQuery
