import CeQuery.Catalog.Basic
import CeQuery.Foundation.Machine
import Mathlib.Logic.Function.Basic

/-!
# Changing the catalog file

Processes change the catalog file by loading it, updating the catalog and saving
it, under a lock file. The lock file is created exclusively, and whoever finds it
tries again until a timeout. A lock file that was not modified for a minute is
removed as stale. It is removed again when the change is over.

A process is at one point of this program (`Phase`), and an event lets it perform
its next operation on the files. Every operation can fail; a process can crash at
every point, and time passes between the events as it likes. That a process is
suspended means that no event is its.

The file is saved by writing another file, whose name contains the id of the
process, and renaming it.
-/

namespace CeQuery

namespace Mutate

/-- A process. -/
abbrev ProcId : Type := Nat

/-- A call of `mutate`: the process, and which of its calls it is. -/
abbrev Call : Type := ProcId × Nat

/-- Times and durations are in nanoseconds. -/
def seconds (n : Nat) : Nat := n * 1000000000

/-- The age from which on a lock file counts as stale. -/
def staleAge : Nat := seconds 60

/-- How long a process tries to take the lock. -/
def lockTimeout : Nat := seconds 10

/-- What a call does with the catalog, and what it returns. -/
abbrev Update (T : Type) : Type := Catalog → Except String (Catalog × T)

/-- The lock file, with the process that created it. -/
structure LockFile where
  creator : ProcId
  modified : Nat
  deriving DecidableEq

/-- Why a call fails. -/
inductive MutateError where
  | lockTimedOut
  | openingLock
  | load (e : LoadError)
  | update (reason : String)
  | creatingDir
  | writingTemp
  | syncingTemp
  | renaming
  deriving DecidableEq

/-- The point at which a process is. -/
inductive Phase (T : Type) where
  | idle
  /-- About to create the lock file; the call began to wait at `started`. -/
  | create (started : Nat)
  /-- The lock file is there: about to read its age. -/
  | inspect (started : Nat)
  /-- The lock file is stale: about to remove it. -/
  | reclaim (started : Nat)
  /-- About to look at the time and to sleep. -/
  | pause (started : Nat)
  /-- The lock file was created: about to write the process id into it. -/
  | stamp
  | load
  | update (c : Catalog)
  | createDir (c : Catalog) (out : T)
  | createTemp (c : Catalog) (out : T)
  | writeTemp (c : Catalog) (out : T)
  | syncTemp (c : Catalog) (out : T)
  | rename (c : Catalog) (out : T)
  /-- The result is settled: about to remove the lock file. -/
  | release (result : Except MutateError T)
  | crashed

/-- A process between taking the lock and dropping it. -/
def Phase.holds {T : Type} : Phase T → Bool
  | idle | create _ | inspect _ | reclaim _ | pause _ | crashed => false
  | _ => true

/-- A process: where it is, how many calls it has begun, and what the last of them
does. -/
structure Proc (T : Type) where
  phase : Phase T
  calls : Nat
  update : Update T

/-- The time, the files, and the processes. -/
structure World (T : Type) where
  now : Nat
  lock : Option LockFile
  /-- The catalog file. -/
  file : Option ByteArray
  /-- The file that a process writes before it renames it. -/
  temp : ProcId → Option ByteArray
  procs : ProcId → Proc T

/-- Whether the operation of a process succeeds. A failed write has written some
bytes. -/
inductive Answer where
  | ok
  | fails (written : Nat)

inductive Event (T : Type) where
  | tick (duration : Nat)
  | begin (p : ProcId) (update : Update T)
  | step (p : ProcId) (answer : Answer)
  | crash (p : ProcId)

/-- What can be told of a run. -/
inductive Note (T : Type) where
  | began (call : Call) (update : Update T)
  /-- The renaming took place. -/
  | committed (call : Call) (out : T)
  | returned (call : Call) (result : Except MutateError T)

/-- What reading the catalog file gives. -/
def readFile (file : Option ByteArray) : FileRead :=
  file.elim .notFound .bytes

namespace World

variable {T : Type} (json : JsonText) (w : World T) (p : ProcId)

def setProc (proc : Proc T) : World T :=
  { w with procs := Function.update w.procs p proc }

def setPhase (phase : Phase T) : World T :=
  w.setProc p { w.procs p with phase := phase }

/-- Write into the lock file that the process created, which is the present one or
is no longer there. -/
def stampLock : World T :=
  { w with
    lock := w.lock.map fun l => if l.creator = p then { l with modified := w.now } else l }

/-- The call that the process is in. -/
def call : Call := (p, (w.procs p).calls)

/-- Go on without further ado. -/
def goto (phase : Phase T) : Option (World T × List (Note T)) :=
  some (w.setPhase p phase, [])

/-- Return from the call. -/
def finish (result : Except MutateError T) : Option (World T × List (Note T)) :=
  some (w.setPhase p .idle, [.returned (w.call p) result])

/-- The next operation of a process. -/
def step (answer : Answer) : Option (World T × List (Note T)) :=
  match (w.procs p).phase, answer with
  | .idle, _ => none
  | .crashed, _ => none
  | .create started, .ok =>
      match w.lock with
      | none => { w with lock := some { creator := p, modified := w.now } }.goto p .stamp
      | some _ => w.goto p (.inspect started)
  | .create _, .fails _ => w.finish p (.error .openingLock)
  | .inspect started, .ok =>
      match w.lock with
      | some l =>
          if w.now - l.modified > staleAge then w.goto p (.reclaim started)
          else w.goto p (.pause started)
      | none => w.goto p (.pause started)
  | .inspect started, .fails _ => w.goto p (.pause started)
  -- The result of the removal is not looked at.
  | .reclaim started, .ok => { w with lock := none }.goto p (.create started)
  | .reclaim started, .fails _ => w.goto p (.create started)
  | .pause started, _ =>
      if w.now - started ≥ lockTimeout then w.finish p (.error .lockTimedOut)
      else w.goto p (.create started)
  | .stamp, .ok => (w.stampLock p).goto p .load
  | .stamp, .fails _ => w.goto p .load
  | .load, .ok =>
      match Catalog.load json (readFile w.file) with
      | .ok c => w.goto p (.update c)
      | .error e => w.goto p (.release (.error (.load e)))
  | .load, .fails _ => w.goto p (.release (.error (.load .reading)))
  | .update c, _ =>
      match (w.procs p).update c with
      | .ok (c, out) => w.goto p (.createDir c out)
      | .error reason => w.goto p (.release (.error (.update reason)))
  | .createDir c out, .ok => w.goto p (.createTemp c out)
  | .createDir _ _, .fails _ => w.goto p (.release (.error .creatingDir))
  | .createTemp c out, .ok =>
      { w with temp := Function.update w.temp p (some ByteArray.empty) }.goto p (.writeTemp c out)
  | .createTemp _ _, .fails _ => w.goto p (.release (.error .writingTemp))
  | .writeTemp c out, .ok =>
      { w with temp := Function.update w.temp p (some (c.saved json)) }.goto p (.syncTemp c out)
  | .writeTemp c _, .fails written =>
      { w with temp := Function.update w.temp p (some ((c.saved json).extract 0 written)) }.goto p
        (.release (.error .writingTemp))
  | .syncTemp c out, .ok => w.goto p (.rename c out)
  | .syncTemp _ _, .fails _ => w.goto p (.release (.error .syncingTemp))
  | .rename _ out, .ok =>
      match w.temp p with
      | some bytes =>
          some ({ w with
            file := some bytes
            temp := Function.update w.temp p none }.setPhase p (.release (.ok out)),
            [.committed (w.call p) out])
      | none => w.goto p (.release (.error .renaming))
  | .rename _ _, .fails _ => w.goto p (.release (.error .renaming))
  | .release result, .ok => { w with lock := none }.finish p result
  | .release result, .fails _ => w.finish p result

/-- What an event does; nothing if it cannot happen. -/
def next : Event T → Option (World T × List (Note T))
  | .tick duration => some ({ w with now := w.now + duration }, [])
  | .begin p update =>
      match (w.procs p).phase with
      | .idle =>
          some (w.setProc p
            { phase := .create w.now
              calls := (w.procs p).calls + 1
              update }, [.began (p, (w.procs p).calls + 1) update])
      | _ => none
  | .step p answer => w.step json p answer
  | .crash p => w.goto p .crashed

/-- No process is in a call. -/
def Quiet : Prop :=
  ∀ p, (w.procs p).phase = .idle

end World

/-- The processes that share one catalog file. -/
def machine {T : Type} (json : JsonText) : Machine (World T) (Event T) (Note T) where
  next w e := w.next json e

end Mutate

end CeQuery
