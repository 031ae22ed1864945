import CeQuery.Catalog.Mutate
import CeQuery.Foundation.Crash

/-!
# What a failed change leaves behind

`mutate` is followed here operation by operation on the files of a directory. Every
operation can fail, and the process can die before each of them. No other process
writes the catalog, but while a process waits for the lock others may take it and
drop it.

The names of the lock file and of the file that is renamed come from the name of the
catalog file, whose extension is replaced. The second name is never that of the
catalog file; the first one is, when the catalog file has the extension `lock` and is
not `..lock`, and then the catalog is removed as a stale lock file. For every other
name the catalog file is the old one or, once the renaming took place, the complete new
one (`mutate_intact_iff`).

The names are those of one directory, without the path that leads to it.
-/

namespace CeQuery

namespace Mutate

/-! ## File names -/

/-- Whether a path of one component leads to a file: `.` and `..` lead to directories,
the empty path nowhere. -/
def isFileName (name : String) : Bool :=
  name ≠ "" && name ≠ "." && name ≠ ".."

/-- The name of a file without its extension, and the extension: what follows the
last dot, unless this is the first character. -/
def splitExtension (name : String) : String × Option String :=
  if isFileName name then
    match name.toList.reverse.dropWhile (· ≠ '.') with
    | [] => (name, none)
    | [_] => (name, none)
    | _ :: stem =>
        (.ofList stem.reverse, some (.ofList (name.toList.reverse.takeWhile (· ≠ '.')).reverse))
  else (name, none)

def extension (name : String) : Option String :=
  (splitExtension name).2

/-- Give a file another extension, which is not empty. A path that leads to no file
stays as it is. -/
def setExtension (name ext : String) : String :=
  if isFileName name then (splitExtension name).1 ++ "." ++ ext else name

/-- Set the extension of what the name is up to its last dot, or of the name if it has
no extension. -/
def withExtension (name ext : String) : String :=
  match splitExtension name with
  | (stem, some _) => setExtension (stem ++ ".") ext
  | (_, none) => setExtension name ext

def lockName (name : String) : String :=
  withExtension name "lock"

/-- The file that is written before it is renamed. -/
def tempName (name : String) (pid : ProcId) : String :=
  withExtension name ("json.tmp." ++ pid.repr)

theorem isFileName_of_two_lt {name : String} (h : 2 < name.length) : isFileName name = true := by
  simp only [isFileName, Bool.and_eq_true, decide_eq_true_eq]
  refine ⟨⟨?_, ?_⟩, ?_⟩
  · rintro rfl
    exact absurd h (by decide)
  · rintro rfl
    exact absurd h (by decide)
  · rintro rfl
    exact absurd h (by decide)

theorem append_dot_ne {name ext : String} : name ++ "." ++ ext ≠ name := by
  intro h
  have hlength := congrArg String.length h
  have hdot : ".".length = 1 := rfl
  simp only [String.length_append] at hlength
  omega

theorem isFileName_append_dot {stem : String} (hempty : stem ≠ "") (hdot : stem ≠ ".") :
    isFileName (stem ++ ".") = true := by
  have hcancel : ∀ {other : String}, stem ++ "." = other ++ "." → stem = other := by
    intro other h
    exact (String.append_left_inj ".").mp h
  simp only [isFileName, Bool.and_eq_true, decide_eq_true_eq]
  refine ⟨⟨?_, fun h => hempty (hcancel h)⟩, fun h => hdot (hcancel h)⟩
  intro h
  simpa using congrArg String.length h

theorem splitExtension_eq {name stem : String} {ext : Option String}
    (h : splitExtension name = (stem, ext)) :
    (ext = none ∧ stem = name) ∨
      ∃ e, ext = some e ∧ name = stem ++ "." ++ e ∧ '.' ∉ e.toList ∧ stem ≠ "" := by
  have hsplit := List.takeWhile_append_dropWhile (p := (· ≠ '.')) (l := name.toList.reverse)
  unfold splitExtension at h
  split at h
  · split at h
    · cases h
      exact .inl ⟨rfl, rfl⟩
    · cases h
      exact .inl ⟨rfl, rfl⟩
    · rename_i c before hbefore hdrop
      cases h
      have hdot : c = '.' := by
        have hne : name.toList.reverse.dropWhile (· ≠ '.') ≠ [] := hdrop ▸ List.cons_ne_nil _ _
        have hhead := List.head_dropWhile_not (· ≠ '.') hne
        simpa only [hdrop, List.head_cons, decide_eq_false_iff_not, not_not] using hhead
      have hdots : '.' ∉ name.toList.reverse.takeWhile (· ≠ '.') := by
        intro hmem
        simpa using List.mem_takeWhile_imp hmem
      revert hsplit hdots
      generalize name.toList.reverse.takeWhile (· ≠ '.') = after
      intro hsplit hdots
      refine .inr ⟨_, rfl, ?_, by simpa using hdots, ?_⟩
      · rw [hdrop, hdot] at hsplit
        apply String.toList_injective
        rw [← List.reverse_reverse name.toList, ← hsplit]
        simp
      · intro hempty
        have hnil : before = [] := by simpa using congrArg String.toList hempty
        exact hbefore hnil
  · cases h
    exact .inl ⟨rfl, rfl⟩

/-- The last dot of a file's name splits it, unless it is the first character. -/
theorem splitExtension_append {stem ext : String} (hstem : stem ≠ "") (hext : '.' ∉ ext.toList)
    (hfile : isFileName (stem ++ "." ++ ext) = true) :
    splitExtension (stem ++ "." ++ ext) = (stem, some ext) := by
  have hlist : (stem ++ "." ++ ext).toList.reverse =
      ext.toList.reverse ++ '.' :: stem.toList.reverse := by simp
  have hafter : ∀ c ∈ ext.toList.reverse, decide (c ≠ '.') = true := by
    rintro c hc
    simpa using fun heq : c = '.' => hext (heq ▸ List.mem_reverse.mp hc)
  have hdrop : (stem ++ "." ++ ext).toList.reverse.dropWhile (· ≠ '.') =
      '.' :: stem.toList.reverse := by
    rw [hlist, List.dropWhile_append_of_pos hafter]
    rfl
  have htake : (stem ++ "." ++ ext).toList.reverse.takeWhile (· ≠ '.') =
      ext.toList.reverse := by
    rw [hlist, List.takeWhile_append_of_pos hafter]
    simp
  obtain ⟨c, rest, hcons⟩ : ∃ c rest, stem.toList.reverse = c :: rest := by
    apply List.exists_cons_of_ne_nil
    intro hnil
    exact hstem (String.toList_injective (by simpa using hnil))
  rw [splitExtension, if_pos hfile, htake, hdrop, hcons]
  simp [← hcons]

/-- Setting the extension does nothing when the name up to its last dot is `..`. -/
theorem withExtension_of_some {name stem e : String} (h : splitExtension name = (stem, some e))
    (ext : String) :
    withExtension name ext = if stem = "." then ".." else stem ++ "." ++ ext := by
  obtain ⟨hnone, _⟩ | ⟨_, _, _, _, hstem⟩ := splitExtension_eq h
  · cases hnone
  rw [withExtension, h]
  by_cases hdot : stem = "."
  · rw [if_pos hdot, hdot]
    rfl
  · have hfile : isFileName (stem ++ "." ++ "") = true := by
      rw [String.append_empty]
      exact isFileName_append_dot hstem hdot
    have hsplit := splitExtension_append hstem List.not_mem_nil hfile
    rw [String.append_empty] at hfile hsplit
    simp only [setExtension, if_pos hfile, hsplit, if_neg hdot]

theorem withExtension_of_none {name stem : String} (h : splitExtension name = (stem, none))
    (ext : String) :
    withExtension name ext = if isFileName name then name ++ "." ++ ext else name := by
  obtain ⟨_, rfl⟩ | ⟨_, hsome, _⟩ := splitExtension_eq h
  · simp only [withExtension, setExtension, h]
  · cases hsome

/-- A name whose lock file is a file is that of a file. -/
theorem isFileName_of_lockName {name : String} (h : isFileName (lockName name) = true) :
    isFileName name = true := by
  by_contra hfile
  obtain ⟨stem, ext, hsplit⟩ : ∃ stem ext, splitExtension name = (stem, ext) := ⟨_, _, rfl⟩
  have hnone : splitExtension name = (name, none) := by rw [splitExtension, if_neg hfile]
  rw [lockName, withExtension_of_none hnone, if_neg hfile] at h
  exact hfile h

/-- The file that is written first is never the catalog. -/
theorem tempName_ne {name : String} (hfile : isFileName name = true) (pid : ProcId) :
    tempName name pid ≠ name := by
  intro h
  obtain ⟨stem, ext, hsplit⟩ : ∃ stem ext, splitExtension name = (stem, ext) := ⟨_, _, rfl⟩
  rw [tempName] at h
  obtain ⟨rfl, rfl⟩ | ⟨e, rfl, rfl, hdots, _⟩ := splitExtension_eq hsplit
  · rw [withExtension_of_none hsplit, if_pos hfile] at h
    exact append_dot_ne h
  · rw [withExtension_of_some hsplit] at h
    by_cases hstem : stem = "."
    · rw [if_pos hstem] at h
      rw [← h] at hfile
      exact absurd hfile (by decide)
    · rw [if_neg hstem] at h
      have hext : "json.tmp." ++ pid.repr = e := by simpa using h
      exact hdots (by simp [← hext])

/-- The lock file is the catalog for the extension `lock` only, and even then not for
the name `..lock`, whose lock is a directory. -/
theorem lockName_ne_iff {name : String} :
    (isFileName (lockName name) = true → lockName name ≠ name) ↔
      extension name ≠ some "lock" ∨ name = "..lock" := by
  obtain ⟨stem, ext, hsplit⟩ : ∃ stem ext, splitExtension name = (stem, ext) := ⟨_, _, rfl⟩
  rw [extension, hsplit, lockName]
  obtain ⟨rfl, rfl⟩ | ⟨e, rfl, rfl, _, _⟩ := splitExtension_eq hsplit
  · refine iff_of_true (fun hlock heq => ?_) (.inl nofun)
    rw [heq] at hlock
    rw [withExtension_of_none hsplit, if_pos hlock] at heq
    exact append_dot_ne heq
  · rw [withExtension_of_some hsplit]
    by_cases hstem : stem = "."
    · rw [if_pos hstem, hstem]
      refine iff_of_true (fun hlock => absurd hlock (by decide)) ?_
      by_cases he : e = "lock"
      · exact .inr (he ▸ rfl)
      · exact .inl (by simpa using he)
    · have hlong : isFileName (stem ++ "." ++ "lock") = true := by
        apply isFileName_of_two_lt
        have hlock : "lock".length = 4 := rfl
        simp only [String.length_append]
        omega
      rw [if_neg hstem]
      simp only [hlong, true_imp_iff]
      constructor
      · intro hne
        refine .inl fun he => hne ?_
        rw [Option.some_inj.mp he]
      · rintro (hne | hname) heq
        · exact hne (by simpa using heq.symm)
        · have hdots : stem ++ "." ++ "lock" = "." ++ "." ++ "lock" := heq.trans hname
          exact hstem ((String.append_left_inj _).mp ((String.append_left_inj _).mp hdots))

/-! ## The program -/

structure File where
  contents : ByteArray
  modified : Nat

/-- What can be told of a run. -/
inductive Deed where
  /-- The lock was taken. -/
  | locked
  /-- The renaming took place. -/
  | renamed
  /-- Removing the lock file at the end failed. -/
  | keptLock
  deriving DecidableEq

/-- The time and the files of the directory, and what took place. Under a name that is
no file's stands the directory it leads to, if at all, of which the age is read only. -/
structure Disk where
  now : Nat
  files : String → Option File
  deeds : List Deed

/-- What an operation meets: the time that passes before it, whether it fails, having
written some bytes, and what others make of the lock file while the process sleeps,
unless they leave it alone. -/
structure Meeting where
  elapsed : Nat
  failure : Option Nat
  others : Option (Option File)

namespace Disk

variable (d : Disk) (name : String)

def contents : Option ByteArray :=
  (d.files name).map File.contents

def pass (duration : Nat) : Disk :=
  { d with now := d.now + duration }

def set (file : Option File) : Disk :=
  { d with files := Function.update d.files name file }

def write (contents : ByteArray) : Disk :=
  d.set name (some { contents, modified := d.now })

def note (deed : Deed) : Disk :=
  { d with deeds := deed :: d.deeds }

end Disk

/-- A program on the files that can die. -/
abbrev Fragile (α : Type) : Type := Crashing Meeting Disk MutateError α

/-- An operation that acts after some time. -/
def operation {α : Type} (act : Option Nat → Disk → Except MutateError α × Disk) : Fragile α :=
  .op fun m d => act m.failure (d.pass m.elapsed)

/-- An operation that changes nothing if it fails. -/
def attempt {α : Type} (e : MutateError) (act : Disk → Except MutateError α × Disk) :
    Fragile α :=
  operation fun
    | none, d => act d
    | some _, d => (.error e, d)

def createDirAll : Fragile Unit :=
  attempt .creatingDir fun d => (.ok (), d)

def clock : Fragile Nat :=
  operation fun _ d => (.ok d.now, d)

/-- Create the lock file; false if there is one already, or a directory. -/
def createNew (lock : String) : Fragile Bool :=
  attempt .openingLock fun d =>
    if isFileName lock then
      match d.files lock with
      | none => (.ok true, (d.write lock .empty).note .locked)
      | some _ => (.ok false, d)
    else if lock = "" then (.error .openingLock, d)
    else (.ok false, d)

/-- Write the process id into the lock file, not looking at the result. -/
def writePid (lock : String) (pid : ProcId) : Fragile Unit :=
  operation fun
    | none, d => (.ok (), d.write lock pid.repr.toUTF8)
    | some written, d => (.ok (), d.write lock (pid.repr.toUTF8.extract 0 written))

/-- Whether the age of the lock file can be read and is that of a stale one. -/
def isStale (lock : String) : Fragile Bool :=
  operation fun
    | none, d =>
        (.ok ((d.files lock).any fun file => decide (d.now - file.modified > staleAge)), d)
    | some _, d => (.ok false, d)

/-- Remove a stale lock file, not looking at the result. -/
def removeStale (lock : String) : Fragile Unit :=
  operation fun
    | none, d => (.ok (), if isFileName lock then d.set lock none else d)
    | some _, d => (.ok (), d)

def sleep (lock : String) : Fragile Unit :=
  .op fun m d =>
    let d := d.pass m.elapsed
    (.ok (), if isFileName lock then m.others.elim d (d.set lock) else d)

/-- Take the lock. -/
def acquire (name : String) (pid : ProcId) : Fragile Unit := do
  let lock := lockName name
  createDirAll.ignoring
  let started ← clock
  .loop do
    if ← createNew lock then
      writePid lock pid
      return some ()
    else if ← isStale lock then
      removeStale lock
      return none
    else if (← clock) - started ≥ lockTimeout then
      .fail .lockTimedOut
    else
      sleep lock
      return none

/-- Drop the lock, not looking at the result. -/
def dropLock (lock : String) : Fragile Unit :=
  operation fun
    | none, d => (.ok (), if isFileName lock then d.set lock none else d.note .keptLock)
    | some _, d => (.ok (), d.note .keptLock)

/-- Read the catalog, which is a file: no other name has a lock that can be taken. -/
def readAll (name : String) : Fragile FileRead :=
  operation fun
    | none, d => (.ok (readFile (d.contents name)), d)
    | some _, d => (.ok .failed, d)

def ofExcept {α : Type} : Except MutateError α → Fragile α
  | .ok a => pure a
  | .error e => .fail e

def load (json : JsonText) (name : String) : Fragile Catalog := do
  let file ← readAll name
  ofExcept ((Catalog.load json file).mapError .load)

def createFile (name : String) : Fragile Unit :=
  attempt .writingTemp fun d =>
    if isFileName name then (.ok (), d.write name .empty) else (.error .writingTemp, d)

def writeAll (name : String) (bytes : ByteArray) : Fragile Unit :=
  operation fun
    | none, d => (.ok (), d.write name bytes)
    | some written, d => (.error .writingTemp, d.write name (bytes.extract 0 written))

def syncAll : Fragile Unit :=
  attempt .syncingTemp fun d => (.ok (), d)

def rename (source target : String) : Fragile Unit :=
  attempt .renaming fun d =>
    match d.files source with
    | some file => (.ok (), ((d.set target (some file)).set source none).note .renamed)
    | none => (.error .renaming, d)

def save (json : JsonText) (name : String) (pid : ProcId) (c : Catalog) : Fragile Unit := do
  createDirAll
  let temp := tempName name pid
  createFile temp
  writeAll temp (c.saved json)
  syncAll
  rename temp name

/-- Load, update and save the catalog under the lock. -/
def mutate {T : Type} (json : JsonText) (name : String) (pid : ProcId) (update : Update T) :
    Fragile T := do
  acquire name pid
  let changing : Fragile T := do
    let c ← load json name
    let (c, out) ← ofExcept ((update c).mapError .update)
    save json name pid c
    return out
  changing.thenAlways (dropLock (lockName name))

/-! ## What holds at every moment -/

section Conditions

variable {T : Type} (json : JsonText) (name : String) (file : Option ByteArray)
  (update : Update T)

/-- The catalog file is the complete new one. -/
def Disk.Replaced (d : Disk) (out : T) : Prop :=
  (∃ c c', Catalog.load json (readFile file) = .ok c ∧ update c = .ok (c', out) ∧
      d.contents name = some (c'.saved json)) ∧ .renamed ∈ d.deeds

/-- A call on a catalog file that was `file` leaves the disk `d` with this result, or
with none if the process has died. -/
structure Intact (d : Disk) (result : Option (Except MutateError T)) : Prop where
  /-- As long as nothing was renamed, the catalog file is the old one. -/
  old : .renamed ∉ d.deeds → d.contents name = file
  /-- From then on it is the complete new one. -/
  new : .renamed ∈ d.deeds → ∃ out, d.Replaced json name file update out
  returned : ∀ out, result = some (.ok out) → d.Replaced json name file update out
  failed : ∀ e, result = some (.error e) → d.contents name = file
  /-- Who returns after taking the lock has removed the lock file, unless removing
  it failed. -/
  unlocked : result.isSome → .locked ∈ d.deeds → .keptLock ∉ d.deeds →
    d.files (lockName name) = none

end Conditions

/-- A directory before a call. -/
def Disk.start (files : String → Option File) (now : Nat) : Disk where
  now
  files
  deeds := []

/-- What is in the catalog file, and what took place so far. -/
def Disk.At (d : Disk) (name : String) (file : Option ByteArray) (deeds : List Deed) : Prop :=
  d.contents name = file ∧ d.deeds = deeds

theorem contents_set_of_ne {d : Disk} {name other : String} {file : Option File}
    (h : other ≠ name) : (d.set other file).contents name = d.contents name := by
  simp only [Disk.contents, Disk.set, Function.update_of_ne h.symm]

theorem contents_write_self {d : Disk} {name : String} {bytes : ByteArray} :
    (d.write name bytes).contents name = some bytes := by
  simp only [Disk.contents, Disk.write, Disk.set, Function.update_self, Option.map_some]

namespace Disk.At

variable {d : Disk} {name other : String} {file : Option ByteArray} {deeds : List Deed}

theorem set (h : d.At name file deeds) (hne : other ≠ name) (f : Option File) :
    (d.set other f).At name file deeds :=
  ⟨(contents_set_of_ne hne).trans h.1, h.2⟩

theorem write (h : d.At name file deeds) (hne : other ≠ name) (bytes : ByteArray) :
    (d.write other bytes).At name file deeds :=
  h.set hne _

theorem note (h : d.At name file deeds) (deed : Deed) :
    (d.note deed).At name file (deed :: deeds) :=
  ⟨h.1, congrArg (deed :: ·) h.2⟩

end Disk.At

section Contracts

open Crashing (Contract)

variable {α : Type} {P C : Disk → Prop} {Q : Except MutateError α → Disk → Prop}

theorem operation_contract {act : Option Nat → Disk → Except MutateError α × Disk}
    (hpass : ∀ d n, P d → P (d.pass n)) (hdies : ∀ d, P d → C d)
    (hact : ∀ failure d, P d → Q (act failure d).1 (act failure d).2) :
    Contract P C Q (operation act) :=
  .op hdies fun m d h => hact m.failure _ (hpass d m.elapsed h)

theorem attempt_contract {e : MutateError} {act : Disk → Except MutateError α × Disk}
    (hpass : ∀ d n, P d → P (d.pass n)) (hdies : ∀ d, P d → C d)
    (hfails : ∀ d, P d → Q (.error e) d) (hact : ∀ d, P d → Q (act d).1 (act d).2) :
    Contract P C Q (attempt e act) := by
  apply operation_contract hpass hdies
  intro failure d h
  cases failure with
  | none => exact hact d h
  | some _ => exact hfails d h

/-- The program does not fail, leaves the catalog file alone, and does nothing to be
told of. -/
def Silent (name : String) (x : Fragile α) : Prop :=
  ∀ file deeds, Contract (·.At name file deeds) (·.At name file deeds) (fun
    | .ok _, d => d.At name file deeds
    | .error _, _ => False) x

variable {name lock : String}

theorem Silent.bind {β : Type} {x : Fragile α} {f : α → Fragile β} {file : Option ByteArray}
    {deeds : List Deed} {Q : Except MutateError β → Disk → Prop} (hx : Silent name x)
    (hdies : ∀ d, d.At name file deeds → C d)
    (hf : ∀ a, Contract (·.At name file deeds) C Q (f a)) :
    Contract (·.At name file deeds) C Q (x >>= f) := by
  have hfirst := (hx file deeds).consequence (fun _ h => h) hdies fun _ _ h => h
  exact hfirst.bind hf fun _ _ h => h.elim

theorem createDirAll_contract (hdies : ∀ d, P d → C d) (hpass : ∀ d n, P d → P (d.pass n)) :
    Contract P C (fun _ => P) createDirAll :=
  attempt_contract hpass hdies (fun _ h => h) fun _ h => h

theorem ignoring_createDirAll_silent :
    Silent name (createDirAll.ignoring : Fragile Unit) := by
  intro file deeds
  have hcreate : Contract (·.At name file deeds) (·.At name file deeds)
      (fun _ d => d.At name file deeds) createDirAll :=
    createDirAll_contract (fun _ h => h) fun _ _ h => h
  exact hcreate.ignoring fun _ _ h => h

theorem clock_silent : Silent name clock :=
  fun _ _ => operation_contract (fun _ _ h => h) (fun _ h => h) fun _ _ h => h

theorem isStale_silent : Silent name (isStale lock) := by
  refine fun _ _ => operation_contract (fun _ _ h => h) (fun _ h => h) ?_
  intro failure d h
  cases failure with
  | none => exact h
  | some _ => exact h

theorem writePid_silent (hlock : lock ≠ name) (pid : ProcId) : Silent name (writePid lock pid) := by
  refine fun _ _ => operation_contract (fun _ _ h => h) (fun _ h => h) ?_
  intro failure d h
  cases failure with
  | none => exact h.write hlock _
  | some _ => exact h.write hlock _

theorem removeStale_silent (hlock : isFileName lock = true → lock ≠ name) :
    Silent name (removeStale lock) := by
  refine fun _ _ => operation_contract (fun _ _ h => h) (fun _ h => h) ?_
  intro failure d h
  cases failure with
  | none =>
      by_cases hfile : isFileName lock = true
      · simpa only [if_pos hfile] using h.set (hlock hfile) _
      · simpa only [if_neg hfile] using h
  | some _ => exact h

theorem sleep_silent (hlock : isFileName lock = true → lock ≠ name) :
    Silent name (sleep lock) := by
  refine fun file deeds => .op (fun _ h => h) ?_
  intro m d h
  have hpass : (d.pass m.elapsed).At name file deeds := h
  by_cases hfile : isFileName lock = true
  · simp only [if_pos hfile]
    cases m.others with
    | none => exact hpass
    | some f => exact hpass.set (hlock hfile) f
  · simpa only [if_neg hfile] using hpass

theorem createNew_contract (hlock : isFileName lock = true → lock ≠ name)
    (file : Option ByteArray) :
    Contract (·.At name file []) (·.At name file []) (fun
      | .ok true, d => isFileName lock = true ∧ d.At name file [.locked]
      | _, d => d.At name file []) (createNew lock) := by
  refine attempt_contract (fun _ _ h => h) (fun _ h => h) (fun _ h => h) ?_
  intro d h
  by_cases hfile : isFileName lock = true
  · rw [if_pos hfile]
    cases d.files lock with
    | none => exact ⟨hfile, (h.write (hlock hfile) _).note _⟩
    | some _ => exact h
  · rw [if_neg hfile]
    by_cases hempty : lock = ""
    · rw [if_pos hempty]
      exact h
    · rw [if_neg hempty]
      exact h

/-- Taking the lock leaves the catalog file alone; the lock is a file then. -/
theorem acquire_contract (hlock : isFileName (lockName name) = true → lockName name ≠ name)
    (pid : ProcId)
    {file : Option ByteArray} (hdies : ∀ d deeds, .renamed ∉ deeds → d.At name file deeds → C d) :
    Contract (·.At name file []) C (fun
      | .ok (), d => isFileName (lockName name) = true ∧ d.At name file [.locked]
      | .error _, d => d.At name file []) (acquire name pid) := by
  have hwaits : ∀ d, d.At name file [] → C d := fun d => hdies d [] (by simp)
  have hholds : ∀ d, d.At name file [.locked] → C d := fun d => hdies d [.locked] (by simp)
  refine ignoring_createDirAll_silent.bind hwaits fun _ => ?_
  refine clock_silent.bind hwaits fun started => ?_
  refine .loop hwaits ?_
  refine ((createNew_contract hlock file).consequence (fun _ h => h) hwaits fun _ _ h => h).bind
    ?_ fun _ _ h => h
  intro created
  cases created with
  | true =>
      refine .assuming fun hfile => ?_
      refine (writePid_silent (hlock hfile) pid).bind hholds fun _ => ?_
      exact .pure fun _ h => ⟨hfile, h⟩
  | false =>
      apply isStale_silent.bind hwaits
      intro stale
      cases stale with
      | true =>
          refine (removeStale_silent hlock).bind hwaits fun _ => ?_
          exact .pure fun _ h => h
      | false =>
          refine clock_silent.bind hwaits fun now => ?_
          by_cases hlate : now - started ≥ lockTimeout
          · simp only [hlate, if_true]
            exact .fail fun _ h => h
          · simp only [hlate, if_false]
            refine (sleep_silent hlock).bind hwaits fun _ => ?_
            exact .pure fun _ h => h

theorem load_contract {json : JsonText} {file : Option ByteArray} {deeds : List Deed}
    (hdies : ∀ d, d.At name file deeds → C d) :
    Contract (·.At name file deeds) C (fun
      | .ok c, d => Catalog.load json (readFile file) = .ok c ∧ d.At name file deeds
      | .error _, d => d.At name file deeds) (load json name) := by
  have hread : Contract (·.At name file deeds) C (fun
      | .ok contents, d =>
          (contents = readFile file ∨ contents = .failed) ∧ d.At name file deeds
      | .error _, _ => False) (readAll name) := by
    apply operation_contract (fun _ _ h => h) hdies
    intro failure d h
    cases failure with
    | none => exact ⟨.inl (congrArg readFile h.1), h⟩
    | some _ => exact ⟨.inr rfl, h⟩
  refine hread.bind ?_ fun _ _ h => h.elim
  intro contents
  cases hload : Catalog.load json contents with
  | error e => exact .fail fun _ h => h.2
  | ok c =>
      refine .pure ?_
      rintro d ⟨rfl | rfl, h⟩
      · exact ⟨hload, h⟩
      · cases hload

/-- Saving fails before the renaming, or the catalog file is the new one. -/
theorem save_contract {json : JsonText} {file : Option ByteArray} {deeds : List Deed}
    (hfile : isFileName name = true) (pid : ProcId) (c : Catalog)
    (hdies : ∀ d, d.At name file deeds → C d) :
    Contract (·.At name file deeds) C (fun
      | .ok (), d => d.At name (some (c.saved json)) (.renamed :: deeds)
      | .error _, d => d.At name file deeds) (save json name pid c) := by
  have htemp := tempName_ne hfile pid
  refine (createDirAll_contract hdies fun _ _ h => h).bind (fun _ => ?_) fun _ _ h => h
  have hcreate : Contract (·.At name file deeds) C (fun _ d => d.At name file deeds)
      (createFile (tempName name pid)) := by
    refine attempt_contract (fun _ _ h => h) hdies (fun _ h => h) fun d h => ?_
    split
    · exact h.write htemp _
    · exact h
  refine hcreate.bind (fun _ => ?_) fun _ _ h => h
  have hwrite : Contract (·.At name file deeds) C (fun
      | .ok (), d => d.contents (tempName name pid) = some (c.saved json) ∧ d.At name file deeds
      | .error _, d => d.At name file deeds) (writeAll (tempName name pid) (c.saved json)) := by
    apply operation_contract (fun _ _ h => h) hdies
    intro failure d h
    cases failure with
    | none => exact ⟨contents_write_self, h.write htemp _⟩
    | some _ => exact h.write htemp _
  refine hwrite.bind (fun _ => ?_) fun _ _ h => h
  have hsync : Contract
      (fun d => d.contents (tempName name pid) = some (c.saved json) ∧ d.At name file deeds) C
      (fun
        | .ok (), d => d.contents (tempName name pid) = some (c.saved json) ∧ d.At name file deeds
        | .error _, d => d.At name file deeds) syncAll :=
    attempt_contract (fun _ _ h => h) (fun d h => hdies d h.2) (fun _ h => h.2) fun _ h => h
  refine hsync.bind (fun _ => ?_) fun _ _ h => h
  apply attempt_contract (fun _ _ h => h) (fun d h => hdies d h.2) (fun _ h => h.2)
  rintro d ⟨hbytes, h⟩
  cases hfound : d.files (tempName name pid) with
  | none => exact h
  | some f =>
      have hf : f.contents = c.saved json := by
        simpa only [Disk.contents, hfound, Option.map_some, Option.some_inj] using hbytes
      have hdeeds : Deed.renamed :: d.deeds = .renamed :: deeds := congrArg _ h.2
      refine ⟨?_, hdeeds⟩
      change ((d.set name (some f)).set (tempName name pid) none).contents name = _
      rw [contents_set_of_ne htemp]
      simp only [Disk.contents, Disk.set, Function.update_self, Option.map_some, hf]

end Contracts

section Whole

open Crashing (Contract)

variable {T : Type} {json : JsonText} {name : String} {file : Option ByteArray}
  {update : Update T} {d : Disk}

theorem Disk.At.intact {deeds : List Deed} (h : d.At name file deeds) (hdeeds : .renamed ∉ deeds)
    {result : Option (Except MutateError T)} (hresult : ∀ out, result ≠ some (.ok out))
    (hunlocked : result.isSome → .locked ∈ deeds → .keptLock ∉ deeds →
      d.files (lockName name) = none) :
    Intact json name file update d result where
  old _ := h.1
  new hmem := absurd (h.2 ▸ hmem) hdeeds
  returned out heq := absurd heq (hresult out)
  failed _ _ := h.1
  unlocked hsome hlocked hkept := hunlocked hsome (h.2 ▸ hlocked) (h.2 ▸ hkept)

theorem Disk.Replaced.intact {out : T} (h : d.Replaced json name file update out)
    {result : Option (Except MutateError T)} (hresult : result = some (.ok out) ∨ result = none)
    (hunlocked : result.isSome → .keptLock ∉ d.deeds → d.files (lockName name) = none) :
    Intact json name file update d result where
  old hmem := absurd h.2 hmem
  new _ := ⟨out, h⟩
  returned out' heq := by
    obtain rfl | rfl := hresult
    · cases heq
      exact h
    · cases heq
  failed e heq := by
    obtain rfl | rfl := hresult
    · cases heq
    · cases heq
  unlocked hsome _ hkept := hunlocked hsome hkept

theorem Disk.Replaced.set {out : T} (h : d.Replaced json name file update out) {other : String}
    (hne : other ≠ name) {f : Option File} :
    (d.set other f).Replaced json name file update out := by
  obtain ⟨⟨c, c', hload, hupdate, hbytes⟩, hmem⟩ := h
  exact ⟨⟨c, c', hload, hupdate, (contents_set_of_ne hne).trans hbytes⟩, hmem⟩

theorem Disk.Replaced.note {out : T} (h : d.Replaced json name file update out) (deed : Deed) :
    (d.note deed).Replaced json name file update out :=
  ⟨h.1, List.mem_cons_of_mem _ h.2⟩

/-- The lock file is removed, or it stays and this is noted. -/
theorem dropLock_contract {P Q : Disk → Prop} {C : Disk → Prop} {lock : String}
    (hfile : isFileName lock = true) (hpass : ∀ d n, P d → P (d.pass n)) (hdies : ∀ d, P d → C d)
    (hremoved : ∀ d, P d → Q (d.set lock none)) (hkept : ∀ d, P d → Q (d.note .keptLock)) :
    Contract P C (fun _ => Q) (dropLock lock) := by
  apply operation_contract hpass hdies
  intro failure d h
  cases failure with
  | none => simpa only [if_pos hfile] using hremoved d h
  | some _ => exact hkept d h

theorem files_set_self {f : Option File} : (d.set name f).files name = f :=
  Function.update_self ..

/-- Whenever the call ends, by returning or by dying, the catalog file is intact. -/
theorem mutate_contract (json : JsonText) (update : Update T)
    (hlock : isFileName (lockName name) = true → lockName name ≠ name) (pid : ProcId) :
    Contract (·.At name file []) (fun d => Intact json name file update d none)
      (fun r d => Intact json name file update d (some r)) (mutate json name pid update) := by
  have hdies : ∀ d deeds, .renamed ∉ deeds → d.At name file deeds →
      Intact json name file update d none :=
    fun d deeds hdeeds h => h.intact hdeeds nofun nofun
  have hheld : ∀ d, d.At name file [.locked] → Intact json name file update d none :=
    fun d => hdies d [.locked] (by simp)
  have hacquire : Contract (·.At name file []) _ _ (acquire name pid) :=
    acquire_contract hlock pid hdies
  refine hacquire.bind ?_ fun e d h => h.intact (by simp) nofun fun _ hmem => by simp at hmem
  intro _
  refine .assuming fun hfile => ?_
  refine .thenAlways (Q := fun
    | .ok out, d => d.Replaced json name file update out
    | .error _, d => d.At name file [.locked]) ?_ ?_
  · refine (load_contract hheld).bind (fun c => ?_) fun _ _ h => h
    refine .assuming fun hload => ?_
    cases hupdate : update c with
    | error reason => exact Contract.fail fun _ h => h
    | ok r =>
        obtain ⟨c', out⟩ := r
        refine (save_contract (isFileName_of_lockName hfile) pid c' hheld).bind
          (fun _ => .pure ?_) fun _ _ h => h
        intro d h
        exact ⟨⟨c, c', hload, hupdate, h.1⟩, by simp [h.2]⟩
  · intro r
    cases r with
    | error e =>
        refine dropLock_contract hfile (fun _ _ h => h) hheld ?_ ?_
        · intro d h
          exact (h.set (hlock hfile) none).intact (by simp) nofun fun _ _ _ => files_set_self
        · intro d h
          exact (h.note .keptLock).intact (by simp) nofun fun _ _ hkept => by simp at hkept
    | ok out =>
        refine dropLock_contract hfile (fun _ _ h => h) ?_ ?_ ?_
        · exact fun d h => h.intact (.inr rfl) nofun
        · exact fun d h => (h.set (hlock hfile)).intact (.inl rfl) fun _ _ => files_set_self
        · exact fun d h => (h.note .keptLock).intact (.inl rfl) fun _ hkept => by
            simp [Disk.note] at hkept

end Whole

/-- An operation that succeeds at once. -/
private def smooth : Meeting where
  elapsed := 0
  failure := none
  others := none

/-- The catalog file is taken for a stale lock file and removed. -/
private theorem not_intact_of_lockName_eq {json : JsonText} {name : String} {pid : ProcId}
    (hfile : isFileName (lockName name) = true) (hlock : lockName name = name) :
    ∃ files now meetings, ¬Intact json name ((Disk.start files now).contents name)
      (fun c => .ok (c, ()))
      (mutate json name pid (fun c => .ok (c, ())) meetings (Disk.start files now)).1
      ((mutate json name pid (fun c => .ok (c, ())) meetings (Disk.start files now)).2.map
        Prod.fst) := by
  let start := Disk.start (fun _ => some { contents := .empty, modified := 0 }) (staleAge + 1)
  refine ⟨start.files, start.now, List.replicate 5 smooth, fun h => ?_⟩
  have hrun : mutate json name pid (fun c => .ok (c, ())) (List.replicate 5 smooth) start =
      (start.set (lockName name) none, none) := by
    simp only [mutate, acquire, createNew, removeStale, hfile, if_true]
    rfl
  have hbefore : Intact json name (start.contents name) _
      (mutate json name pid (fun c => .ok (c, ())) (List.replicate 5 smooth) start).1 _ := h
  rw [hrun, hlock] at hbefore
  have hold := hbefore.old (by simp [start, Disk.set, Disk.start])
  simp [start, Disk.contents, Disk.set, Disk.start] at hold

/-- The catalog file is intact after every failure and at every moment if and only if
its extension is not that of the lock file. The name `..lock` is safe, for its lock is
the directory above, which nobody can take. -/
theorem mutate_intact_iff (json : JsonText) (name : String) (pid : ProcId) :
    (∀ (T : Type) (update : Update T) (files : String → Option File) (now : Nat)
      (meetings : List Meeting),
      Intact json name ((Disk.start files now).contents name) update
        (mutate json name pid update meetings (Disk.start files now)).1
        ((mutate json name pid update meetings (Disk.start files now)).2.map Prod.fst)) ↔
      extension name ≠ some "lock" ∨ name = "..lock" := by
  rw [← lockName_ne_iff]
  constructor
  · intro h hfile hlock
    obtain ⟨files, now, meetings, hbroken⟩ :=
      not_intact_of_lockName_eq hfile hlock
    exact hbroken (h Unit _ files now meetings)
  · intro hlock T update files now meetings
    have hends := mutate_contract json update hlock pid meetings
      (Disk.start files now) ⟨rfl, rfl⟩
    revert hends
    cases mutate json name pid update meetings (Disk.start files now) with
    | mk d out =>
        cases out with
        | none => exact id
        | some r => exact id

/-- Reading the text of an empty catalog and that of a process id. -/
private def twoTexts : JsonText where
  print _ := ""
  printPretty _ := ""
  parse text :=
    if text = "\x7b\x7d" then some (.object []) else if text = "7" then some (.int 7) else none

/-- A directory with an old and valid catalog file of that name. -/
private def onlyCatalog (name : String) : Disk :=
  .start (fun other =>
    if other = name then some { contents := "\x7b\x7d".toUTF8, modified := 0 } else none)
    (seconds 100)

/-- A call on such a file returns an error, and the catalog is gone. -/
theorem mutate_removes_catalog :
    ∃ d, mutate twoTexts "data.lock" 7 (fun c => .ok (c, ())) (List.replicate 9 smooth)
        (onlyCatalog "data.lock") = (d, some (.error (.load .parsing), [])) ∧
      ((onlyCatalog "data.lock").contents "data.lock").isSome ∧ d.contents "data.lock" = none ∧
      ¬Intact twoTexts "data.lock" ((onlyCatalog "data.lock").contents "data.lock")
        (fun c => .ok (c, ())) d (some (.error (.load .parsing))) := by
  refine ⟨_, rfl, rfl, rfl, ?_⟩
  intro h
  cases h.failed _ rfl

end Mutate

end CeQuery
