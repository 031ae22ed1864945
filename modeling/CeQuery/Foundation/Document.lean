import CeQuery.Foundation.FloatOrder

/-!
# JSON documents

A document is the tree a JSON text denotes. Integers have any size; a number
with a point or an exponent is a finite binary64 number, so a document cannot
hold an infinity or a NaN.

Texts are printed and parsed by a library that is not part of this development.
`JsonText` names its operations, and `JsonText.Carries` is what is used of them:
a text that was printed is parsed back unless it nests too deeply, in which case
it is refused.
-/

namespace CeQuery

/-- A binary64 number that is neither infinite nor NaN. -/
structure FiniteF64 where
  val : F64
  finite : val.isFinite = true
  deriving DecidableEq

inductive Document where
  | null
  | bool (b : Bool)
  | int (n : Int)
  | float (x : FiniteF64)
  | string (s : String)
  | array (items : List Document)
  | object (members : List (String × Document))

namespace Document

mutual

/-- How many arrays and objects are nested in one another. -/
def depth : Document → Nat
  | .array items => depthItems items + 1
  | .object members => depthMembers members + 1
  | _ => 0

def depthItems : List Document → Nat
  | [] => 0
  | d :: ds => max (depth d) (depthItems ds)

def depthMembers : List (String × Document) → Nat
  | [] => 0
  | (_, d) :: ms => max (depth d) (depthMembers ms)

end

theorem depthItems_le_iff {items : List Document} {n : Nat} :
    depthItems items ≤ n ↔ ∀ d ∈ items, d.depth ≤ n := by
  induction items with
  | nil => simp [depthItems]
  | cons d ds ih => rw [depthItems, Nat.max_le, ih, List.forall_mem_cons]

theorem depthMembers_le_iff {members : List (String × Document)} {n : Nat} :
    depthMembers members ≤ n ↔ ∀ m ∈ members, m.2.depth ≤ n := by
  induction members with
  | nil => simp [depthMembers]
  | cons m ms ih => rw [depthMembers, Nat.max_le, ih, List.forall_mem_cons]

theorem depth_array_le_iff {items : List Document} {n : Nat} :
    (array items).depth ≤ n + 1 ↔ ∀ d ∈ items, d.depth ≤ n := by
  rw [depth, Nat.add_le_add_iff_right, depthItems_le_iff]

theorem depth_object_le_iff {members : List (String × Document)} {n : Nat} :
    (object members).depth ≤ n + 1 ↔ ∀ m ∈ members, m.2.depth ≤ n := by
  rw [depth, Nat.add_le_add_iff_right, depthMembers_le_iff]

/-- Look a member up. A name that occurs twice is an error, which is different
from a name that does not occur. -/
def member (name : String) (members : List (String × Document)) : Option (Option Document) :=
  match members.filter (·.1 = name) with
  | [] => some none
  | [m] => some (some m.2)
  | _ => none

private theorem filter_of_not_mem {name : String} {members : List (String × Document)}
    (h : name ∉ members.map (·.1)) : members.filter (·.1 = name) = [] := by
  rw [List.filter_eq_nil_iff]
  intro m hm
  simpa using fun heq : m.1 = name => h (heq ▸ List.mem_map_of_mem hm)

theorem member_cons_of_ne {name : String} {m : String × Document}
    {rest : List (String × Document)} (h : m.1 ≠ name) :
    member name (m :: rest) = member name rest := by
  rw [member, List.filter_cons_of_neg (by simpa using h), member]

theorem member_cons_self {name : String} {d : Document} {rest : List (String × Document)}
    (h : name ∉ rest.map (·.1)) : member name ((name, d) :: rest) = some (some d) := by
  rw [member, List.filter_cons_of_pos (by simp), filter_of_not_mem h]

end Document

/-- The texts deeper than this are refused by the parser. -/
def maxDepth : Nat := 127

/-- Printing and parsing of documents. -/
structure JsonText where
  print : Document → String
  printPretty : Document → String
  parse : String → Option Document

/-- Parse bytes, which must be UTF-8. -/
def JsonText.parseBytes (json : JsonText) (bytes : ByteArray) : Option Document :=
  (String.fromUTF8? bytes).bind json.parse

theorem fromUTF8?_toUTF8 (text : String) : String.fromUTF8? text.toUTF8 = some text :=
  dif_pos text.isValidUTF8

theorem JsonText.parseBytes_toUTF8 (json : JsonText) (text : String) :
    json.parseBytes text.toUTF8 = json.parse text := by
  rw [parseBytes, fromUTF8?_toUTF8, Option.bind_some]

/-- The parser reads back what `print` makes of the document, unless it is too
deep. -/
structure JsonText.Carries (json : JsonText) (print : Document → String) (d : Document) :
    Prop where
  parse_print : d.depth ≤ maxDepth → json.parse (print d) = some d
  too_deep : maxDepth < d.depth → json.parse (print d) = none

/-- A document that is not too deep is carried if its text is read back. -/
theorem JsonText.carries_of_depth {json : JsonText} {print : Document → String} {d : Document}
    (hdepth : d.depth ≤ maxDepth) (hread : json.parse (print d) = some d) :
    json.Carries print d where
  parse_print _ := hread
  too_deep hdeep := absurd hdepth (Nat.not_le.mpr hdeep)

end CeQuery
