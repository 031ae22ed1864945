import CeQuery.Foundation.Document
import CeQuery.Foundation.OrderedMap
import CeQuery.Foundation.Text

/-!
# JSON cells and the two ways of reading a number out of one

A cell is a JSON value as the `serde_json` crate stores it: a number is kept as
an unsigned integer, a negative integer or a finite binary64 number, so that a
NaN or an infinity can only come out of a *string* cell.

`asF64` reads a cell for comparisons, `MIN`, `MAX`, `AVG` and shard statistics.
`asNumber` reads it for `SUM` and keeps integers exact. Both accept numeric
strings, with different readers.
-/

namespace CeQuery

/-- Conversion of an integer to the nearest binary64 number (`as f64`). -/
def intToF64 (n : Int) : F64 :=
  Float.ofModel (Float.Model.ofInt n)

def FiniteF64.one : FiniteF64 :=
  ⟨intToF64 1, by decide⟩

/-- The three representations of a JSON number. -/
inductive Number where
  | posInt (n : U64)
  | negInt (n : BoundedInt (-2 ^ 63) (-1))
  | float (x : FiniteF64)
  deriving DecidableEq

namespace Number

def asI64 : Number → Option I64
  | posInt n => BoundedInt.narrow n.val
  | negInt n => some (n.widen (by decide) (by decide))
  | float _ => none

def asU64 : Number → Option U64
  | posInt n => some n
  | negInt _ => none
  | float _ => none

def asF64 : Number → Option F64
  | posInt n => some (intToF64 n.val)
  | negInt n => some (intToF64 n.val)
  | float x => some x.val

end Number

/-- A JSON value. The members of an object are listed in key order. -/
inductive Value where
  | null
  | bool (b : Bool)
  | number (n : Number)
  | string (s : String)
  | array (items : List Value)
  | object (members : List (String × Value))

namespace Value

/-- The value of an unsigned integer. -/
def ofU64 (n : U64) : Value :=
  number (.posInt n)

/-- The value of a binary64 number; one that JSON cannot express becomes null. -/
def ofF64 (x : F64) : Value :=
  if h : x.isFinite = true then number (.float ⟨x, h⟩) else null

/-- Neither an array nor an object. -/
def IsScalar : Value → Prop
  | array _ => False
  | object _ => False
  | _ => True

end Value

/-- One record of a dataset: its cells by column name. -/
abbrev Row : Type := BTreeMap String Value

/-- What the program uses of the `serde_json` crate to turn numbers and cells
into other forms. -/
structure SerdeJson where
  /-- Conversion of a 128-bit integer, which not every one of them has. -/
  ofI128 : I128 → Option Value
  /-- The compact rendering of a value. -/
  toString : Value → String

/-- The integers that fit a signed or an unsigned 64-bit number. -/
def JsonInteger (n : Int) : Prop :=
  -2 ^ 63 ≤ n ∧ n ≤ 2 ^ 64 - 1

instance (n : Int) : Decidable (JsonInteger n) :=
  inferInstanceAs (Decidable (_ ∧ _))

namespace SerdeJson

/-- Converting an `i128` to a value succeeds exactly for the JSON integers. -/
def ConvertsI128 (json : SerdeJson) : Prop :=
  ∀ n : I128, (json.ofI128 n).isSome = true ↔ JsonInteger n.val

/-- An instance to evaluate the model with. It renders the scalar cells that
need neither a decimal point nor an escape. -/
def sample : SerdeJson where
  ofI128 n :=
    if h : 0 ≤ n.val ∧ n.val ≤ 2 ^ 64 - 1 then some (.number (.posInt ⟨n.val, h.1, h.2⟩))
    else if h : -2 ^ 63 ≤ n.val ∧ n.val ≤ -1 then some (.number (.negInt ⟨n.val, h.1, h.2⟩))
    else none
  toString
    | .null => "null"
    | .bool b => if b then "true" else "false"
    | .number (.posInt n) => n.val.repr
    | .number (.negInt n) => n.val.repr
    | .string s => "\"" ++ s ++ "\""
    | _ => ""

theorem sample_convertsI128 : sample.ConvertsI128 := by
  intro n
  simp only [sample, JsonInteger]
  split
  · simp
    omega
  · split <;> simp <;> omega

end SerdeJson

/-- A parsed numeric cell. -/
inductive Num where
  | int (n : I128)
  | float (x : F64)

/-- Parse a text as an `i128`. -/
def parseI128 (s : List Char) : Option I128 :=
  (Text.signed s).bind BoundedInt.narrow

/-- Total order over JSON values for comparison: numbers by value, strings
lexically, booleans, null. Values of different types are not ordered. -/
def jsonCmp : Value → Value → Option Ordering
  | .null, .null => some .eq
  | .bool x, .bool y => some (compare x y)
  | .number m, .number n => do
      let x ← m.asF64
      let y ← n.asF64
      F64.partialCmp x y
  | .string x, .string y => some (compare x y)
  | _, _ => none

/-- Coerce a cell to `f64` if it is a number or a numeric string. -/
def asF64 : Value → Option F64
  | .number n => n.asF64
  | .string s => Decimal.parse s.toList
  | _ => none

/-- Coerce a cell to a `Num`: an exact integer when it is an integral number or
a numeric string that parses as `i128`, otherwise a float. -/
def asNumber : Value → Option Num
  | .number n =>
      match n.asI64 with
      | some i => some (.int (i.widen (by decide) (by decide)))
      | none =>
          match n.asU64 with
          | some u => some (.int (u.widen I128.zero.lo_le (by decide)))
          | none => n.asF64.map .float
  | .string s =>
      let t := Text.trim s.toList
      match parseI128 t with
      | some i => some (.int i)
      | none => (Decimal.parse t).map .float
  | _ => none

end CeQuery
