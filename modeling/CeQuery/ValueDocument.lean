import CeQuery.Foundation.Codec
import CeQuery.Value

/-!
# Cells and rows as JSON documents

A cell is written as the document it stands for. Reading a document as a cell
stores the members of objects in key order, of several members of one name the
last one, and turns integers that fit no 64-bit type into floats. Cells that come
from a document therefore have their members in order (`Value.Ordered`), and such
cells are read back as they were written.
-/

namespace CeQuery

namespace Number

def toDocument : Number → Document
  | posInt n => .int n.val
  | negInt n => .int n.val
  | float x => .float x

/-- The number an integer literal is read as; nothing when it is out of range. -/
def ofInt (n : Int) : Option Number :=
  match (BoundedInt.narrow n : Option U64) with
  | some n => some (.posInt n)
  | none =>
      match (BoundedInt.narrow n : Option (BoundedInt (-2 ^ 63) (-1))) with
      | some n => some (.negInt n)
      | none => if h : (intToF64 n).isFinite = true then some (.float ⟨_, h⟩) else none

theorem ofInt_posInt (n : U64) : ofInt n.val = some (.posInt n) := by
  rw [ofInt, BoundedInt.narrow_of_range n.lo_le n.le_hi]

theorem ofInt_negInt (n : BoundedInt (-2 ^ 63) (-1)) : ofInt n.val = some (.negInt n) := by
  have hunsigned : (BoundedInt.narrow n.val : Option U64) = none := by
    have := n.le_hi
    apply dif_neg
    omega
  rw [ofInt, hunsigned, BoundedInt.narrow_of_range n.lo_le n.le_hi]

end Number

/-- The members of an object as the map type of the crate stores them. -/
def sortMembers (members : List (String × α)) : List (String × α) :=
  (Std.ExtTreeMap.ofList members compare).toList

namespace Value

mutual

def toDocument : Value → Document
  | .null => .null
  | .bool b => .bool b
  | .number n => n.toDocument
  | .string s => .string s
  | .array items => .array (toItems items)
  | .object members => .object (toMembers members)

def toItems : List Value → List Document
  | [] => []
  | v :: vs => toDocument v :: toItems vs

def toMembers : List (String × Value) → List (String × Document)
  | [] => []
  | (k, v) :: ms => (k, toDocument v) :: toMembers ms

end

mutual

def ofDocument : Document → Option Value
  | .null => some .null
  | .bool b => some (.bool b)
  | .int n => (Number.ofInt n).map .number
  | .float x => some (.number (.float x))
  | .string s => some (.string s)
  | .array items => (ofItems items).map .array
  | .object members => (ofMembers members).map fun ms => .object (sortMembers ms)

def ofItems : List Document → Option (List Value)
  | [] => some []
  | d :: ds => (ofDocument d).bind fun v => (ofItems ds).map fun vs => v :: vs

def ofMembers : List (String × Document) → Option (List (String × Value))
  | [] => some []
  | (k, d) :: ms => (ofDocument d).bind fun v => (ofMembers ms).map fun vs => (k, v) :: vs

end

mutual

/-- Every object in the value lists its members in key order. -/
def Ordered : Value → Prop
  | .array items => OrderedItems items
  | .object members =>
      members.Pairwise (fun a b => compare a.1 b.1 = .lt) ∧ OrderedMembers members
  | _ => True

def OrderedItems : List Value → Prop
  | [] => True
  | v :: vs => Ordered v ∧ OrderedItems vs

def OrderedMembers : List (String × Value) → Prop
  | [] => True
  | (_, v) :: ms => Ordered v ∧ OrderedMembers ms

end

/-! ## Reading back -/

/-- Members in key order are stored as they are. -/
theorem sortMembers_of_ordered {members : List (String × α)}
    (h : members.Pairwise fun a b => compare a.1 b.1 = .lt) : sortMembers members = members :=
  BTreeMap.toList_ofList h

theorem sortMembers_ordered (members : List (String × α)) :
    (sortMembers members).Pairwise fun a b => compare a.1 b.1 = .lt :=
  Std.ExtTreeMap.ordered_keys_toList

mutual

theorem ofDocument_toDocument : ∀ v : Value, v.Ordered → ofDocument (toDocument v) = some v
  | .null, _ => rfl
  | .bool _, _ => rfl
  | .number (.posInt n), _ => by
      rw [toDocument, Number.toDocument, ofDocument, Number.ofInt_posInt, Option.map_some]
  | .number (.negInt n), _ => by
      rw [toDocument, Number.toDocument, ofDocument, Number.ofInt_negInt, Option.map_some]
  | .number (.float x), _ => rfl
  | .string _, _ => rfl
  | .array items, h => by
      rw [Ordered] at h
      rw [toDocument, ofDocument, ofItems_toItems items h, Option.map_some]
  | .object members, h => by
      rw [Ordered] at h
      rw [toDocument, ofDocument, ofMembers_toMembers members h.2, Option.map_some,
        sortMembers_of_ordered h.1]

theorem ofItems_toItems : ∀ vs : List Value, OrderedItems vs → ofItems (toItems vs) = some vs
  | [], _ => rfl
  | v :: vs, h => by
      rw [OrderedItems] at h
      rw [toItems, ofItems, ofDocument_toDocument v h.1, ofItems_toItems vs h.2, Option.bind_some,
        Option.map_some]

theorem ofMembers_toMembers : ∀ ms : List (String × Value), OrderedMembers ms →
    ofMembers (toMembers ms) = some ms
  | [], _ => rfl
  | (k, v) :: ms, h => by
      rw [OrderedMembers] at h
      rw [toMembers, ofMembers, ofDocument_toDocument v h.1, ofMembers_toMembers ms h.2,
        Option.bind_some, Option.map_some]

end

/-! ## Values that were read -/

theorem orderedMembers_iff {ms : List (String × Value)} :
    OrderedMembers ms ↔ ∀ m ∈ ms, m.2.Ordered := by
  induction ms with
  | nil => simp [OrderedMembers]
  | cons m ms ih => simp [OrderedMembers, ih]

/-- A stored member is one of the members. -/
theorem mem_of_mem_sortMembers {members : List (String × α)} {m : String × α}
    (h : m ∈ sortMembers members) : m ∈ members :=
  BTreeMap.mem_of_getElem?_ofList (Std.ExtTreeMap.mem_toList_iff_getElem?_eq_some.mp h)

mutual

/-- What is read from a document has its members in order. -/
theorem ofDocument_ordered : ∀ {d : Document} {v : Value}, ofDocument d = some v → v.Ordered
  | .null, v, h => by
      cases h
      trivial
  | .bool _, v, h => by
      cases h
      trivial
  | .int n, v, h => by
      obtain ⟨num, _, rfl⟩ := Option.map_eq_some_iff.mp h
      trivial
  | .float _, v, h => by
      cases h
      trivial
  | .string _, v, h => by
      cases h
      trivial
  | .array items, v, h => by
      obtain ⟨vs, hvs, rfl⟩ := Option.map_eq_some_iff.mp h
      exact ofItems_ordered hvs
  | .object members, v, h => by
      obtain ⟨ms, hms, rfl⟩ := Option.map_eq_some_iff.mp h
      refine ⟨sortMembers_ordered ms, orderedMembers_iff.mpr ?_⟩
      intro m hm
      exact orderedMembers_iff.mp (ofMembers_ordered hms) m (mem_of_mem_sortMembers hm)

theorem ofItems_ordered : ∀ {ds : List Document} {vs : List Value}, ofItems ds = some vs →
    OrderedItems vs
  | [], vs, h => by
      cases h
      trivial
  | d :: ds, vs, h => by
      obtain ⟨v, hv, hrest⟩ := Option.bind_eq_some_iff.mp h
      obtain ⟨vs, hvs, rfl⟩ := Option.map_eq_some_iff.mp hrest
      exact ⟨ofDocument_ordered hv, ofItems_ordered hvs⟩

theorem ofMembers_ordered : ∀ {ms : List (String × Document)} {vs : List (String × Value)},
    ofMembers ms = some vs → OrderedMembers vs
  | [], vs, h => by
      cases h
      trivial
  | (k, d) :: ms, vs, h => by
      obtain ⟨v, hv, hrest⟩ := Option.bind_eq_some_iff.mp h
      obtain ⟨vs, hvs, rfl⟩ := Option.map_eq_some_iff.mp hrest
      exact ⟨ofDocument_ordered hv, ofMembers_ordered hvs⟩

end

end Value

end CeQuery
