import CeQuery.Foundation.BoundedInt
import CeQuery.Foundation.Document
import CeQuery.Foundation.OrderedMap
import Mathlib.Data.List.Forall2

/-!
# Reading back what was written as a document

A codec writes the values of a type as documents and reads documents as values
of the type. Not every value survives: an infinite number is written as null.
`Codec.Keeps` says of one value that it is read back, and each way of building
codecs comes with the exact condition under which it keeps a value.

Records are written as objects, one member for each field in a fixed order.
They are read in any order, unknown members are skipped, and a field may have a
value for the case that its member is missing. A record may also be given as the
array of its fields.
-/

namespace CeQuery

/-- A pair of a writer and a reader. -/
structure Codec (α : Type u) where
  encode : α → Document
  decode : Document → Option α

namespace Codec

variable {α : Type u} {β : Type v}

/-- The value is read back as it was written. -/
def Keeps (c : Codec α) (a : α) : Prop :=
  c.decode (c.encode a) = some a

/-- Documents of all values nest at most this deep. -/
def DepthLe (c : Codec α) (n : Nat) : Prop :=
  ∀ a, (c.encode a).depth ≤ n

theorem DepthLe.mono {c : Codec α} {m n : Nat} (h : c.DepthLe m) (hmn : m ≤ n) : c.DepthLe n :=
  fun a => Nat.le_trans (h a) hmn

/-! ## Scalars -/

def string : Codec String where
  encode := .string
  decode
    | .string s => some s
    | _ => none

theorem string_keeps (s : String) : string.Keeps s := rfl

theorem string_depth : string.DepthLe 0 := fun _ => Nat.le_refl 0

/-- Integers of a bounded type; other integers and all floats are refused. -/
def boundedInt (lo hi : Int) : Codec (BoundedInt lo hi) where
  encode n := .int n.val
  decode
    | .int n => BoundedInt.narrow n
    | _ => none

theorem boundedInt_keeps {lo hi : Int} (n : BoundedInt lo hi) : (boundedInt lo hi).Keeps n :=
  BoundedInt.narrow_of_range n.lo_le n.le_hi

theorem boundedInt_depth {lo hi : Int} : (boundedInt lo hi).DepthLe 0 := fun _ => Nat.le_refl 0

/-- Binary64 numbers. An infinity or a NaN is written as null, and null is not a
number. An integer is read as the nearest number unless that is infinite. -/
def float : Codec F64 where
  encode x := if h : x.isFinite = true then .float ⟨x, h⟩ else .null
  decode
    | .float x => some x.val
    | .int n =>
        let x : F64 := Float.ofModel (Float.Model.ofInt n)
        if x.isFinite then some x else none
    | _ => none

theorem float_keeps_iff {x : F64} : float.Keeps x ↔ x.isFinite = true := by
  rw [Keeps, float]
  by_cases h : x.isFinite = true <;> simp [h]

theorem float_encode_ne_null {x : F64} : float.encode x ≠ .null ↔ x.isFinite = true := by
  rw [float]
  by_cases h : x.isFinite = true <;> simp [h]

theorem float_depth : float.DepthLe 0 := by
  intro x
  rw [float]
  by_cases h : x.isFinite = true <;> simp [h, Document.depth]

/-! ## Containers -/

def option (c : Codec α) : Codec (Option α) where
  encode
    | none => .null
    | some a => c.encode a
  decode
    | .null => some none
    | d => (c.decode d).map some

theorem option_keeps_none (c : Codec α) : c.option.Keeps none := rfl

theorem option_keeps_some_iff {c : Codec α} {a : α} :
    c.option.Keeps (some a) ↔ c.encode a ≠ .null ∧ c.Keeps a := by
  unfold Keeps option
  simp only
  split
  · rename_i heq
    simp [heq]
  · rename_i hne
    simpa using fun _ => hne

theorem option_depth {c : Codec α} {n : Nat} (h : c.DepthLe n) : c.option.DepthLe n := by
  intro a
  cases a with
  | none => exact Nat.zero_le n
  | some a => exact h a

/-- Items that are read one by one each have an item read from them. -/
theorem exists_mem_of_forall₂ {R : α → β → Prop} {as : List α} {bs : List β}
    (h : List.Forall₂ R as bs) {a : α} (ha : a ∈ as) : ∃ b ∈ bs, R a b := by
  induction h with
  | nil => cases ha
  | cons hab _ ih =>
      rcases List.mem_cons.mp ha with rfl | ha
      · exact ⟨_, List.mem_cons_self, hab⟩
      · obtain ⟨b, hb, hR⟩ := ih ha
        exact ⟨b, List.mem_cons_of_mem _ hb, hR⟩

def list (c : Codec α) : Codec (List α) where
  encode as := .array (as.map c.encode)
  decode
    | .array items => items.mapM c.decode
    | _ => none

/-- Reading a list succeeds exactly if reading its items does, one by one. -/
theorem mapM_eq_some_iff {γ : Type w} {f : α → Option γ} {as : List α} {bs : List γ} :
    as.mapM f = some bs ↔ List.Forall₂ (fun a b => f a = some b) as bs := by
  induction as generalizing bs with
  | nil => simp [eq_comm]
  | cons a as ih =>
      rw [List.mapM_cons, List.forall₂_cons_left_iff]
      cases ha : f a with
      | none => simp
      | some b =>
          cases has : as.mapM f with
          | none =>
              simp only [has] at ih
              simp [← ih]
          | some bs' =>
              have hunique :
                  ∀ bs'', List.Forall₂ (fun a b => f a = some b) as bs'' ↔ bs'' = bs' := by
                intro bs''
                rw [← ih, has, Option.some.injEq, eq_comm]
              simp [hunique, eq_comm]

theorem list_keeps_iff {c : Codec α} {as : List α} :
    c.list.Keeps as ↔ ∀ a ∈ as, c.Keeps a := by
  change (as.map c.encode).mapM c.decode = some as ↔ _
  rw [mapM_eq_some_iff, List.forall₂_map_left_iff, List.forall₂_same]
  rfl

theorem list_depth {c : Codec α} {n : Nat} (h : c.DepthLe n) : c.list.DepthLe (n + 1) := by
  intro as
  apply Document.depth_array_le_iff.mpr
  intro d hd
  obtain ⟨a, _, rfl⟩ := List.mem_map.mp hd
  exact h a

/-- Pairs, as arrays of length two. -/
def pair (c : Codec α) (c' : Codec β) : Codec (α × β) where
  encode p := .array [c.encode p.1, c'.encode p.2]
  decode
    | .array [d, d'] => (c.decode d).bind fun a => (c'.decode d').map fun b => (a, b)
    | _ => none

theorem pair_keeps_iff {c : Codec α} {c' : Codec β} {p : α × β} :
    (c.pair c').Keeps p ↔ c.Keeps p.1 ∧ c'.Keeps p.2 := by
  obtain ⟨a, b⟩ := p
  change ((c.decode (c.encode a)).bind fun a => (c'.decode (c'.encode b)).map fun b => (a, b)) =
    some (a, b) ↔ c.decode (c.encode a) = some a ∧ c'.decode (c'.encode b) = some b
  cases c.decode (c.encode a) <;> cases c'.decode (c'.encode b) <;> simp

theorem pair_depth {c : Codec α} {c' : Codec β} {n : Nat} (h : c.DepthLe n) (h' : c'.DepthLe n) :
    (c.pair c').DepthLe (n + 1) := by
  intro p
  apply Document.depth_array_le_iff.mpr
  simpa using ⟨h p.1, h' p.2⟩

/-- Maps with text keys, as objects. Of several members of one name the last one
counts. -/
def map (c : Codec α) : Codec (BTreeMap String α) where
  encode m := .object (m.toList.map fun e => (e.1, c.encode e.2))
  decode
    | .object members =>
        (members.mapM fun m => (c.decode m.2).map fun a => (m.1, a)).map fun entries =>
          Std.ExtTreeMap.ofList entries compare
    | _ => none

/-- A map is rebuilt exactly if what its entries are read as are these entries. -/
private theorem rebuilt_iff {κ : Type v} [Ord κ] [Std.TransOrd κ] [Std.LawfulEqOrd κ] [BEq κ]
    [Std.LawfulBEqOrd κ] {c : Codec α} {m : BTreeMap κ α} {entries : Option (List (κ × α))}
    (hread : ∀ es, entries = some es ↔
      List.Forall₂ (fun e e' => e.1 = e'.1 ∧ c.decode (c.encode e.2) = some e'.2) m.toList es) :
    (entries.map fun es => Std.ExtTreeMap.ofList es compare) = some m ↔
      ∀ (k : κ) (a : α), m[k]? = some a → c.Keeps a := by
  have hself : entries = some m.toList ↔ ∀ (k : κ) (a : α), m[k]? = some a → c.Keeps a := by
    rw [hread, List.forall₂_same]
    constructor
    · intro h k a hget
      exact (h (k, a) (Std.ExtTreeMap.mem_toList_iff_getElem?_eq_some.mpr hget)).2
    · intro h e he
      exact ⟨rfl, h e.1 e.2 (Std.ExtTreeMap.mem_toList_iff_getElem?_eq_some.mp he)⟩
  rw [← hself, Option.map_eq_some_iff]
  constructor
  · rintro ⟨es, hes, hmap⟩
    have hkeys : es.map (·.1) = m.toList.map (·.1) := by
      rw [← List.forall₂_eq_eq_eq, List.forall₂_map_left_iff, List.forall₂_map_right_iff]
      exact (((hread es).mp hes).imp fun _ _ he => he.1.symm).flip
    rw [hes, (BTreeMap.ofList_eq_iff hkeys).mp hmap]
  · intro h
    exact ⟨m.toList, h, BTreeMap.ofList_toList m⟩

theorem map_keeps_iff {c : Codec α} {m : BTreeMap String α} :
    c.map.Keeps m ↔ ∀ (k : String) (a : α), m[k]? = some a → c.Keeps a := by
  apply rebuilt_iff
  intro es
  rw [mapM_eq_some_iff, List.forall₂_map_left_iff]
  refine ⟨fun h => h.imp ?_, fun h => h.imp ?_⟩
  · rintro e ⟨k, a⟩ he
    simpa [and_comm] using he
  · rintro e ⟨k, a⟩ he
    simpa [and_comm] using he

theorem map_depth {c : Codec α} {n : Nat} (h : c.DepthLe n) : c.map.DepthLe (n + 1) := by
  intro m
  apply Document.depth_object_le_iff.mpr
  intro d hd
  obtain ⟨e, _, rfl⟩ := List.mem_map.mp hd
  exact h e.2

/-- Maps with other keys, as arrays of pairs. Of several pairs with one key the
last one counts. -/
def entries {κ : Type v} [Ord κ] [Std.TransOrd κ] (key : Codec κ) (c : Codec α) :
    Codec (BTreeMap κ α) where
  encode m := (key.pair c).list.encode m.toList
  decode d := ((key.pair c).list.decode d).map fun es => Std.ExtTreeMap.ofList es compare

theorem entries_keeps_iff {κ : Type v} [Ord κ] [Std.TransOrd κ] [Std.LawfulEqOrd κ] [BEq κ]
    [Std.LawfulBEqOrd κ] {key : Codec κ} {c : Codec α} (hkey : ∀ k, key.Keeps k)
    {m : BTreeMap κ α} :
    (entries key c).Keeps m ↔ ∀ (k : κ) (a : α), m[k]? = some a → c.Keeps a := by
  apply rebuilt_iff
  intro es
  change (m.toList.map (key.pair c).encode).mapM (key.pair c).decode = some es ↔ _
  rw [mapM_eq_some_iff, List.forall₂_map_left_iff]
  have hentry : ∀ e e' : κ × α, (key.pair c).decode ((key.pair c).encode e) = some e' ↔
      e.1 = e'.1 ∧ c.decode (c.encode e.2) = some e'.2 := by
    rintro ⟨k, a⟩ ⟨k', a'⟩
    change ((key.decode (key.encode k)).bind fun k => (c.decode (c.encode a)).map fun a => (k, a)) =
      some (k', a') ↔ _
    rw [hkey k]
    simp [and_comm]
  simp only [hentry]

theorem entries_depth {κ : Type v} [Ord κ] [Std.TransOrd κ] {key : Codec κ} {c : Codec α}
    {n : Nat} (hkey : key.DepthLe n) (h : c.DepthLe n) : (entries key c).DepthLe (n + 2) :=
  fun m => list_depth (pair_depth hkey h) m.toList

/-! ## Enumerations -/

/-- An enumeration is written as the tag of its variant, or as an object with
the tag as its only member if the variant carries something. -/
def enumeration (encode : α → String × Option Document)
    (decode : String → Option Document → Option α) : Codec α where
  encode a :=
    match encode a with
    | (tag, none) => .string tag
    | (tag, some d) => .object [(tag, d)]
  decode
    | .string tag => decode tag none
    | .object [(tag, d)] => decode tag (some d)
    | _ => none

/-- What a variant without contents is read from: its tag alone, or null. -/
def bare (a : α) : Option Document → Option α
  | none => some a
  | some .null => some a
  | some _ => none

section Enumeration

variable {encode : α → String × Option Document} {decode : String → Option Document → Option α}

theorem enumeration_keeps_iff {a : α} :
    (enumeration encode decode).Keeps a ↔ decode (encode a).1 (encode a).2 = some a := by
  rw [Keeps, enumeration]
  simp only
  obtain ⟨tag, payload⟩ := encode a
  cases payload <;> rfl

theorem enumeration_depth {n : Nat} (h : ∀ a d, (encode a).2 = some d → d.depth ≤ n) :
    (enumeration encode decode).DepthLe (n + 1) := by
  intro a
  rw [enumeration]
  simp only
  split
  · exact Nat.zero_le _
  · rename_i tag d heq
    apply Document.depth_object_le_iff.mpr
    intro m hm
    rw [List.mem_singleton.mp hm]
    exact h a d (by rw [heq])

end Enumeration

end Codec

/-! ## Records -/

/-- The fields of a record, with the order in which they are written. Reading
looks each member up by its name, so other members do not disturb it. -/
structure Fields (β : Type u) where
  names : List String
  encode : β → List (String × Document)
  decode : List (String × Document) → Option β
  decodeItems : List Document → Option β
  encode_names : ∀ b, (encode b).map (·.1) = names
  decode_skip : ∀ m ms, m.1 ∉ names → decode (m :: ms) = decode ms
  distinct : names.Nodup

namespace Fields

variable {β : Type u} {γ : Type u}

def Keeps (f : Fields β) (b : β) : Prop :=
  f.decode (f.encode b) = some b

def DepthLe (f : Fields β) (n : Nat) : Prop :=
  ∀ b, ∀ m ∈ f.encode b, m.2.depth ≤ n

/-- No field. -/
def nil : Fields PUnit.{u + 1} where
  names := []
  encode _ := []
  decode _ := some ⟨⟩
  decodeItems
    | [] => some ⟨⟩
    | _ => none
  encode_names _ := rfl
  decode_skip _ _ _ := rfl
  distinct := List.nodup_nil

theorem nil_keeps : nil.Keeps ⟨⟩ := rfl

theorem nil_depth {n : Nat} : nil.DepthLe n := by
  intro b m hm
  cases hm

/-- A further field in front. `missing` is the value of the field when its member
is not there, if that is allowed. -/
def cons (name : String) (missing : Option β) (c : Codec β) (rest : Fields γ)
    (fresh : name ∉ rest.names := by decide) : Fields (β × γ) where
  names := name :: rest.names
  encode b := (name, c.encode b.1) :: rest.encode b.2
  decode ms := (Document.member name ms).bind fun found =>
    (found.elim missing c.decode).bind fun b => (rest.decode ms).map fun g => (b, g)
  decodeItems
    | [] => missing.bind fun b => (rest.decodeItems []).map fun g => (b, g)
    | d :: ds => (c.decode d).bind fun b => (rest.decodeItems ds).map fun g => (b, g)
  encode_names b := by rw [List.map_cons, rest.encode_names]
  decode_skip m ms hm := by
    rw [List.mem_cons, not_or] at hm
    rw [Document.member_cons_of_ne hm.1, rest.decode_skip m ms hm.2]
  distinct := List.nodup_cons.mpr ⟨fresh, rest.distinct⟩

/-- What was written is read field by field. -/
theorem cons_decode_encode {name : String} {missing : Option β} {c : Codec β} {rest : Fields γ}
    {fresh : name ∉ rest.names} (b : β) (g : γ) :
    (cons name missing c rest fresh).decode ((cons name missing c rest fresh).encode (b, g)) =
      (c.decode (c.encode b)).bind fun b' =>
        (rest.decode (rest.encode g)).map fun g' => (b', g') := by
  have hfound : Document.member name ((name, c.encode b) :: rest.encode g) =
      some (some (c.encode b)) := by
    apply Document.member_cons_self
    rwa [rest.encode_names]
  have hskip := rest.decode_skip (name, c.encode b) (rest.encode g) fresh
  change ((Document.member name ((name, c.encode b) :: rest.encode g)).bind fun found =>
    (found.elim missing c.decode).bind fun b' =>
      (rest.decode ((name, c.encode b) :: rest.encode g)).map fun g' => (b', g')) = _
  rw [hfound, hskip, Option.bind_some, Option.elim_some]

theorem cons_keeps_iff {name : String} {missing : Option β} {c : Codec β} {rest : Fields γ}
    {fresh : name ∉ rest.names} {b : β} {g : γ} :
    (cons name missing c rest fresh).Keeps (b, g) ↔ c.Keeps b ∧ rest.Keeps g := by
  rw [Keeps, cons_decode_encode, Codec.Keeps, Keeps]
  cases c.decode (c.encode b) <;> cases rest.decode (rest.encode g) <;> simp

theorem cons_depth {name : String} {missing : Option β} {c : Codec β} {rest : Fields γ}
    {fresh : name ∉ rest.names} {n : Nat} (hc : c.DepthLe n) (hrest : rest.DepthLe n) :
    (cons name missing c rest fresh).DepthLe n := by
  intro b m hm
  rcases List.mem_cons.mp hm with rfl | hm
  · exact hc b.1
  · exact hrest b.2 m hm

end Fields

namespace Codec

variable {α : Type u} {β : Type v}

/-- A record type with the given fields. -/
def record (f : Fields β) (split : α → β) (build : β → α) : Codec α where
  encode a := .object (f.encode (split a))
  decode
    | .object members => (f.decode members).map build
    | .array items => (f.decodeItems items).map build
    | _ => none

theorem record_decode_encode {f : Fields β} {split : α → β} {build : β → α} (a : α) :
    (record f split build).decode ((record f split build).encode a) =
      (f.decode (f.encode (split a))).map build :=
  rfl

theorem record_keeps_iff {f : Fields β} {split : α → β} {build : β → α} {a : α}
    (hbuild : ∀ a, build (split a) = a) (hsplit : ∀ b, split (build b) = b) :
    (record f split build).Keeps a ↔ f.Keeps (split a) := by
  rw [Keeps, record_decode_encode, Fields.Keeps]
  constructor
  · intro h
    obtain ⟨b, hb, hab⟩ := Option.map_eq_some_iff.mp h
    rw [hb, ← hab, hsplit]
  · intro h
    rw [h, Option.map_some, hbuild]

theorem record_encode_ne_null {f : Fields β} {split : α → β} {build : β → α} {a : α} :
    (record f split build).encode a ≠ .null := by
  intro h
  cases h

theorem record_depth {f : Fields β} {split : α → β} {build : β → α} {n : Nat} (h : f.DepthLe n) :
    (record f split build).DepthLe (n + 1) := by
  intro a
  exact Document.depth_object_le_iff.mpr (h (split a))

end Codec

end CeQuery
