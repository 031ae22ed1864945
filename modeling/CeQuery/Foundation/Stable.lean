import CeQuery.Foundation.Codec

/-!
# What was read is kept

A document need not be the form in which a value would have been written: members may
come in another order, unknown ones may be among them, fields may be missing. What
matters is that nothing is read that could not be written again. `Codec.Stable` says so,
and each way of building codecs preserves it.
-/

namespace CeQuery

namespace Codec

variable {α : Type u} {β : Type v}

/-- Whatever is read from some document is read back when it is written. -/
def Stable (c : Codec α) : Prop :=
  ∀ d a, c.decode d = some a → c.Keeps a

theorem stable_of_keeps {c : Codec α} (h : ∀ a, c.Keeps a) : c.Stable :=
  fun _ a _ => h a

theorem string_stable : string.Stable :=
  stable_of_keeps string_keeps

theorem boundedInt_stable {lo hi : Int} : (boundedInt lo hi).Stable :=
  stable_of_keeps boundedInt_keeps

/-- Only finite numbers are read. -/
theorem float_stable : float.Stable := by
  intro d x h
  rw [float_keeps_iff]
  cases d with
  | float y =>
      cases h
      exact y.finite
  | int n =>
      change (if (Float.ofModel (Float.Model.ofInt n) : F64).isFinite then some _ else none) =
        _ at h
      split at h
      · cases h
        assumption
      · cases h
  | _ => cases h

theorem option_stable {c : Codec α} (h : c.Stable) (hnull : ∀ a, c.Keeps a → c.encode a ≠ .null) :
    c.option.Stable := by
  intro d o ho
  cases o with
  | none => exact option_keeps_none c
  | some a =>
      have hread : c.decode d = some a := by
        rw [option] at ho
        dsimp only at ho
        split at ho
        · cases ho
        · obtain ⟨a', ha', heq⟩ := Option.map_eq_some_iff.mp ho
          cases heq
          exact ha'
      exact option_keeps_some_iff.mpr ⟨hnull a (h d a hread), h d a hread⟩

theorem list_stable {c : Codec α} (h : c.Stable) : c.list.Stable := by
  intro d as has
  cases d with
  | array items =>
      have hread : List.Forall₂ (fun item a => c.decode item = some a) items as :=
        mapM_eq_some_iff.mp has
      rw [list_keeps_iff]
      intro a ha
      obtain ⟨item, _, hitem⟩ := exists_mem_of_forall₂ hread.flip ha
      exact h item a hitem
  | _ => cases has

theorem pair_stable {c : Codec α} {c' : Codec β} (h : c.Stable) (h' : c'.Stable) :
    (c.pair c').Stable := by
  intro d p hp
  rw [pair] at hp
  dsimp only at hp
  split at hp
  · obtain ⟨a, ha, hrest⟩ := Option.bind_eq_some_iff.mp hp
    obtain ⟨b, hb, rfl⟩ := Option.map_eq_some_iff.mp hrest
    exact pair_keeps_iff.mpr ⟨h _ a ha, h' _ b hb⟩
  · cases hp

/-- Every value of a map was read from some member. -/
theorem map_stable {c : Codec α} (h : c.Stable) : c.map.Stable := by
  intro d m hm
  cases d with
  | object members =>
      obtain ⟨es, hes, rfl⟩ := Option.map_eq_some_iff.mp hm
      rw [map_keeps_iff]
      intro k a ha
      obtain ⟨member, _, hmember⟩ := exists_mem_of_forall₂ (mapM_eq_some_iff.mp hes).flip
        (BTreeMap.mem_of_getElem?_ofList ha)
      obtain ⟨a', ha', heq⟩ := Option.map_eq_some_iff.mp hmember
      cases heq
      exact h _ a ha'
  | _ => cases hm

theorem entries_stable {κ : Type v} [Ord κ] [Std.TransOrd κ] [Std.LawfulEqOrd κ] [BEq κ]
    [Std.LawfulBEqOrd κ] {key : Codec κ} {c : Codec α} (hkey : ∀ k, key.Keeps k) (h : c.Stable) :
    (entries key c).Stable := by
  intro d m hm
  obtain ⟨es, hes, rfl⟩ := Option.map_eq_some_iff.mp hm
  have hpairs : (key.pair c).list.Keeps es :=
    list_stable (pair_stable (stable_of_keeps hkey) h) d es hes
  rw [entries_keeps_iff hkey]
  intro k a ha
  exact (pair_keeps_iff.mp (list_keeps_iff.mp hpairs _ (BTreeMap.mem_of_getElem?_ofList ha))).2

/-- What is read as a variant was read from its tag and its contents. -/
theorem enumeration_reads {encode : α → String × Option Document}
    {decode : String → Option Document → Option α} {d : Document} {a : α}
    (h : (enumeration encode decode).decode d = some a) :
    ∃ tag payload, decode tag payload = some a := by
  rw [enumeration] at h
  dsimp only at h
  split at h
  · exact ⟨_, _, h⟩
  · exact ⟨_, _, h⟩
  · cases h

end Codec

namespace Fields

variable {β : Type u} {γ : Type u}

/-- Whatever is read from some members, or from the items of some array, is read back. -/
structure Stable (f : Fields β) : Prop where
  decode : ∀ ms b, f.decode ms = some b → f.Keeps b
  decodeItems : ∀ ds b, f.decodeItems ds = some b → f.Keeps b

theorem nil_stable : nil.Stable :=
  ⟨fun _ _ _ => nil_keeps, fun _ _ _ => nil_keeps⟩

/-- A field in front, whose value for a missing member can be written as well. -/
theorem cons_stable {name : String} {missing : Option β} {c : Codec β} {rest : Fields γ}
    {fresh : name ∉ rest.names} (hmissing : ∀ b, missing = some b → c.Keeps b) (hc : c.Stable)
    (hrest : rest.Stable) : (cons name missing c rest fresh).Stable := by
  constructor
  · rintro ms ⟨b, g⟩ h
    obtain ⟨found, _, h⟩ := Option.bind_eq_some_iff.mp h
    obtain ⟨b', hb, h⟩ := Option.bind_eq_some_iff.mp h
    obtain ⟨g', hg, heq⟩ := Option.map_eq_some_iff.mp h
    cases heq
    refine cons_keeps_iff.mpr ⟨?_, hrest.decode ms g hg⟩
    cases found with
    | none => exact hmissing b hb
    | some d => exact hc d b hb
  · rintro ds ⟨b, g⟩ h
    cases ds with
    | nil =>
        obtain ⟨b', hb, h⟩ := Option.bind_eq_some_iff.mp h
        obtain ⟨g', hg, heq⟩ := Option.map_eq_some_iff.mp h
        cases heq
        exact cons_keeps_iff.mpr ⟨hmissing b hb, hrest.decodeItems [] g hg⟩
    | cons d ds =>
        obtain ⟨b', hb, h⟩ := Option.bind_eq_some_iff.mp h
        obtain ⟨g', hg, heq⟩ := Option.map_eq_some_iff.mp h
        cases heq
        exact cons_keeps_iff.mpr ⟨hc d b hb, hrest.decodeItems ds g hg⟩

/-- A field that must be there. -/
theorem cons_stable_required {name : String} {c : Codec β} {rest : Fields γ}
    {fresh : name ∉ rest.names} (hc : c.Stable) (hrest : rest.Stable) :
    (cons name none c rest fresh).Stable :=
  cons_stable nofun hc hrest

end Fields

theorem Codec.record_stable {α : Type u} {β : Type v} {f : Fields β} {split : α → β}
    {build : β → α} (hsplit : ∀ b, split (build b) = b) (h : f.Stable) :
    (record f split build).Stable := by
  have hkeeps : ∀ b, f.Keeps b → (record f split build).Keeps (build b) := by
    intro b hb
    rw [Keeps, record_decode_encode, hsplit, hb, Option.map_some]
  intro d a ha
  cases d with
  | object members =>
      obtain ⟨b, hb, rfl⟩ := Option.map_eq_some_iff.mp ha
      exact hkeeps b (h.decode members b hb)
  | array items =>
      obtain ⟨b, hb, rfl⟩ := Option.map_eq_some_iff.mp ha
      exact hkeeps b (h.decodeItems items b hb)
  | _ => cases ha

end CeQuery
