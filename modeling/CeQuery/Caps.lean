import CeQuery.Foundation.BoundedInt
import Mathlib.Data.List.Chain

/-!
# Query capabilities

A query token is a chain of signed capabilities, from the root to the leaf. The
chain is checked by a crate of its own, which is given here as `IamCore`; the
check of this program is that the dataset scope of the leaf is the dataset or
empty.

`IamCore.Attenuates` is what is used of the crate's check: along an authorized
chain each path prefix extends the one before it, as raw text. That does not
keep a chain within the dataset of an ancestor: a capability for one dataset can
be narrowed to another dataset whose name is longer. `verify_reaches_iff` says
that this is the only way out.
-/

namespace CeQuery

/-- The id of a node. -/
abbrev NodeId : Type := Vector UInt8 32

/-- What is used of the crate that defines capabilities. -/
structure IamCore (Cap : Type) where
  decodeChain : String → Except String (List Cap)
  /-- The check of a chain: the node, the roots it accepts, its tags, the time,
  the requester, the ability asked for, the chain, and what is revoked. -/
  authorize : NodeId → List NodeId → List String → U64 → NodeId → String → List Cap →
    (NodeId → U64 → Bool) → Except String Unit
  abilities : Cap → List String
  pathPrefix : Cap → Option String

/-- The ability to run queries over the scoped datasets. -/
def abilityQuery : String := "query:read"

/-- The dataset that a capability covers; the empty one stands for all. -/
@[ext] structure Scope where
  dataset : String
  deriving DecidableEq

namespace Scope

def all : Scope := ⟨""⟩

def toCaveat (s : Scope) : String := s.dataset

def fromCaveat (s : String) : Scope := ⟨s⟩

end Scope

/-- Does the scope permit querying the dataset? -/
def scopeAllows (scope : Scope) (dataset : String) : Bool :=
  scope.dataset.isEmpty || scope.dataset == dataset

section

variable {Cap : Type} (iam : IamCore Cap)

/-- The scope of a capability. -/
def scopeOf (cap : Cap) : Scope :=
  ((iam.pathPrefix cap).map Scope.fromCaveat).getD .all

/-- The abilities and the scope of the leaf of a token. -/
def inspect (token : String) : Except String (List String × Scope) := do
  let chain ← (iam.decodeChain token).mapError fun _ => "decoding query capability"
  match chain.getLast? with
  | none => .error "empty capability chain"
  | some leaf => .ok (iam.abilities leaf, scopeOf iam leaf)

/-- Verify a token that a requester presents for a dataset. -/
def verify (selfId : NodeId) (acceptedRoots : List NodeId) (selfTags : List String) (now : U64)
    (requester : NodeId) (dataset token : String) (isRevoked : NodeId → U64 → Bool) :
    Except String Unit := do
  let chain ← iam.decodeChain token
  iam.authorize selfId acceptedRoots selfTags now requester abilityQuery chain isRevoked
  match chain.getLast? with
  | none => .error "empty chain"
  | some leaf =>
      if !scopeAllows (scopeOf iam leaf) dataset then
        .error ("token scope `" ++ (scopeOf iam leaf).dataset ++ "` does not cover dataset `" ++
          dataset ++ "`")
      else .ok ()

end

theorem scopeAllows_iff {scope : Scope} {dataset : String} :
    scopeAllows scope dataset = true ↔ scope.dataset = "" ∨ scope.dataset = dataset := by
  simp [scopeAllows]

section Verify

variable {Cap : Type} {iam : IamCore Cap} {selfId : NodeId} {acceptedRoots : List NodeId}
  {selfTags : List String} {now : U64} {requester : NodeId} {dataset token : String}
  {isRevoked : NodeId → U64 → Bool}

/-- A token is accepted if its chain is authorized and the scope of its leaf
allows the dataset. -/
theorem verify_eq_ok_iff :
    verify iam selfId acceptedRoots selfTags now requester dataset token isRevoked = .ok () ↔
      ∃ chain leaf, iam.decodeChain token = .ok chain ∧
        iam.authorize selfId acceptedRoots selfTags now requester abilityQuery chain isRevoked =
          .ok () ∧
        chain.getLast? = some leaf ∧ scopeAllows (scopeOf iam leaf) dataset = true := by
  rw [verify]
  cases iam.decodeChain token with
  | error e => simp [bind, Except.bind]
  | ok chain =>
      cases hauth : iam.authorize selfId acceptedRoots selfTags now requester abilityQuery chain
          isRevoked with
      | error e => simp [bind, Except.bind, hauth]
      | ok _ =>
          cases hlast : chain.getLast? with
          | none => simp [bind, Except.bind, hauth, hlast]
          | some leaf =>
              cases hallows : scopeAllows (scopeOf iam leaf) dataset <;>
                simp [bind, Except.bind, hauth, hlast, hallows]

end Verify

/-! ## Chains -/

/-- Every element of a chain is related to its end. -/
private theorem rel_last {α : Type u} {R : α → α → Prop} [Std.Refl R] [IsTrans α R] {chain : List α}
    (h : chain.IsChain R) {leaf : α} (hlast : chain.getLast? = some leaf) :
    ∀ a ∈ chain, R a leaf := by
  obtain ⟨before, rfl⟩ := List.getLast?_eq_some_iff.mp hlast
  intro a ha
  rcases List.mem_append.mp ha with ha | ha
  · exact (List.pairwise_append.mp h.pairwise).2.2 a ha leaf (List.mem_singleton_self leaf)
  · rw [List.mem_singleton.mp ha]
    exact Std.Refl.refl leaf

section Attenuation

variable {Cap : Type} (iam : IamCore Cap)

/-- The path prefix of the child extends that of its parent as raw text. -/
def IamCore.Extends (parent child : Cap) : Prop :=
  (scopeOf iam parent).dataset.toList <+: (scopeOf iam child).dataset.toList

/-- Along an authorized chain every path prefix extends the one before it. -/
def IamCore.Attenuates : Prop :=
  ∀ selfId acceptedRoots selfTags now requester ability chain isRevoked,
    iam.authorize selfId acceptedRoots selfTags now requester ability chain isRevoked = .ok () →
      chain.IsChain iam.Extends

/-- The child has the scope of its parent, or the parent covers every dataset. -/
def IamCore.KeepsScope (parent child : Cap) : Prop :=
  (scopeOf iam parent).dataset = "" ∨ (scopeOf iam child).dataset = (scopeOf iam parent).dataset

instance : Std.Refl iam.KeepsScope :=
  ⟨fun _ => .inr rfl⟩

instance : IsTrans Cap iam.KeepsScope where
  trans a b c hab hbc := by
    rcases hab with ha | hba
    · exact .inl ha
    · rcases hbc with hb | hcb
      · exact .inl (hba ▸ hb)
      · exact .inr (hcb.trans hba)

variable {iam} {selfId : NodeId} {acceptedRoots : List NodeId} {selfTags : List String}
  {now : U64} {requester : NodeId} {dataset token : String} {isRevoked : NodeId → U64 → Bool}
  {chain : List Cap}

/-- The scopes of an accepted chain all allow the dataset exactly if no link of
the chain lengthens a scope that is not empty. -/
theorem verify_reaches_iff (hatt : iam.Attenuates) (hdecode : iam.decodeChain token = .ok chain)
    (h : verify iam selfId acceptedRoots selfTags now requester dataset token isRevoked = .ok ()) :
    (∀ cap ∈ chain, scopeAllows (scopeOf iam cap) dataset = true) ↔
      chain.IsChain iam.KeepsScope := by
  obtain ⟨chain', leaf, hdecode', hauth, hlast, hleaf⟩ := verify_eq_ok_iff.mp h
  rw [hdecode] at hdecode'
  cases hdecode'
  constructor
  · intro hallows
    apply (hatt _ _ _ _ _ _ _ _ hauth).imp_of_mem_imp
    intro parent child hparent hchild hextends
    rcases scopeAllows_iff.mp (hallows parent hparent) with hempty | hdataset
    · exact .inl hempty
    · rcases scopeAllows_iff.mp (hallows child hchild) with hempty | hdataset'
      · rw [IamCore.Extends, hempty] at hextends
        exact .inl (String.toList_eq_nil_iff.mp (List.prefix_nil.mp hextends))
      · exact .inr (hdataset'.trans hdataset.symm)
  · intro hkeeps cap hcap
    rcases rel_last hkeeps hlast cap hcap with hempty | hsame
    · exact scopeAllows_iff.mpr (.inl hempty)
    · rw [scopeAllows_iff, hsame] at hleaf
      exact scopeAllows_iff.mpr hleaf

end Attenuation

/-! ## Two chains -/

/-- An instance to evaluate the model with: every token stands for the given
chain of path prefixes, which is authorized if each extends the one before it. -/
def IamCore.sample (chain : List (Option String)) : IamCore (Option String) where
  decodeChain _ := .ok chain
  authorize _ _ _ _ _ _ chain _ :=
    if chain.IsChain fun parent child => (parent.getD "").toList <+: (child.getD "").toList then
      .ok ()
    else .error "capability widens its parent"
  abilities _ := [abilityQuery]
  pathPrefix := id

private theorem scopeOf_sample {chain : List (Option String)} (cap : Option String) :
    (scopeOf (.sample chain) cap).dataset = cap.getD "" := by
  cases cap <;> rfl

theorem IamCore.sample_attenuates (chain : List (Option String)) :
    (IamCore.sample chain).Attenuates := by
  intro _ _ _ _ _ _ caps _ h
  by_cases hchain : caps.IsChain fun parent child =>
      (parent.getD "").toList <+: (child.getD "").toList
  · apply hchain.imp
    intro parent child hextends
    rwa [Extends, scopeOf_sample, scopeOf_sample]
  · simp [sample, hchain] at h

def NodeId.zero : NodeId := Vector.replicate 32 0

/-- A chain from everything to one dataset stays in scope. -/
theorem verify_reaches_iff_three_links :
    scopeAllows (scopeOf (.sample [none, some "", some "sales"]) none) "sales" = true ∧
      scopeAllows (scopeOf (.sample [none, some "", some "sales"]) (some "")) "sales" = true ∧
      scopeAllows (scopeOf (.sample [none, some "", some "sales"]) (some "sales")) "sales" =
        true := by
  have hverify : verify (.sample [none, some "", some "sales"]) .zero [] [] U64.zero .zero "sales"
      "token" (fun _ _ => false) = .ok () := by
    decide
  have hreaches := (verify_reaches_iff (IamCore.sample_attenuates _) rfl hverify).mpr
    (.cons_cons (.inl rfl) (.cons_cons (.inl rfl) (.singleton _)))
  exact ⟨hreaches none (by decide), hreaches (some "") (by decide),
    hreaches (some "sales") (by decide)⟩

/-- A capability for the dataset "sale" is narrowed to the dataset "sales". -/
theorem verify_leaves_scope :
    (IamCore.sample [some "sale", some "sales"]).Attenuates ∧
      verify (.sample [some "sale", some "sales"]) .zero [] [] U64.zero .zero "sales" "token"
        (fun _ _ => false) = .ok () ∧
      ¬∀ cap ∈ [some "sale", some "sales"],
        scopeAllows (scopeOf (.sample [some "sale", some "sales"]) cap) "sales" = true :=
  ⟨IamCore.sample_attenuates _, by decide, by decide⟩

end CeQuery
