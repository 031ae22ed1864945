import Mathlib.Tactic.Common

/-!
# Readers of token lists

A reader takes tokens from the front of a list and returns the rest. The two loops
of hand-written parsers are given here once: items with separators between them, and
a value that is extended as long as a link follows. They end because an item and a
link take a token at least, which the structures carry.

A loop reads what is written as a loop (`Item.sepBy_written`): it is enough that the
item reads what is written as an item. Conversely, what a loop reads is written as a
loop if what the item or the link reads is written as it should be
(`Item.readsAs_sepBy`, `Link.readsAs_chain`).
-/

namespace CeQuery

/-- The value read and the tokens that are left, or an error. -/
abbrev Reader (τ ε α : Type*) := List τ → Except ε (α × List τ)

/-- A reader that takes a token at least. -/
structure Item (τ ε α : Type*) where
  read : Reader τ ε α
  shorter : ∀ {ts a rest}, read ts = .ok (a, rest) → rest.length < ts.length

/-- A reader that takes a token at least if it extends the value. -/
structure Link (τ ε α : Type*) where
  read : Reader τ ε (Option (α → α))
  shorter : ∀ {ts f rest}, read ts = .ok (some f, rest) → rest.length < ts.length

variable {τ ε α : Type*}

/-- Only what is written so is read, and nothing of the rest is taken. -/
def ReadsAs (read : Reader τ ε α) (S : α → List τ → Prop) : Prop :=
  ∀ ⦃ts a rest⦄, read ts = .ok (a, rest) → ∃ us, ts = us ++ rest ∧ S a us

theorem bind_eq_ok_iff {α β : Type u} {x : Except ε α} {f : α → Except ε β} {b : β} :
    (x >>= f) = .ok b ↔ ∃ a, x = .ok a ∧ f a = .ok b := by
  cases x with
  | error e => exact ⟨nofun, nofun⟩
  | ok a => exact ⟨fun h => ⟨a, rfl, h⟩, fun ⟨_, hok, h⟩ => by cases hok; exact h⟩

/-- How items with separators between them are written, given how an item is. -/
inductive SepBy (S : α → List τ → Prop) (sep : τ → Bool) : List α → List τ → Prop where
  | last {a : α} {us : List τ} (item : S a us) : SepBy S sep [a] us
  | more {a : α} {as : List α} {us vs : List τ} {s : τ} (item : S a us) (separator : sep s = true)
      (others : SepBy S sep as vs) : SepBy S sep (a :: as) (us ++ s :: vs)

namespace SepBy

variable {S : α → List τ → Prop} {sep : τ → Bool} {as : List α} {us : List τ}

/-- The tokens begin with those of an item, which are all or before a separator. -/
theorem front (h : SepBy S sep as us) :
    ∃ a ∈ as, ∃ us' vs, S a us' ∧ us = us' ++ vs ∧ ∀ s ∈ vs.head?, sep s = true := by
  cases h with
  | @last a us hS => exact ⟨a, List.mem_cons_self, us, [], hS, (List.append_nil us).symm, nofun⟩
  | @more a as us vs s hS hs _ =>
      refine ⟨a, List.mem_cons_self, us, s :: vs, hS, rfl, ?_⟩
      rintro t ⟨⟩
      exact hs

/-- What holds of the tokens of the items and of the separators holds of all. -/
theorem forall_mem {P : τ → Prop} (h : SepBy S sep as us)
    (hitem : ∀ a ∈ as, ∀ us, S a us → ∀ t ∈ us, P t) (hsep : ∀ s, sep s = true → P s) :
    ∀ t ∈ us, P t := by
  induction h with
  | last hS => exact hitem _ List.mem_cons_self _ hS
  | more hS hs _ ih =>
      obtain ⟨hfirst, hothers⟩ := List.forall_mem_cons.mp hitem
      refine List.forall_mem_append.mpr ⟨hfirst _ hS, ?_⟩
      exact List.forall_mem_cons.mpr ⟨hsep _ hs, ih hothers⟩

end SepBy

namespace Item

variable (item : Item τ ε α) (sep : τ → Bool)

/-- One item or more: another one follows each separator. -/
def sepBy (ts : List τ) : Except ε (List α × List τ) :=
  match _h : item.read ts with
  | .error e => .error e
  | .ok (a, []) => .ok ([a], [])
  | .ok (a, s :: rest) =>
      if sep s then
        match sepBy rest with
        | .error e => .error e
        | .ok (as, rest) => .ok (a :: as, rest)
      else .ok ([a], s :: rest)
termination_by ts.length
decreasing_by
  have := item.shorter _h
  exact Nat.lt_of_succ_lt this

variable {item sep}

theorem sepBy_last {ts rest : List τ} {a : α} (hread : item.read ts = .ok (a, rest))
    (hstop : ∀ s ∈ rest.head?, sep s = false) : item.sepBy sep ts = .ok ([a], rest) := by
  rw [sepBy]
  split <;> rename_i heq <;> cases hread.symm.trans heq
  · rfl
  · rw [hstop _ rfl]
    rfl

theorem sepBy_more {ts rest rest' : List τ} {a : α} {as : List α} {s : τ}
    (hread : item.read ts = .ok (a, s :: rest)) (hsep : sep s = true)
    (hothers : item.sepBy sep rest = .ok (as, rest')) :
    item.sepBy sep ts = .ok (a :: as, rest') := by
  rw [sepBy]
  split <;> rename_i heq <;> cases hread.symm.trans heq
  rw [hsep, if_pos rfl, hothers]

/-- The items that were read are one, with no separator after it, or one before a
separator and the others. -/
theorem sepBy_cases {ts rest : List τ} {as : List α} (h : item.sepBy sep ts = .ok (as, rest)) :
    (∃ a, item.read ts = .ok (a, rest) ∧ as = [a]) ∨
      ∃ a s ts' as', item.read ts = .ok (a, s :: ts') ∧ sep s = true ∧
        item.sepBy sep ts' = .ok (as', rest) ∧ as = a :: as' := by
  rw [sepBy] at h
  split at h
  · cases h
  · rename_i a hread
    cases h
    exact .inl ⟨a, hread, rfl⟩
  · rename_i a s ts' hread
    split at h
    · rename_i hsep
      split at h
      · cases h
      · rename_i as' rest' hothers
        cases h
        exact .inr ⟨a, s, ts', as', hread, hsep, hothers, rfl⟩
    · cases h
      exact .inl ⟨a, hread, rfl⟩

/-- What is read as items is written as items. -/
theorem readsAs_sepBy {S : α → List τ → Prop} (hitem : ReadsAs item.read S) :
    ReadsAs (item.sepBy sep) (SepBy S sep) := by
  intro ts as rest h
  induction hn : ts.length using Nat.strongRecOn generalizing ts as with
  | ind n ih =>
      subst hn
      obtain ⟨a, hread, rfl⟩ | ⟨a, s, ts', as', hread, hsep, hothers, rfl⟩ := sepBy_cases h
      · obtain ⟨us, rfl, hS⟩ := hitem hread
        exact ⟨us, rfl, .last hS⟩
      · have hlt := Nat.lt_of_succ_lt (item.shorter hread)
        obtain ⟨us, rfl, hS⟩ := hitem hread
        obtain ⟨vs, rfl, hS'⟩ := ih ts'.length hlt hothers rfl
        refine ⟨us ++ s :: vs, ?_, .more hS hsep hS'⟩
        rw [List.append_assoc, List.cons_append]

/-- What is written as items is read as items, if an item is read before each
separator and before the end. -/
theorem sepBy_written {S : α → List τ → Prop} {as : List α} {us rest : List τ}
    (follows : List τ → Prop)
    (hitem : ∀ a ∈ as, ∀ us rest, S a us → follows rest → item.read (us ++ rest) = .ok (a, rest))
    (hsep : ∀ s rest, sep s = true → follows (s :: rest)) (h : SepBy S sep as us)
    (hrest : follows rest) (hstop : ∀ s ∈ rest.head?, sep s = false) :
    item.sepBy sep (us ++ rest) = .ok (as, rest) := by
  induction h with
  | last hS => exact sepBy_last (hitem _ List.mem_cons_self _ _ hS hrest) hstop
  | more hS hs _ ih =>
      obtain ⟨hfirst, hothers⟩ := List.forall_mem_cons.mp hitem
      rw [List.append_assoc]
      exact sepBy_more (hfirst _ _ hS (hsep _ _ hs)) hs (ih hothers)

end Item

namespace Link

variable (link : Link τ ε α)

/-- Extend the value as long as a link follows. -/
def chain (a : α) (ts : List τ) : Except ε (α × List τ) :=
  match _h : link.read ts with
  | .error e => .error e
  | .ok (none, rest) => .ok (a, rest)
  | .ok (some f, rest) => chain (f a) rest
termination_by ts.length
decreasing_by
  exact link.shorter _h

variable {link}

theorem chain_end {ts rest : List τ} {a : α} (hread : link.read ts = .ok (none, rest)) :
    link.chain a ts = .ok (a, rest) := by
  rw [chain]
  split <;> rename_i heq <;> cases hread.symm.trans heq
  rfl

theorem chain_link {ts rest : List τ} {a : α} {f : α → α}
    (hread : link.read ts = .ok (some f, rest)) : link.chain a ts = link.chain (f a) rest := by
  rw [chain]
  split <;> rename_i heq <;> cases hread.symm.trans heq
  rfl

/-- What is read as a chain is written as a chain, if a link is written behind the
value that it extends. -/
theorem readsAs_chain {S : α → List τ → Prop}
    (hlink : ∀ {ts f rest}, link.read ts = .ok (some f, rest) →
      ∃ vs, ts = vs ++ rest ∧ ∀ a us, S a us → S (f a) (us ++ vs))
    (hnone : ∀ {ts rest}, link.read ts = .ok (none, rest) → rest = ts)
    {a b : α} {us ts rest : List τ} (ha : S a us) (h : link.chain a ts = .ok (b, rest)) :
    ∃ vs, ts = vs ++ rest ∧ S b (us ++ vs) := by
  induction hn : ts.length using Nat.strongRecOn generalizing a us ts with
  | ind n ih =>
      subst hn
      match hread : link.read ts with
      | .error e =>
          rw [chain] at h
          split at h <;> rename_i heq <;> cases hread.symm.trans heq
          cases h
      | .ok (none, rest') =>
          rw [chain_end hread] at h
          cases h
          exact ⟨[], (hnone hread).symm, (List.append_nil us).symm ▸ ha⟩
      | .ok (some f, rest') =>
          rw [chain_link hread] at h
          have hlt := link.shorter hread
          obtain ⟨vs, rfl, hextend⟩ := hlink hread
          obtain ⟨vs', rfl, hb⟩ := ih rest'.length hlt (hextend a us ha) h rfl
          rw [List.append_assoc] at hb
          exact ⟨vs ++ vs', (List.append_assoc ..).symm, hb⟩

end Link

end CeQuery
