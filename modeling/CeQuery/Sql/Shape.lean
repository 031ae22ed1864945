import CeQuery.Sql.Soundness

/-!
# The shape of parsed predicates

The predicate of an accepted text is derived as a chain of terms, and a chain is a term
or a longer predicate joined with one more term on its right. A predicate of `n`
connectives is therefore nested `n` deep, to the left.
-/

namespace CeQuery

namespace Predicate

/-- A comparison with a scalar, possibly negated. -/
inductive IsTerm : Predicate → Prop where
  | cmp (field : String) (op : CmpOp) {value : Value} (scalar : value.IsScalar) :
      IsTerm (.cmp field op value)
  | not (field : String) (op : CmpOp) {value : Value} (scalar : value.IsScalar) :
      IsTerm (.not (.cmp field op value))

/-- Terms joined by connectives from left to right. -/
inductive LeftNested : Predicate → Prop where
  | term {p : Predicate} (term : IsTerm p) : LeftNested p
  | and {p t : Predicate} (left : LeftNested p) (term : IsTerm t) : LeftNested (.and p t)
  | or {p t : Predicate} (left : LeftNested p) (term : IsTerm t) : LeftNested (.or p t)

/-- How many times `AND` and `OR` occur. -/
def connectives : Predicate → Nat
  | and a b => a.connectives + b.connectives + 1
  | or a b => a.connectives + b.connectives + 1
  | not a => a.connectives
  | _ => 0

theorem IsTerm.connectives_eq {p : Predicate} (h : IsTerm p) : p.connectives = 0 := by
  cases h <;> rfl

end Predicate

namespace Sql

theorem WordValue.scalar {w : String} {value : Value} (h : WordValue w value) :
    value.IsScalar := by
  cases h with
  | null | bool => trivial
  | int =>
      rw [Value.ofI64]
      split <;> trivial
  | float =>
      rw [Value.ofF64]
      split <;> trivial
  | text => trivial

namespace Lexicon

variable {G : Lexicon} {p : Predicate} {us : List Tok}

theorem Literal.scalar {value : Value} {t : Tok} (h : G.Literal value t) : value.IsScalar := by
  cases h with
  | quoted s => trivial
  | word _ hdenotes => exact hdenotes.scalar

theorem Term.isTerm (h : G.Term p us) : p.IsTerm := by
  cases h with
  | cmp _ _ hliteral => exact .cmp _ _ hliteral.scalar
  | not _ _ _ hliteral => exact .not _ _ hliteral.scalar

theorem Chain.leftNested (h : G.Chain p us) : p.LeftNested := by
  induction h with
  | term hterm => exact .term hterm.isTerm
  | and _ _ hright ih => exact .and ih hright.isTerm
  | or _ _ hright ih => exact .or ih hright.isTerm

end Lexicon

/-- The predicate of an accepted text is absent or nested to the left. -/
theorem parse_predicate {input : String} {q : Query} (h : parse input = .ok q) :
    q.predicate = .true ∨ q.predicate.LeftNested := by
  obtain ⟨ts, _, hderives⟩ := parse_accepted h
  cases hderives with
  | query _ _ _ _ hwhere _ _ _ =>
      generalize q.predicate = p at hwhere ⊢
      cases hwhere with
      | absent => exact .inl rfl
      | present _ hchain => exact .inr hchain.leftNested

end Sql

end CeQuery
