import CeQuery.Sql.RoundTrip
import Mathlib.Data.List.Chain

/-!
# The grammar of the SQL dialect

The grammar says which query the tokens of a text denote. At four kinds of positions it
takes a word of its own choice: a name or number, the argument of `COUNT`, the argument
of another aggregate, and a literal. Which words may stand there is kept apart
(`Lexicon`), because the documented grammar asks for bare words throughout, while the
parser does not look at all of them.

What the parser takes beyond the grammar can be told from two neighbouring tokens: an
operator behind a parenthesis or behind a comparison operator, and a star that is
neither the argument of an aggregate nor the `SELECT` list. Where no two tokens are so
(`WellPlaced`), the words that the parser takes are those of the grammar.
-/

namespace CeQuery

namespace Sql

/-- A word that is neither an operator nor a punctuation mark, the star included. -/
def Bare (w : String) : Prop :=
  w ∉ operators

instance {w : String} : Decidable (Bare w) :=
  inferInstanceAs (Decidable (w ∉ operators))

/-- The words that may stand where neither a keyword nor an operator is due. -/
structure Lexicon where
  name : String → Prop
  countArg : String → Prop
  fieldArg : String → Prop
  literal : String → Prop

/-- The signed 64-bit integer that a word spells. -/
def integerOf (w : String) : Option I64 :=
  (Text.signed w.toList).bind BoundedInt.narrow

/-- What a bare word stands for as a literal: a constant, else an integer, else another
number, else itself. -/
inductive WordValue (w : String) : Value → Prop where
  | null (kw : eqKeyword "null" w = true) : WordValue w .null
  | bool {b : Bool} (kw : eqKeyword (toString b) w = true) : WordValue w (.bool b)
  | int {n : I64} (reads : integerOf w = some n) : WordValue w (.ofI64 n)
  | float {x : F64} (wide : integerOf w = none) (reads : Decimal.parse w.toList = some x) :
      WordValue w (.ofF64 x)
  | text (constant : ∀ kw ∈ ["true", "false", "null"], eqKeyword kw w = false)
      (int : integerOf w = none) (number : Decimal.parse w.toList = none) :
      WordValue w (.string w)

namespace Lexicon

/-- The documented grammar: bare words throughout, and `COUNT(*)` only. -/
def documented : Lexicon where
  name := Bare
  countArg w := w = "*"
  fieldArg := Bare
  literal := Bare

/-- The argument of `COUNT` is ignored, so it may be any bare word. -/
def intended : Lexicon where
  name := Bare
  countArg w := w = "*" ∨ Bare w
  fieldArg := Bare
  literal := Bare

/-- The words that the parser takes. -/
def accepted : Lexicon where
  name w := isOperator w = false
  countArg _ := True
  fieldArg w := w ≠ "*"
  literal _ := True

variable (G : Lexicon)

inductive Literal : Value → Tok → Prop where
  | quoted (s : String) : Literal (.string s) (.str s)
  | word {w : String} {value : Value} (bare : G.literal w) (denotes : WordValue w value) :
      Literal value (.word w)

inductive Term : Predicate → List Tok → Prop where
  | cmp {field o : String} {op : CmpOp} {value : Value} {t : Tok} (name : G.name field)
      (operator : o ∈ opWords op) (literal : G.Literal value t) :
      Term (.cmp field op value) [.word field, .word o, t]
  | not {w field o : String} {op : CmpOp} {value : Value} {t : Tok}
      (kw : eqKeyword "NOT" w = true) (name : G.name field) (operator : o ∈ opWords op)
      (literal : G.Literal value t) :
      Term (.not (.cmp field op value)) [.word w, .word field, .word o, t]

/-- `AND` and `OR` have the same precedence and associate to the left. -/
inductive Chain : Predicate → List Tok → Prop where
  | term {p : Predicate} {us : List Tok} (term : G.Term p us) : Chain p us
  | and {a b : Predicate} {us vs : List Tok} {w : String} (left : Chain a us)
      (kw : eqKeyword "AND" w = true) (right : G.Term b vs) : Chain (.and a b) (us ++ .word w :: vs)
  | or {a b : Predicate} {us vs : List Tok} {w : String} (left : Chain a us)
      (kw : eqKeyword "OR" w = true) (right : G.Term b vs) : Chain (.or a b) (us ++ .word w :: vs)

inductive Call : Agg → List Tok → Prop where
  | count {w arg : String} (kw : eqKeyword "COUNT" w = true) (admitted : G.countArg arg) :
      Call .count [.word w, .word "(", .word arg, .word ")"]
  | field {agg : Agg} {w : String} (field : agg ≠ .count)
      (kw : eqKeyword (aggKeyword agg) w = true) (admitted : G.fieldArg (aggArg agg)) :
      Call agg [.word w, .word "(", .word (aggArg agg), .word ")"]

inductive Column : String → List Tok → Prop where
  | name {col : String} (name : G.name col) : Column col [.word col]

inductive Key : OrderKey → List Tok → Prop where
  | ascending {column : String} (name : G.name column) :
      Key { column, dir := .asc } [.word column]
  | directed {column w : String} {dir : OrderDir} (name : G.name column)
      (kw : eqKeyword (dirKeyword dir) w = true) : Key { column, dir } [.word column, .word w]

/-- The query is a projection to these columns, or to all if there are none. -/
structure Projects (q : Query) (cols : List String) : Prop where
  projection : q.projection = some cols
  aggregates : q.aggregates = []
  groupBy : q.groupBy = []

/-- A star stands alone. -/
inductive Select (q : Query) : List Tok → Prop where
  | aggregates {us : List Tok} (shape : q.projection = none)
      (list : SepBy G.Call isComma q.aggregates us) : Select q us
  | star (shape : Projects q []) : Select q [.word "*"]
  | columns {cols : List String} {us : List Tok} (shape : Projects q cols)
      (list : SepBy G.Column isComma cols us) (first : us.head? ≠ some (.word "*")) : Select q us

inductive Where : Predicate → List Tok → Prop where
  | absent : Where .true []
  | present {p : Predicate} {w : String} {us : List Tok} (kw : eqKeyword "WHERE" w = true)
      (chain : G.Chain p us) : Where p (.word w :: us)

/-- A list behind `BY`, if there is one. -/
inductive ByClause {α : Type} (first : String) (S : α → List Tok → Prop) :
    List α → List Tok → Prop where
  | absent : ByClause first S [] []
  | present {as : List α} {w w' : String} {us : List Tok} (kw : eqKeyword first w = true)
      (kw' : eqKeyword "BY" w' = true) (list : SepBy S isComma as us) :
      ByClause first S as (.word w :: .word w' :: us)

def Group : List String → List Tok → Prop :=
  ByClause "GROUP" G.Column

def Order : List OrderKey → List Tok → Prop :=
  ByClause "ORDER" G.Key

inductive Limit : Option Usize → List Tok → Prop where
  | absent : Limit none []
  | present {n : Usize} {w w' : String} (kw : eqKeyword "LIMIT" w = true) (name : G.name w')
      (reads : (Text.unsigned w'.toList).bind BoundedInt.narrow = some n) :
      Limit (some n) [.word w, .word w']

/-- The tokens denote the query. -/
inductive Derives (q : Query) : List Tok → Prop where
  | query {w w' : String} {ss ps gs os ls : List Tok} (kw : eqKeyword "SELECT" w = true)
      (select : G.Select q ss) (kw' : eqKeyword "FROM" w' = true) (name : G.name q.dataset)
      (predicate : G.Where q.predicate ps) (group : G.Group q.groupBy gs)
      (order : G.Order q.orderBy os) (limit : G.Limit q.limit ls) :
      Derives q (.word w :: (ss ++ .word w' :: .word q.dataset :: (ps ++ (gs ++ (os ++ ls)))))

end Lexicon

/-! ## Neighbouring tokens -/

/-- The tokens behind which an argument or a literal is due. -/
def opening : List Tok :=
  ("(" :: comparisons).map .word

/-- The tokens behind which a star may stand. -/
def mayStar (t : Tok) : Bool :=
  t = .word "(" || isKw "SELECT" [t]

def isMark : Tok → Bool
  | .word w => isOperator w
  | .str _ => false

/-- No operator is an argument or a literal, and a star is an argument or the whole
`SELECT` list. -/
def Follows (t u : Tok) : Prop :=
  (t ∈ opening → isMark u = false) ∧ (u = .word "*" → mayStar t = true)

instance {t u : Tok} : Decidable (Follows t u) :=
  inferInstanceAs (Decidable (_ ∧ _))

/-- The neighbouring tokens of a text are as in the grammar. -/
def WellPlaced (ts : List Tok) : Prop :=
  ts.IsChain Follows

instance {ts : List Tok} : Decidable (WellPlaced ts) :=
  inferInstanceAs (Decidable (ts.IsChain Follows))

section Words

variable {kw w : String} {t : Tok} {us vs : List Tok}

theorem bare_iff : Bare w ↔ isOperator w = false ∧ w ≠ "*" := by
  simp only [Bare, operators, isOperator, decide_eq_false_iff_not, List.mem_cons,
    List.not_mem_nil, or_false, not_or, and_assoc, ne_eq]

theorem bare_of_isWord (h : IsWord w.toList) : Bare w := by
  refine bare_iff.mpr ⟨not_isOperator h, ?_⟩
  rintro rfl
  exact absurd h (by decide)

theorem bare_of_eqKeyword (h : eqKeyword kw w = true) (hkw : IsWord kw.toList) : Bare w :=
  bare_of_isWord (isWord_of_eqKeyword h hkw)

/-- Behind no keyword but `SELECT` may a star stand. -/
theorem mayStar_of_eqKeyword (h : eqKeyword kw w = true)
    (hkw : kw ∈ ["FROM", "WHERE", "NOT", "AND", "OR", "BY"]) : mayStar (.word w) = false := by
  have hall : ∀ kw ∈ ["FROM", "WHERE", "NOT", "AND", "OR", "BY"], IsWord kw.toList ∧
      kw.toList.map Text.asciiLower ≠ "SELECT".toList.map Text.asciiLower := by decide
  obtain ⟨hword, hne⟩ := hall kw hkw
  have hbare := bare_of_eqKeyword h hword
  rw [mayStar, Bool.or_eq_false_iff, decide_eq_false_iff_not, isKw, Bool.eq_false_iff]
  refine ⟨?_, fun hselect => hne (eqKeyword_unique h hselect)⟩
  rintro ⟨⟩
  exact absurd hbare (by decide)

/-- A name that may stand behind a token other than a parenthesis and `SELECT` is no
star. -/
theorem Follows.bare (h : Follows t (.word w)) (ht : mayStar t = false)
    (hw : isOperator w = false) : Bare w := by
  refine bare_iff.mpr ⟨hw, ?_⟩
  rintro rfl
  exact absurd (h.2 rfl) (Bool.eq_false_iff.mp ht)

end Words

end Sql

end CeQuery
