import CeQuery.Sql.Parser

/-!
# Printed queries

The tokens of a query are those of the grammar, in any letter case of the keywords,
and a text of them has whitespace between any two. How a query is printed is
therefore a relation: a direction may be left out, `!=` may be `<>`, a quoted string
has a choice of quotes, and a floating point number of texts.

Everything that is printed consists of bare words, operators and quoted strings, so
the tokens can be told from the text (`scan_spaced`).
-/

namespace CeQuery

namespace Sql

/-! ## Tokens of a query -/

/-- Floating point numbers have a point or an exponent. -/
inductive LiteralTok : Value → Tok → Prop where
  | null {w : String} (kw : eqKeyword "null" w = true) : LiteralTok .null (.word w)
  | bool {b : Bool} {w : String} (kw : eqKeyword (toString b) w = true) :
      LiteralTok (.bool b) (.word w)
  | int (n : I64) : LiteralTok (.ofI64 n) (.word (toString n.val))
  | float {x : FiniteF64} {w : String} (point : ∃ c ∈ ['.', 'e', 'E'], c ∈ w.toList)
      (reads : Decimal.parse w.toList = some x.val) : LiteralTok (.number (.float x)) (.word w)
  | string (s : String) : LiteralTok (.string s) (.str s)

def opWords : CmpOp → List String
  | .eq => ["="]
  | .ne => ["!=", "<>"]
  | .lt => ["<"]
  | .le => ["<="]
  | .gt => [">"]
  | .ge => [">="]

def comparisons : List String :=
  ["=", "!=", "<>", "<", "<=", ">", ">="]

theorem mem_comparisons {w : String} {op : CmpOp} (h : w ∈ opWords op) : w ∈ comparisons := by
  have hall : ∀ op ∈ [CmpOp.eq, .ne, .lt, .le, .gt, .ge], ∀ w ∈ opWords op, w ∈ comparisons := by
    decide
  exact hall op (by cases op <;> decide) w h

inductive TermToks : Predicate → List Tok → Prop where
  | cmp {field o : String} {op : CmpOp} {value : Value} {t : Tok} (operator : o ∈ opWords op)
      (literal : LiteralTok value t) :
      TermToks (.cmp field op value) [.word field, .word o, t]
  | not {w field o : String} {op : CmpOp} {value : Value} {t : Tok}
      (kw : eqKeyword "NOT" w = true) (operator : o ∈ opWords op)
      (literal : LiteralTok value t) :
      TermToks (.not (.cmp field op value)) [.word w, .word field, .word o, t]

/-- Chains are nested to the left. -/
inductive ChainToks : Predicate → List Tok → Prop where
  | term {p : Predicate} {us : List Tok} (term : TermToks p us) : ChainToks p us
  | and {a b : Predicate} {us vs : List Tok} {w : String} (left : ChainToks a us)
      (kw : eqKeyword "AND" w = true) (right : TermToks b vs) :
      ChainToks (.and a b) (us ++ .word w :: vs)
  | or {a b : Predicate} {us vs : List Tok} {w : String} (left : ChainToks a us)
      (kw : eqKeyword "OR" w = true) (right : TermToks b vs) :
      ChainToks (.or a b) (us ++ .word w :: vs)

def aggKeyword : Agg → String
  | .count => "COUNT"
  | .sum _ => "SUM"
  | .min _ => "MIN"
  | .max _ => "MAX"
  | .avg _ => "AVG"

def aggArg : Agg → String
  | .count => "*"
  | .sum f | .min f | .max f | .avg f => f

inductive AggToks (agg : Agg) : List Tok → Prop where
  | call {w : String} (kw : eqKeyword (aggKeyword agg) w = true) :
      AggToks agg [.word w, .word "(", .word (aggArg agg), .word ")"]

inductive ColumnToks (col : String) : List Tok → Prop where
  | name : ColumnToks col [.word col]

def dirKeyword : OrderDir → String
  | .asc => "ASC"
  | .desc => "DESC"

inductive OrderKeyToks : OrderKey → List Tok → Prop where
  | ascending (column : String) : OrderKeyToks { column, dir := .asc } [.word column]
  | directed {column w : String} {dir : OrderDir} (kw : eqKeyword (dirKeyword dir) w = true) :
      OrderKeyToks { column, dir } [.word column, .word w]

inductive SelectToks (q : Query) : List Tok → Prop where
  | aggregates {us : List Tok} (shape : q.projection = none)
      (list : SepBy AggToks isComma q.aggregates us) : SelectToks q us
  | star (shape : q.projection = some []) : SelectToks q [.word "*"]
  | columns {cols : List String} {us : List Tok} (shape : q.projection = some cols)
      (list : SepBy ColumnToks isComma cols us) : SelectToks q us

inductive WhereToks : Predicate → List Tok → Prop where
  | absent : WhereToks .true []
  | present {p : Predicate} {w : String} {us : List Tok} (kw : eqKeyword "WHERE" w = true)
      (chain : ChainToks p us) : WhereToks p (.word w :: us)

inductive GroupToks : List String → List Tok → Prop where
  | absent : GroupToks [] []
  | present {cols : List String} {w w' : String} {us : List Tok}
      (kw : eqKeyword "GROUP" w = true) (kw' : eqKeyword "BY" w' = true)
      (list : SepBy ColumnToks isComma cols us) : GroupToks cols (.word w :: .word w' :: us)

inductive OrderToks : List OrderKey → List Tok → Prop where
  | absent : OrderToks [] []
  | present {keys : List OrderKey} {w w' : String} {us : List Tok}
      (kw : eqKeyword "ORDER" w = true) (kw' : eqKeyword "BY" w' = true)
      (list : SepBy OrderKeyToks isComma keys us) : OrderToks keys (.word w :: .word w' :: us)

inductive LimitToks : Option Usize → List Tok → Prop where
  | absent : LimitToks none []
  | present {n : Usize} {w : String} (kw : eqKeyword "LIMIT" w = true) :
      LimitToks (some n) [.word w, .word (toString n.val)]

inductive QueryToks (q : Query) : List Tok → Prop where
  | query {w w' : String} {ss ps gs os ls : List Tok} (kw : eqKeyword "SELECT" w = true)
      (select : SelectToks q ss) (kw' : eqKeyword "FROM" w' = true)
      (predicate : WhereToks q.predicate ps) (group : GroupToks q.groupBy gs)
      (order : OrderToks q.orderBy os) (limit : LimitToks q.limit ls) :
      QueryToks q (.word w :: (ss ++ .word w' :: .word q.dataset :: (ps ++ (gs ++ (os ++ ls)))))

/-! ## Texts of tokens -/

/-- A quoted string is written in quotes that it does not contain. -/
inductive Written : Tok → List Char → Prop where
  | word (w : String) : Written (.word w) w.toList
  | str {s : String} {q : Char} (quote : isQuote q = true) (free : q ∉ s.toList) :
      Written (.str s) (q :: (s.toList ++ [q]))

/-- Tokens with whitespace between any two. -/
inductive Spaced : List Tok → List Char → Prop where
  | nil {gap : List Char} (space : ∀ c ∈ gap, Text.isWhitespace c = true) : Spaced [] gap
  | cons {t : Tok} {ts : List Tok} {gap cs rest : List Char}
      (space : ∀ c ∈ gap, Text.isWhitespace c = true) (token : Written t cs) (apart : Apart rest)
      (others : Spaced ts rest) : Spaced (t :: ts) (gap ++ (cs ++ rest))

theorem Spaced.after_space {ts : List Tok} {cs : List Char} (h : Spaced ts cs) :
    Spaced ts (' ' :: cs) := by
  cases h with
  | nil hspace => exact .nil (List.forall_mem_cons.mpr ⟨by decide, hspace⟩)
  | cons hspace htoken hapart hothers =>
      exact .cons (List.forall_mem_cons.mpr ⟨by decide, hspace⟩) htoken hapart hothers

/-- Tokens that are separated by single spaces. -/
theorem spaced_intercalate {ts : List Tok} {texts : List (List Char)}
    (h : List.Forall₂ Written ts texts) : Spaced ts ([' '].intercalate texts) := by
  induction h with
  | nil => exact .nil nofun
  | @cons t text ts texts htoken hothers ih =>
      cases texts with
      | nil =>
          cases hothers
          have hspaced : Spaced [t] ([] ++ (text ++ [])) :=
            .cons nofun htoken nofun (.nil nofun)
          rw [List.nil_append, List.append_nil] at hspaced
          rwa [List.intercalate_singleton]
      | cons text' texts =>
          have hspaced :
              Spaced (t :: ts) ([] ++ (text ++ ' ' :: [' '].intercalate (text' :: texts))) :=
            .cons nofun htoken (by rintro c ⟨⟩; decide) ih.after_space
          rwa [List.intercalate_cons_cons, List.append_assoc, List.singleton_append]

/-- The token is a bare word, an operator or a quoted string. -/
def Plain : Tok → Prop
  | .word w => IsWord w.toList ∨ w ∈ operators
  | .str _ => True

/-- The tokens of a text are told by the whitespace between them. -/
theorem scan_spaced {ts : List Tok} {cs : List Char} (h : Spaced ts cs)
    (hplain : ∀ t ∈ ts, Plain t) : scan cs = .ok ts := by
  induction h with
  | @nil gap hspace =>
      rw [← List.append_nil gap, scan_gap hspace, scan]
  | @cons t ts gap cs rest hspace htoken hapart _ ih =>
      obtain ⟨ht, hts⟩ := List.forall_mem_cons.mp hplain
      rw [scan_gap hspace]
      cases htoken with
      | word w =>
          rcases ht with hword | hoperator
          · rw [scan_word hword hapart, ih hts, String.ofList_toList]
            rfl
          · rw [scan_operator hoperator hapart.meets, ih hts]
            rfl
      | @str s q hquote hfree =>
          rw [List.cons_append, List.append_assoc, List.singleton_append, scan_quoted hquote hfree,
            ih hts, String.ofList_toList]
          rfl

end Sql

/-- The text is the query in SQL. -/
def Query.PrintedAs (q : Query) (text : String) : Prop :=
  ∃ ts, Sql.QueryToks q ts ∧ Sql.Spaced ts text.toList

end CeQuery
