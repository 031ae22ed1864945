import CeQuery.Foundation.Reader
import CeQuery.Query.Basic
import CeQuery.Sql.Token

/-!
# The parser of the SQL dialect

A query is read from its tokens from left to right, each clause by its own function.
Keywords are recognised in any letter case and only where one is expected, so they
can be used as names. `AND` and `OR` bind alike and to the left, and a predicate has
no parentheses.
-/

namespace CeQuery

/-- The value of a signed 64-bit integer. -/
def Value.ofI64 (n : I64) : Value :=
  if h : 0 ≤ n.val then .number (.posInt ⟨n.val, h, Int.le_trans n.le_hi (by decide)⟩)
  else .number (.negInt ⟨n.val, n.lo_le, by omega⟩)

namespace Sql

/-- The tokens that no name, number or argument can be. The star is not among them. -/
def isOperator (w : String) : Bool :=
  w ∈ ["=", "!=", "<>", "<", "<=", ">", ">=", ",", "(", ")"]

/-- The word is the keyword, in any letter case. -/
def eqKeyword (kw w : String) : Bool :=
  Text.eqIgnoreAsciiCase w.toList kw.toList

/-- The next token is the keyword. -/
def isKw (kw : String) : List Tok → Bool
  | .word w :: _ => eqKeyword kw w
  | _ => false

/-- The next token is the given operator. -/
def isWord (op : String) : List Tok → Bool
  | .word w :: _ => w == op
  | _ => false

def expectKw (kw : String) : List Tok → Except SqlError (List Tok)
  | .word w :: ts => if eqKeyword kw w then .ok ts else .error (.expected kw (some (.word w)))
  | ts => .error (.expected kw ts.head?)

def expectWord (op : String) : List Tok → Except SqlError (List Tok)
  | .word w :: ts => if w = op then .ok ts else .error (.expected op (some (.word w)))
  | ts => .error (.expected op ts.head?)

/-- Take the keyword if it is next. -/
def optionalKw (kw : String) (ts : List Tok) : Except SqlError (Bool × List Tok) :=
  if isKw kw ts then do
    let ts ← expectKw kw ts
    .ok (true, ts)
  else .ok (false, ts)

/-- Take a bare word, which is no operator. -/
def nextWord (message : String) : Reader Tok SqlError String
  | .word w :: ts => if isOperator w then .error (.missing message) else .ok (w, ts)
  | _ => .error (.missing message)

/-- A comma separates the items of a list. -/
def isComma (t : Tok) : Bool :=
  t = .word ","

section Inversion

variable {kw op w message : String} {ts rest : List Tok}

theorem nextWord_eq (h : nextWord message ts = .ok (w, rest)) :
    ts = .word w :: rest ∧ isOperator w = false := by
  unfold nextWord at h
  split at h
  · split at h
    · cases h
    · rename_i hw
      cases h
      exact ⟨rfl, Bool.eq_false_iff.mpr hw⟩
  · cases h

theorem expectKw_eq (h : expectKw kw ts = .ok rest) :
    ∃ w, ts = .word w :: rest ∧ eqKeyword kw w = true := by
  unfold expectKw at h
  split at h
  · split at h
    · rename_i hkw
      cases h
      exact ⟨_, rfl, hkw⟩
    · cases h
  · cases h

theorem expectWord_eq (h : expectWord op ts = .ok rest) : ts = .word op :: rest := by
  unfold expectWord at h
  split at h
  · split at h
    · rename_i hw
      cases h
      rw [hw]
    · cases h
  · cases h

/-- Only the keyword is taken. -/
theorem optionalKw_eq {found : Bool} (h : optionalKw kw ts = .ok (found, rest)) :
    (found = true ∧ ∃ w, ts = .word w :: rest ∧ eqKeyword kw w = true) ∨
      (found = false ∧ ts = rest) := by
  unfold optionalKw at h
  split at h
  · obtain ⟨rest', hkw, heq⟩ := bind_eq_ok_iff.mp h
    cases heq
    exact .inl ⟨rfl, expectKw_eq hkw⟩
  · cases h
    exact .inr ⟨rfl, rfl⟩

theorem nextWord_shorter (h : nextWord message ts = .ok (w, rest)) : rest.length < ts.length := by
  rw [(nextWord_eq h).1]
  exact Nat.lt_succ_self _

end Inversion

def columns (message : String) : Reader Tok SqlError (List String) :=
  Item.sepBy ⟨nextWord message, nextWord_shorter⟩ isComma

/-! ## Aggregates -/

/-- The argument of an aggregate of a column is not the star. -/
def fieldArg (arg : String) : Except SqlError String :=
  if arg = "*" then .error .starArgument else .ok arg

/-- The aggregate of that name. The argument of `COUNT` is not looked at. -/
def aggregate (func arg : String) : Except SqlError Agg :=
  let name := String.ofList (func.toList.map Text.asciiUpper)
  if name = "COUNT" then .ok .count
  else if name = "SUM" then (fieldArg arg).map .sum
  else if name = "MIN" then (fieldArg arg).map .min
  else if name = "MAX" then (fieldArg arg).map .max
  else if name = "AVG" then (fieldArg arg).map .avg
  else .error (.unknownAggregate name)

def argument : Reader Tok SqlError String
  | .word w :: ts => .ok (w, ts)
  | ts => .error (.expectedArgument ts.head?)

def parseAgg (ts : List Tok) : Except SqlError (Agg × List Tok) := do
  let (func, ts) ← nextWord "expected an aggregate function in SELECT" ts
  let ts ← expectWord "(" ts
  let (arg, ts) ← argument ts
  let ts ← expectWord ")" ts
  let agg ← aggregate func arg
  .ok (agg, ts)

/-! ## Predicates -/

def parseOp : Reader Tok SqlError CmpOp
  | .word w :: ts =>
      if w = "=" then .ok (.eq, ts)
      else if w = "!=" ∨ w = "<>" then .ok (.ne, ts)
      else if w = "<" then .ok (.lt, ts)
      else if w = "<=" then .ok (.le, ts)
      else if w = ">" then .ok (.gt, ts)
      else if w = ">=" then .ok (.ge, ts)
      else .error (.unknownOperator w)
  | ts => .error (.expectedOperator ts.head?)

/-- The value of a bare word: a constant, else a number, else the word itself. -/
def literalFromWord (w : String) : Value :=
  let lower := w.toList.map Text.asciiLower
  if lower = "true".toList then .bool true
  else if lower = "false".toList then .bool false
  else if lower = "null".toList then .null
  else
    match (Text.signed w.toList).bind BoundedInt.narrow with
    | some n => .ofI64 n
    | none =>
        match Decimal.parse w.toList with
        | some x => .ofF64 x
        | none => .string w

def parseLiteral : Reader Tok SqlError Value
  | .str s :: ts => .ok (.string s, ts)
  | .word w :: ts => .ok (literalFromWord w, ts)
  | [] => .error (.missing "expected a literal value")

/-- A comparison, possibly negated. -/
def parseTerm (ts : List Tok) : Except SqlError (Predicate × List Tok) := do
  let (negate, ts) ← optionalKw "NOT" ts
  let (field, ts) ← nextWord "expected a column name in WHERE term" ts
  let (op, ts) ← parseOp ts
  let (value, ts) ← parseLiteral ts
  let cmp := Predicate.cmp field op value
  .ok (if negate then .not cmp else cmp, ts)

/-- `AND` or `OR` with the term after it, or neither. -/
def parseLink (ts : List Tok) : Except SqlError (Option (Predicate → Predicate) × List Tok) := do
  let (conjunction, ts) ← optionalKw "AND" ts
  if conjunction then
    let (right, ts) ← parseTerm ts
    .ok (some (.and · right), ts)
  else
    let (disjunction, ts) ← optionalKw "OR" ts
    if disjunction then
      let (right, ts) ← parseTerm ts
      .ok (some (.or · right), ts)
    else .ok (none, ts)

section Shorter

variable {kw op : String} {ts rest : List Tok}

theorem expectWord_shorter (h : expectWord op ts = .ok rest) : rest.length < ts.length := by
  rw [expectWord_eq h]
  exact Nat.lt_succ_self _

theorem optionalKw_shorter {found : Bool} (h : optionalKw kw ts = .ok (found, rest)) :
    rest.length ≤ ts.length := by
  obtain ⟨_, w, rfl, _⟩ | ⟨_, rfl⟩ := optionalKw_eq h
  · exact Nat.le_succ _
  · exact Nat.le_refl _

theorem argument_eq {arg : String} (h : argument ts = .ok (arg, rest)) :
    ts = .word arg :: rest := by
  unfold argument at h
  split at h
  · cases h
    rfl
  · cases h

theorem argument_shorter {arg : String} (h : argument ts = .ok (arg, rest)) :
    rest.length < ts.length := by
  rw [argument_eq h]
  exact Nat.lt_succ_self _

theorem parseAgg_shorter {agg : Agg} (h : parseAgg ts = .ok (agg, rest)) :
    rest.length < ts.length := by
  obtain ⟨⟨func, ts₁⟩, hfunc, h⟩ := bind_eq_ok_iff.mp h
  obtain ⟨ts₂, hopen, h⟩ := bind_eq_ok_iff.mp h
  obtain ⟨⟨arg, ts₃⟩, harg, h⟩ := bind_eq_ok_iff.mp h
  obtain ⟨ts₄, hclose, h⟩ := bind_eq_ok_iff.mp h
  obtain ⟨agg', _, h⟩ := bind_eq_ok_iff.mp h
  cases h
  have := nextWord_shorter hfunc
  have := expectWord_shorter hopen
  have := argument_shorter harg
  have := expectWord_shorter hclose
  omega

theorem parseOp_shorter {cmp : CmpOp} (h : parseOp ts = .ok (cmp, rest)) :
    rest.length < ts.length := by
  unfold parseOp at h
  split at h
  · rename_i w ts
    suffices hrest : rest = ts by
      rw [hrest]
      exact Nat.lt_succ_self _
    grind
  · cases h

theorem parseLiteral_shorter {value : Value} (h : parseLiteral ts = .ok (value, rest)) :
    rest.length < ts.length := by
  unfold parseLiteral at h
  split at h <;> cases h <;> exact Nat.lt_succ_self _

theorem parseTerm_shorter {p : Predicate} (h : parseTerm ts = .ok (p, rest)) :
    rest.length < ts.length := by
  obtain ⟨⟨negate, ts₁⟩, hnot, h⟩ := bind_eq_ok_iff.mp h
  obtain ⟨⟨field, ts₂⟩, hfield, h⟩ := bind_eq_ok_iff.mp h
  obtain ⟨⟨op, ts₃⟩, hop, h⟩ := bind_eq_ok_iff.mp h
  obtain ⟨⟨value, ts₄⟩, hvalue, h⟩ := bind_eq_ok_iff.mp h
  cases h
  have := optionalKw_shorter hnot
  have := nextWord_shorter hfield
  have := parseOp_shorter hop
  have := parseLiteral_shorter hvalue
  omega

theorem parseLink_shorter {f : Predicate → Predicate} (h : parseLink ts = .ok (some f, rest)) :
    rest.length < ts.length := by
  obtain ⟨⟨conjunction, ts₁⟩, hand, h⟩ := bind_eq_ok_iff.mp h
  have hle := optionalKw_shorter hand
  dsimp only at h
  split at h
  · obtain ⟨⟨right, ts₂⟩, hterm, h⟩ := bind_eq_ok_iff.mp h
    cases h
    exact Nat.lt_of_lt_of_le (parseTerm_shorter hterm) hle
  · obtain ⟨⟨disjunction, ts₂⟩, hor, h⟩ := bind_eq_ok_iff.mp h
    have hle' := Nat.le_trans (optionalKw_shorter hor) hle
    dsimp only at h
    split at h
    · obtain ⟨⟨right, ts₃⟩, hterm, h⟩ := bind_eq_ok_iff.mp h
      cases h
      exact Nat.lt_of_lt_of_le (parseTerm_shorter hterm) hle'
    · cases h

end Shorter

def parseAggList : Reader Tok SqlError (List Agg) :=
  Item.sepBy ⟨parseAgg, parseAgg_shorter⟩ isComma

/-- Terms joined by `AND` and `OR`, from left to right. -/
def parsePredicate (ts : List Tok) : Except SqlError (Predicate × List Tok) := do
  let (left, ts) ← parseTerm ts
  Link.chain ⟨parseLink, parseLink_shorter⟩ left ts

/-! ## Clauses -/

/-- A column with its direction, which is ascending by default. -/
def parseOrderKey (ts : List Tok) : Except SqlError (OrderKey × List Tok) := do
  let (column, ts) ← nextWord "expected a column after ORDER BY" ts
  let (asc, ts) ← optionalKw "ASC" ts
  if asc then .ok ({ column, dir := .asc }, ts)
  else
    let (desc, ts) ← optionalKw "DESC" ts
    .ok ({ column, dir := if desc then .desc else .asc }, ts)

theorem parseOrderKey_shorter {ts rest : List Tok} {key : OrderKey}
    (h : parseOrderKey ts = .ok (key, rest)) : rest.length < ts.length := by
  obtain ⟨⟨column, ts₁⟩, hcolumn, h⟩ := bind_eq_ok_iff.mp h
  obtain ⟨⟨asc, ts₂⟩, hasc, h⟩ := bind_eq_ok_iff.mp h
  have hlt := Nat.lt_of_le_of_lt (optionalKw_shorter hasc) (nextWord_shorter hcolumn)
  dsimp only at h
  split at h
  · cases h
    exact hlt
  · obtain ⟨⟨desc, ts₃⟩, hdesc, h⟩ := bind_eq_ok_iff.mp h
    cases h
    exact Nat.lt_of_le_of_lt (optionalKw_shorter hdesc) hlt

def parseOrderBy (ts : List Tok) : Except SqlError (List OrderKey × List Tok) := do
  let ts ← expectKw "ORDER" ts
  let ts ← expectKw "BY" ts
  Item.sepBy ⟨parseOrderKey, parseOrderKey_shorter⟩ isComma ts

def parseLimit (ts : List Tok) : Except SqlError (Usize × List Tok) := do
  let ts ← expectKw "LIMIT" ts
  let (w, ts) ← nextWord "expected a number after LIMIT" ts
  match (Text.unsigned w.toList).bind BoundedInt.narrow with
  | some n => .ok (n, ts)
  | none => .error (.badLimit w)

/-- Either aggregates or the columns of a projection; no columns for `*`. -/
inductive SelectList where
  | aggregates (aggs : List Agg)
  | projection (cols : List String)

/-- An aggregate begins with a name and a parenthesis. -/
def isAggFirst : List Tok → Bool
  | .word w :: .word w' :: _ => !isOperator w && w' == "("
  | _ => false

def parseSelectList (ts : List Tok) : Except SqlError (SelectList × List Tok) :=
  if isWord "*" ts then .ok (.projection [], ts.tail)
  else if isAggFirst ts then do
    let (aggs, ts) ← parseAggList ts
    .ok (.aggregates aggs, ts)
  else do
    let (cols, ts) ← columns "expected a column name in SELECT" ts
    .ok (.projection cols, ts)

/-- The filter, if there is one. -/
def parseWhere (ts : List Tok) : Except SqlError (Predicate × List Tok) := do
  let (found, ts) ← optionalKw "WHERE" ts
  if found then parsePredicate ts else .ok (.true, ts)

/-- The group keys, if there are any. -/
def parseGroupBy (ts : List Tok) : Except SqlError (List String × List Tok) := do
  let (found, ts) ← optionalKw "GROUP" ts
  if found then
    let ts ← expectKw "BY" ts
    columns "expected column after GROUP BY" ts
  else .ok ([], ts)

/-- The order, if there is one. -/
def optionalOrderBy (ts : List Tok) : Except SqlError (List OrderKey × List Tok) :=
  if isKw "ORDER" ts then parseOrderBy ts else .ok ([], ts)

/-- The limit, if there is one. -/
def optionalLimit (ts : List Tok) : Except SqlError (Option Usize × List Tok) :=
  if isKw "LIMIT" ts then (parseLimit ts).map fun (n, ts) => (some n, ts) else .ok (none, ts)

def parseQuery (ts : List Tok) : Except SqlError (Query × List Tok) := do
  let ts ← expectKw "SELECT" ts
  let (select, ts) ← parseSelectList ts
  let ts ← expectKw "FROM" ts
  let (dataset, ts) ← nextWord "expected dataset name after FROM" ts
  let (predicate, ts) ← parseWhere ts
  let (groupBy, ts) ← parseGroupBy ts
  let (orderBy, ts) ← optionalOrderBy ts
  let (limit, ts) ← optionalLimit ts
  match select with
  | .aggregates aggregates =>
      .ok ({ dataset, aggregates, predicate, groupBy, orderBy, limit, projection := none }, ts)
  | .projection cols =>
      if groupBy ≠ [] then .error .groupedProjection
      else
        .ok ({ dataset, aggregates := [], predicate, groupBy := [], orderBy, limit,
               projection := some cols }, ts)

/-- Parse a text into a valid query. -/
def parse (input : String) : Except SqlError Query := do
  let tokens ← tokenize input
  let (q, rest) ← parseQuery tokens
  match rest with
  | .word w :: _ => .error (.trailing (some w))
  | .str _ :: _ => .error (.trailing none)
  | [] => do
    q.validate.mapError .invalid
    .ok q

end Sql

end CeQuery
