import CeQuery.Foundation.Text

/-!
# Tokens of the SQL dialect

A text is cut into words, operators and quoted strings. Words and operators are one
kind of token, and a quoted string is another, so that a quoted value is never taken
for a keyword. A quoted string has no escapes: it ends with the next quote of its own
kind.
-/

namespace CeQuery

namespace Sql

/-- A token: a keyword, name, number or operator, or the contents of a quoted
string. -/
inductive Tok where
  | word (w : String)
  | str (s : String)
  deriving DecidableEq

/-- Why a text is not a query. -/
inductive SqlError where
  | unterminatedString
  /-- Another token was expected. -/
  | expected (kw : String) (found : Option Tok)
  /-- A name or a number was expected. -/
  | missing (message : String)
  | expectedArgument (found : Option Tok)
  | starArgument
  | unknownAggregate (name : String)
  | expectedOperator (found : Option Tok)
  | unknownOperator (w : String)
  | badLimit (w : String)
  | groupedProjection
  /-- The word at which the query was already complete; nothing if it is a string. -/
  | trailing (near : Option String)
  | invalid (reason : String)
  deriving DecidableEq

def isQuote (c : Char) : Bool :=
  c = '\'' || c = '"'

/-- The operators and punctuation of one character. -/
def isSymbol (c : Char) : Bool :=
  c ∈ ['=', '<', '>', ',', '(', ')', '*']

/-- The operators of two characters. -/
def isDouble (cs : List Char) : Bool :=
  cs ∈ [['<', '='], ['>', '='], ['!', '='], ['<', '>']]

/-- The characters that end a bare word. -/
def isDelimiter (c : Char) : Bool :=
  Text.isWhitespace c || isSymbol c || isQuote c

/-- Cut a text into tokens. -/
def scan : List Char → Except SqlError (List Tok)
  | [] => .ok []
  | c :: cs =>
      if Text.isWhitespace c then scan cs
      else if isQuote c then
        match _h : cs.dropWhile (· ≠ c) with
        | [] => .error .unterminatedString
        | _ :: rest => (scan rest).map (.str (String.ofList (cs.takeWhile (· ≠ c))) :: ·)
      else if isDouble (c :: cs.take 1) then
        (scan (cs.drop 1)).map (.word (String.ofList (c :: cs.take 1)) :: ·)
      else if isSymbol c then (scan cs).map (.word (String.ofList [c]) :: ·)
      -- A bare word: its first character is none that ends it.
      else
        (scan (cs.dropWhile (!isDelimiter ·))).map
          (.word (String.ofList (c :: cs.takeWhile (!isDelimiter ·))) :: ·)
termination_by cs => cs.length
decreasing_by
  · exact Nat.lt_succ_self _
  · have hle := (List.dropWhile_suffix (l := cs) (· ≠ c)).length_le
    rw [_h] at hle
    exact Nat.lt_succ_of_lt hle
  · exact Nat.lt_succ_of_le (List.length_drop ▸ Nat.sub_le ..)
  · exact Nat.lt_succ_self _
  · exact Nat.lt_succ_of_le (List.dropWhile_suffix _).length_le

def tokenize (input : String) : Except SqlError (List Tok) :=
  scan input.toList

/-! ## One token at a time -/

/-- A nonempty text without the characters that end a bare word. -/
def IsWord (cs : List Char) : Prop :=
  cs ≠ [] ∧ ∀ c ∈ cs, isDelimiter c = false

/-- The tokens of operators and punctuation. -/
def operators : List String :=
  ["=", "!=", "<>", "<", "<=", ">", ">=", ",", "(", ")", "*"]

/-- A text at whose front no token goes on. -/
def Apart (rest : List Char) : Prop :=
  ∀ c ∈ rest.head?, Text.isWhitespace c = true

/-- No operator of two characters goes across the end of a text. -/
def Meets (cs rest : List Char) : Prop :=
  ∀ c ∈ cs.getLast?, ∀ d ∈ rest.head?, isDouble [c, d] = false

section Scan

variable {c q : Char} {cs gap rest : List Char} {w : String}

theorem scan_gap (hgap : ∀ c ∈ gap, Text.isWhitespace c = true) : scan (gap ++ cs) = scan cs := by
  induction gap with
  | nil => rfl
  | cons c gap ih =>
      rw [List.cons_append, scan, if_pos (hgap c List.mem_cons_self)]
      exact ih fun c' hc' => hgap c' (List.mem_cons_of_mem c hc')

theorem not_whitespace_of_isQuote (hq : isQuote q = true) : Text.isWhitespace q = false := by
  simp only [isQuote, Bool.or_eq_true, decide_eq_true_eq] at hq
  obtain rfl | rfl := hq <;> decide

/-- A quoted string ends with the next quote. -/
theorem scan_quoted (hq : isQuote q = true) (hcs : q ∉ cs) :
    scan (q :: (cs ++ q :: rest)) = (scan rest).map (.str (String.ofList cs) :: ·) := by
  have hne : ∀ c ∈ cs, decide (c ≠ q) = true :=
    fun c hc => decide_eq_true (ne_of_mem_of_not_mem hc hcs)
  have hdrop : (cs ++ q :: rest).dropWhile (· ≠ q) = q :: rest := by
    rw [List.dropWhile_append_of_pos hne, List.dropWhile_cons_of_neg (by simp)]
  have htake : (cs ++ q :: rest).takeWhile (· ≠ q) = cs := by
    rw [List.takeWhile_append_of_pos hne, List.takeWhile_cons_of_neg (by simp), List.append_nil]
  rw [scan, not_whitespace_of_isQuote hq, if_neg Bool.false_ne_true, if_pos hq]
  split <;> rename_i heq <;> cases hdrop.symm.trans heq
  rw [htake]

theorem isSymbol_of_isDouble {d : Char} (h : isDouble [c, d] = true) : isSymbol d = true := by
  simp only [isDouble, decide_eq_true_eq, List.mem_cons, List.cons.injEq, and_true,
    List.not_mem_nil, or_false] at h
  obtain ⟨_, rfl⟩ | ⟨_, rfl⟩ | ⟨_, rfl⟩ | ⟨_, rfl⟩ := h <;> decide

theorem isSymbol_of_whitespace (h : Text.isWhitespace c = true) : isSymbol c = false := by
  rw [Bool.eq_false_iff]
  intro hsymbol
  simp only [isSymbol, decide_eq_true_eq, List.mem_cons, List.not_mem_nil, or_false] at hsymbol
  obtain rfl | rfl | rfl | rfl | rfl | rfl | rfl := hsymbol <;> exact absurd h (by decide)

/-- No operator of two characters begins at a character and goes on behind it. -/
theorem not_isDouble (h : ∀ d ∈ cs.head?, isDouble [c, d] = false) :
    isDouble (c :: cs.take 1) = false := by
  cases cs with
  | nil => simp [isDouble]
  | cons d cs => exact h d rfl

theorem Apart.meets (h : Apart rest) : Meets cs rest := by
  intro c _ d hd
  rw [Bool.eq_false_iff]
  intro hdouble
  exact Bool.eq_false_iff.mp (isSymbol_of_whitespace (h d hd)) (isSymbol_of_isDouble hdouble)

/-- A bare word ends with the next delimiter. -/
theorem scan_bare (hword : IsWord (c :: cs)) (hfirst : isDouble (c :: (cs ++ rest).take 1) = false)
    (hend : ∀ d ∈ rest.head?, isDelimiter d = true) :
    scan (c :: cs ++ rest) = (scan rest).map (.word (String.ofList (c :: cs)) :: ·) := by
  have hc := hword.2 c List.mem_cons_self
  simp only [isDelimiter, Bool.or_eq_false_iff] at hc
  have hcs : ∀ d ∈ cs, (!isDelimiter d) = true :=
    fun d hd => by rw [hword.2 d (List.mem_cons_of_mem c hd), Bool.not_false]
  have htake : (cs ++ rest).takeWhile (!isDelimiter ·) = cs := by
    rw [List.takeWhile_append_of_pos hcs]
    cases rest with
    | nil => rw [List.takeWhile_nil, List.append_nil]
    | cons d rest => rw [List.takeWhile_cons_of_neg (by simp [hend d rfl]), List.append_nil]
  have hdrop : (cs ++ rest).dropWhile (!isDelimiter ·) = rest := by
    rw [List.dropWhile_append_of_pos hcs]
    cases rest with
    | nil => rfl
    | cons d rest => rw [List.dropWhile_cons_of_neg (by simp [hend d rfl])]
  rw [List.cons_append, scan, hc.1.1, hc.2, hfirst, hc.1.2, htake, hdrop]
  rfl

theorem scan_word (hw : IsWord cs) (hrest : Apart rest) :
    scan (cs ++ rest) = (scan rest).map (.word (String.ofList cs) :: ·) := by
  obtain ⟨c, cs, rfl⟩ := List.exists_cons_of_ne_nil hw.1
  apply scan_bare hw
  · apply not_isDouble
    intro d hd
    rw [Bool.eq_false_iff]
    intro hdouble
    have hsymbol := isSymbol_of_isDouble hdouble
    rw [List.head?_append] at hd
    cases hhead : cs.head? with
    | none =>
        rw [hhead] at hd
        exact Bool.eq_false_iff.mp (isSymbol_of_whitespace (hrest d hd)) hsymbol
    | some d' =>
        rw [hhead] at hd
        cases hd
        have hd' := hw.2 d (List.mem_cons_of_mem c (List.mem_of_head? hhead))
        simp [isDelimiter, hsymbol] at hd'
  · intro d hd
    simp [isDelimiter, hrest d hd]

theorem scan_symbol (hc : isSymbol c = true) (hrest : Meets [c] rest) :
    scan (c :: rest) = (scan rest).map (.word (String.ofList [c]) :: ·) := by
  have hspace : Text.isWhitespace c = false := by
    rw [Bool.eq_false_iff]
    exact fun h => Bool.eq_false_iff.mp (isSymbol_of_whitespace h) hc
  have hquote : isQuote c = false := by
    simp only [isSymbol, decide_eq_true_eq, List.mem_cons, List.not_mem_nil, or_false] at hc
    obtain rfl | rfl | rfl | rfl | rfl | rfl | rfl := hc <;> decide
  rw [scan, hspace, hquote, not_isDouble (hrest c rfl), hc]
  rfl

theorem scan_double {d : Char} (h : isDouble [c, d] = true) :
    scan (c :: d :: rest) = (scan rest).map (.word (String.ofList [c, d]) :: ·) := by
  have hc : Text.isWhitespace c = false ∧ isQuote c = false := by
    simp only [isDouble, decide_eq_true_eq, List.mem_cons, List.cons.injEq, and_true,
      List.not_mem_nil, or_false] at h
    obtain ⟨rfl, _⟩ | ⟨rfl, _⟩ | ⟨rfl, _⟩ | ⟨rfl, _⟩ := h <;> decide
  have hpair : isDouble (c :: (d :: rest).take 1) = true := h
  rw [scan, hc.1, hc.2, hpair]
  rfl

theorem scan_operator (hw : w ∈ operators) (hrest : Meets w.toList rest) :
    scan (w.toList ++ rest) = (scan rest).map (.word w :: ·) := by
  simp only [operators, List.mem_cons, List.not_mem_nil, or_false] at hw
  obtain rfl | rfl | rfl | rfl | rfl | rfl | rfl | rfl | rfl | rfl | rfl := hw
  case inr.inl => exact scan_double rfl
  case inr.inr.inl => exact scan_double rfl
  case inr.inr.inr.inr.inl => exact scan_double rfl
  case inr.inr.inr.inr.inr.inr.inl => exact scan_double rfl
  all_goals exact scan_symbol rfl hrest

end Scan

end Sql

end CeQuery
