import CeQuery.Sql.RoundTrip

/-!
# Whitespace that may be left out

Only two bare words, and two operators whose characters would spell a longer one,
have to be separated. A `Layout` is a sequence of tokens with the whitespace that is
written between them.

The tokenizer ends a bare word at every character that begins an operator, except
at the exclamation mark: `a!=1` is the word `a!` and the operator `=`. A layout is
read back exactly if no bare word is followed by `!=` without whitespace
(`tokenize_layout_iff`).
-/

namespace CeQuery

namespace Sql

/-- A bare word of the grammar, without the characters of operators. -/
def IsBare (w : String) : Prop :=
  IsWord w.toList ∧ '!' ∉ w.toList

instance {w : String} : Decidable (IsBare w) :=
  inferInstanceAs (Decidable (_ ∧ _))

/-- A bare word, an operator or a quoted string. -/
def Lexical : Tok → Prop
  | .word w => IsBare w ∨ w ∈ operators
  | .str _ => True

instance {w : String} : Decidable (Lexical (.word w)) :=
  inferInstanceAs (Decidable (_ ∨ _))

/-- The tokens need no whitespace between them: they are not both bare words, and they
do not spell a longer operator. -/
def MayAbut : Tok → Tok → Prop
  | .word u, .word v => (u ∈ operators ∨ v ∈ operators) ∧ Meets u.toList v.toList
  | _, _ => True

instance {cs rest : List Char} : Decidable (Meets cs rest) :=
  decidable_of_iff ((cs.getLast?.all fun c => rest.head?.all fun d => !isDouble [c, d]) = true)
    (by simp [Meets, Option.all_eq_true])

instance : DecidableRel MayAbut
  | .word _, .word _ => inferInstanceAs (Decidable (_ ∧ _))
  | .word _, .str _ => .isTrue trivial
  | .str _, .word _ => .isTrue trivial
  | .str _, .str _ => .isTrue trivial

/-- A token in a text, with the whitespace before it. -/
structure Piece where
  gap : List Char
  tok : Tok
  text : List Char
  space : ∀ c ∈ gap, Text.isWhitespace c = true
  written : Written tok text
  lexical : Lexical tok

/-- Tokens one after another. -/
def spell (pieces : List Piece) (trailing : List Char) : List Char :=
  pieces.flatMap (fun a => a.gap ++ a.text) ++ trailing

/-- Tokens with the whitespace between them, and after the last one. -/
structure Layout where
  pieces : List Piece
  trailing : List Char
  space : ∀ c ∈ trailing, Text.isWhitespace c = true
  apart : pieces.IsChain fun a b => b.gap = [] → MayAbut a.tok b.tok

def Layout.toks (l : Layout) : List Tok :=
  l.pieces.map Piece.tok

def Layout.text (l : Layout) : String :=
  String.ofList (spell l.pieces l.trailing)

/-- A bare word with `!=` right behind it. -/
def TakesMark (a b : Piece) : Prop :=
  b.gap = [] ∧ b.tok = .word "!=" ∧ ∃ w, a.tok = .word w ∧ IsBare w

/-- No bare word is followed by `!=` without whitespace. -/
def Layout.KeepsMarks (l : Layout) : Prop :=
  l.pieces.IsChain fun a b => ¬TakesMark a b

/-! ## One token -/

/-- The token ends before this rest of the text. -/
def Stops : Tok → List Char → Prop
  | .word w, rest =>
      (IsBare w → ∀ d ∈ rest.head?, isDelimiter d = true) ∧ (w ∈ operators → Meets w.toList rest)
  | .str _, _ => True

section Pieces

variable {a b : Piece} {c : Char} {w : String} {cs rest trailing : List Char}
  {pieces : List Piece} {ts : List Tok}

/-- Two characters that spell an operator begin with one of `<`, `>` and `!`. -/
theorem not_isDouble_of_bare (h : isDelimiter c = false) (hmark : c ≠ '!') :
    isDouble (c :: cs) = false := by
  rw [Bool.eq_false_iff]
  intro hdouble
  simp only [isDouble, decide_eq_true_eq, List.mem_cons, List.cons.injEq, List.not_mem_nil,
    or_false] at hdouble
  obtain ⟨rfl, _⟩ | ⟨rfl, _⟩ | ⟨rfl, _⟩ | ⟨rfl, _⟩ := hdouble
  · exact absurd h (by decide)
  · exact absurd h (by decide)
  · exact hmark rfl
  · exact absurd h (by decide)

theorem isDelimiter_of_quote (h : isQuote c = true) : isDelimiter c = true := by
  simp [isDelimiter, h]

theorem isDelimiter_of_whitespace (h : Text.isWhitespace c = true) : isDelimiter c = true := by
  simp [isDelimiter, h]

/-- A bare word is read up to the next delimiter. -/
theorem scan_isBare (hw : IsBare w) (hend : ∀ d ∈ rest.head?, isDelimiter d = true) :
    scan (w.toList ++ rest) = (scan rest).map (.word w :: ·) := by
  obtain ⟨hword, hmark⟩ := hw
  obtain ⟨c, cs, hcs⟩ := List.exists_cons_of_ne_nil hword.1
  rw [hcs] at hword hmark ⊢
  have hc : c ≠ '!' := fun heq => hmark (heq ▸ List.mem_cons_self)
  have hfirst : isDouble (c :: (cs ++ rest).take 1) = false :=
    not_isDouble_of_bare (hword.2 c List.mem_cons_self) hc
  rw [scan_bare hword hfirst hend, ← hcs, String.ofList_toList]

theorem scan_piece (a : Piece) (h : Stops a.tok rest) :
    scan (a.gap ++ (a.text ++ rest)) = (scan rest).map (a.tok :: ·) := by
  rw [scan_gap a.space]
  obtain ⟨gap, tok, text, _, hwritten, hlexical⟩ := a
  cases hwritten with
  | word w =>
      obtain hbare | hoperator := hlexical
      · exact scan_isBare hbare (h.1 hbare)
      · exact scan_operator hoperator (h.2 hoperator)
  | @str s q hquote hfree =>
      change scan (q :: (s.toList ++ [q]) ++ rest) = _
      rw [List.cons_append, List.append_assoc, List.singleton_append, scan_quoted hquote hfree,
        String.ofList_toList]

theorem spell_cons : spell (a :: pieces) trailing = a.gap ++ (a.text ++ spell pieces trailing) := by
  rw [spell, List.flatMap_cons, List.append_assoc, List.append_assoc, spell]

/-! ## Two tokens -/

theorem Apart.stops {t : Tok} (h : Apart rest) : Stops t rest := by
  cases t with
  | word w => exact ⟨fun _ d hd => isDelimiter_of_whitespace (h d hd), fun _ => h.meets⟩
  | str s => trivial

/-- A quote ends every token. -/
theorem stops_quote {t : Tok} {q : Char} (hq : isQuote q = true) : Stops t (q :: rest) := by
  cases t with
  | str s => trivial
  | word w =>
      refine ⟨?_, fun _ => ?_⟩
      · rintro _ d ⟨⟩
        exact isDelimiter_of_quote hq
      · rintro c _ d ⟨⟩
        rw [Bool.eq_false_iff]
        intro hdouble
        have hsymbol := isSymbol_of_isDouble hdouble
        simp only [isQuote, Bool.or_eq_true, decide_eq_true_eq] at hq
        obtain rfl | rfl := hq <;> exact absurd hsymbol (by decide)

/-- An operator that does not begin with an exclamation mark ends a bare word. -/
theorem isDelimiter_of_operator {v : String} (hv : v ∈ operators) (hmark : v ≠ "!=") :
    ∀ d ∈ (v.toList ++ rest).head?, isDelimiter d = true := by
  have hall : ∀ v ∈ operators, v ≠ "!=" →
      v.toList ≠ [] ∧ v.toList.head?.all isDelimiter = true := by decide
  obtain ⟨hne, hfirst⟩ := hall v hv hmark
  rw [List.head?_append_of_ne_nil _ hne]
  exact (Option.all_eq_true _ _).mp hfirst

theorem Lexical.ne_nil {v : String} (h : Lexical (.word v)) : v.toList ≠ [] := by
  have hall : ∀ v ∈ operators, v.toList ≠ [] := by decide
  obtain hbare | hoperator := h
  · exact hbare.1.1
  · exact hall v hoperator

/-- A bare word is no operator. -/
theorem IsBare.not_operator (h : IsBare w) : w ∉ operators := by
  have hall : ∀ w ∈ operators, ¬IsWord w.toList := by decide
  exact fun hoperator => hall w hoperator h.1

theorem stops_word {u v : String} (hv : Lexical (.word v)) (hnext : MayAbut (.word u) (.word v))
    (hkeeps : ¬(v = "!=" ∧ IsBare u)) : Stops (.word u) (v.toList ++ rest) := by
  obtain ⟨hoperator, hmeets⟩ := hnext
  refine ⟨fun hbare => ?_, fun _ c hc d hd => ?_⟩
  · have hv : v ∈ operators := hoperator.resolve_left hbare.not_operator
    exact isDelimiter_of_operator hv fun heq => hkeeps ⟨heq, hbare⟩
  · rw [List.head?_append_of_ne_nil _ hv.ne_nil] at hd
    exact hmeets c hc d hd

/-- A token ends before the next one, unless it is a bare word that takes the
exclamation mark. -/
theorem stops_next (hnext : b.gap = [] → MayAbut a.tok b.tok) (hkeeps : ¬TakesMark a b) :
    Stops a.tok (spell (b :: pieces) trailing) := by
  rw [spell_cons]
  obtain ⟨gap, tok, text, hspace, hwritten, hlexical⟩ := b
  cases gap with
  | cons c gap =>
      apply Apart.stops
      rintro d ⟨⟩
      exact hspace c List.mem_cons_self
  | nil =>
      cases hwritten with
      | str hquote hfree => exact stops_quote hquote
      | word v =>
          cases hu : a.tok with
          | str s => trivial
          | word u =>
              apply stops_word hlexical
              · exact hu ▸ hnext rfl
              · exact fun htakes => hkeeps ⟨rfl, congrArg Tok.word htakes.1, u, hu, htakes.2⟩

/-- A bare word with `!=` behind it takes the exclamation mark. -/
theorem scan_mark (hw : IsBare w) : scan (w.toList ++ ("!=".toList ++ rest)) =
    (scan ('=' :: rest)).map (.word (String.ofList (w.toList ++ ['!'])) :: ·) := by
  obtain ⟨hword, hfree⟩ := hw
  obtain ⟨c, cs, hcs⟩ := List.exists_cons_of_ne_nil hword.1
  rw [hcs] at hword hfree ⊢
  have hc : c ≠ '!' := fun heq => hfree (heq ▸ List.mem_cons_self)
  have hmarked : IsWord (c :: (cs ++ ['!'])) := by
    refine ⟨List.cons_ne_nil _ _, ?_⟩
    rw [← List.cons_append]
    exact List.forall_mem_append.mpr ⟨hword.2, List.forall_mem_singleton.mpr (by decide)⟩
  have hfirst : isDouble (c :: ((cs ++ ['!']) ++ '=' :: rest).take 1) = false :=
    not_isDouble_of_bare (hword.2 c List.mem_cons_self) hc
  have htext : c :: cs ++ ("!=".toList ++ rest) = c :: (cs ++ ['!']) ++ '=' :: rest := by simp
  rw [htext]
  exact scan_bare hmarked hfirst (by rintro d ⟨⟩; decide)

theorem scan_takesMark (h : TakesMark a b) :
    scan (spell (a :: b :: pieces) trailing) ≠ .ok (a.tok :: ts) := by
  obtain ⟨hgap, hmark, w, ha, hbare⟩ := h
  obtain ⟨gap, tok, text, hspace, hwritten, _⟩ := a
  obtain ⟨gap', tok', text', _, hwritten', _⟩ := b
  dsimp only at hgap hmark ha
  subst hgap hmark ha
  cases hwritten
  cases hwritten'
  rw [spell_cons, spell_cons, scan_gap hspace, List.nil_append, scan_mark hbare]
  intro hread
  cases hrest : scan ('=' :: spell pieces trailing) with
  | error e =>
      rw [hrest] at hread
      cases hread
  | ok others =>
      rw [hrest] at hread
      have hfirst : String.ofList (w.toList ++ ['!']) = w :=
        Tok.word.inj (List.cons.inj (Except.ok.inj hread)).1
      have hlength := congrArg (fun w : String => w.toList.length) hfirst
      simp at hlength

/-! ## Layouts -/

theorem map_cons_eq_ok_iff {t : Tok} {r : Except SqlError (List Tok)} :
    r.map (t :: ·) = .ok (t :: ts) ↔ r = .ok ts := by
  cases r <;> simp [Except.map]

/-- Tokens that are written one after another are read back exactly if no bare word is
followed by `!=` without whitespace. -/
theorem scan_spell_iff (htrailing : ∀ c ∈ trailing, Text.isWhitespace c = true)
    (hapart : pieces.IsChain fun a b => b.gap = [] → MayAbut a.tok b.tok) :
    scan (spell pieces trailing) = .ok (pieces.map Piece.tok) ↔
      pieces.IsChain fun a b => ¬TakesMark a b := by
  induction pieces with
  | nil =>
      have hscan : scan trailing = .ok [] := by
        rw [← List.append_nil trailing, scan_gap htrailing, scan]
      exact iff_of_true hscan .nil
  | cons a pieces ih =>
      cases pieces with
      | nil =>
          have hstops : Stops a.tok (spell [] trailing) := by
            apply Apart.stops
            exact fun c hc => htrailing c (List.mem_of_head? hc)
          have hlast := ih .nil
          rw [spell_cons, scan_piece a hstops, List.map_cons, map_cons_eq_ok_iff, hlast]
          simp
      | cons b pieces =>
          rw [List.isChain_cons_cons] at hapart ⊢
          by_cases hmark : TakesMark a b
          · exact iff_of_false (scan_takesMark hmark) fun h => h.1 hmark
          · rw [spell_cons, scan_piece a (stops_next hapart.1 hmark), List.map_cons,
              map_cons_eq_ok_iff, ih hapart.2]
            exact (and_iff_right hmark).symm

end Pieces

/-- Whitespace before every `!=`. -/
def Layout.Airy (l : Layout) : Prop :=
  ∀ a ∈ l.pieces, a.tok = .word "!=" → a.gap ≠ []

instance {l : Layout} : Decidable l.Airy :=
  inferInstanceAs (Decidable (∀ a ∈ l.pieces, _))

theorem Layout.Airy.keepsMarks {l : Layout} (h : l.Airy) : l.KeepsMarks := by
  have hpieces : l.pieces.Pairwise fun a b => ¬TakesMark a b :=
    List.pairwise_of_forall_mem_list fun _ _ b hb htakes => h b hb htakes.2.1 htakes.1
  exact hpieces.isChain

/-- A layout is read as its tokens exactly if no bare word is followed by `!=` without
whitespace, and all such layouts of the same tokens are parsed alike. -/
theorem tokenize_layout_iff (l : Layout) :
    (tokenize l.text = .ok l.toks ↔ l.KeepsMarks) ∧
      ∀ l' : Layout, l'.KeepsMarks → l'.toks = l.toks →
        (tokenize l.text = tokenize l'.text ↔ l.KeepsMarks) ∧
          (l.KeepsMarks → parse l.text = parse l'.text) := by
  have hread : ∀ l : Layout, tokenize l.text = .ok l.toks ↔ l.KeepsMarks := by
    intro l
    rw [tokenize, Layout.text, String.toList_ofList]
    exact scan_spell_iff l.space l.apart
  refine ⟨hread l, fun l' hl' htoks => ?_⟩
  have hsame : tokenize l'.text = .ok l.toks := htoks ▸ (hread l').mpr hl'
  refine ⟨?_, fun hl => ?_⟩
  · rw [hsame]
    exact hread l
  · rw [parse, parse, hsame, (hread l).mpr hl]

private def countWhere (field : String) (op : CmpOp) : Query where
  dataset := "t"
  aggregates := [.count]
  predicate := .cmp field op (.ofI64 ⟨7, by decide, by decide⟩)
  groupBy := []
  orderBy := []
  limit := none
  projection := none

/-- The tokens of the query, with the comparison in the given tokens. -/
private def countToks (field operator : String) : List Tok :=
  .word "SELECT" :: ([.word "COUNT", .word "(", .word "*", .word ")"] ++
    .word "FROM" :: .word "t" :: ([.word "WHERE", .word field, .word operator, .word "7"] ++
      ([] ++ ([] ++ []))))

private theorem parse_countWhere {text field operator : String} {op : CmpOp}
    (hoperator : operator ∈ opWords op) (hfield : NamedPredicate (countWhere field op).predicate)
    (htokens : tokenize text = .ok (countToks field operator)) :
    parse text = .ok (countWhere field op) := by
  have hvalid : (countWhere field op).validate = .ok () := by
    have hdataset : ¬Text.trim "t".toList = [] := by decide
    rw [Query.validate, countWhere, if_neg hdataset]
    rfl
  refine parse_of_tokenize hvalid ?_ ?_ htokens
  · exact
      { dataset := (by decide : IsName "t")
        aggregates := fun _ h => .inl (List.mem_singleton.mp h)
        predicate := hfield
        groupBy := fun _ h => absurd h List.not_mem_nil
        orderBy := fun _ h => absurd h List.not_mem_nil
        projection := fun _ h => absurd h (Option.some_ne_none _).symm }
  · have hcount : AggToks .count [.word "COUNT", .word "(", .word "*", .word ")"] :=
      .call (by decide)
    have hterm : TermToks (countWhere field op).predicate
        [.word field, .word operator, .word "7"] :=
      .cmp hoperator (.int _)
    exact .query (by decide) (.aggregates rfl (.last hcount)) (by decide)
      (.present (by decide) (.term hterm)) .absent .absent .absent

/-- A word of a text, with a space before it if there is one. -/
private def wordPiece (space : Bool) (w : String) (h : Lexical (.word w)) : Piece where
  gap := if space then [' '] else []
  tok := .word w
  text := w.toList
  space := by cases space <;> decide
  written := .word w
  lexical := h

/-- `SELECT COUNT(*) FROM t WHERE a != 7`, with or without spaces around the operator. -/
private def markLayout (space : Bool) : Layout where
  pieces :=
    [wordPiece false "SELECT" (by decide), wordPiece true "COUNT" (by decide),
      wordPiece false "(" (by decide), wordPiece false "*" (by decide),
      wordPiece false ")" (by decide), wordPiece true "FROM" (by decide),
      wordPiece true "t" (by decide), wordPiece true "WHERE" (by decide),
      wordPiece true "a" (by decide), wordPiece space "!=" (by decide),
      wordPiece space "7" (by decide)]
  trailing := []
  space := nofun
  apart := by cases space <;> decide

/-- `SELECT a,b FROM t WHERE a<=7`, with or without spaces around the comma and the
operator. -/
private def columnsLayout (space : Bool) : Layout where
  pieces :=
    [wordPiece false "SELECT" (by decide), wordPiece true "a" (by decide),
      wordPiece space "," (by decide), wordPiece space "b" (by decide),
      wordPiece true "FROM" (by decide), wordPiece true "t" (by decide),
      wordPiece true "WHERE" (by decide), wordPiece true "a" (by decide),
      wordPiece space "<=" (by decide), wordPiece space "7" (by decide)]
  trailing := []
  space := nofun
  apart := by cases space <;> decide

/-- Of other operators and of commas the text is read alike with and without spaces. -/
theorem spaces_spared : (columnsLayout false).text = "SELECT a,b FROM t WHERE a<=7" ∧
    (columnsLayout true).text = "SELECT a , b FROM t WHERE a <= 7" ∧
    tokenize (columnsLayout false).text = tokenize (columnsLayout true).text ∧
    parse (columnsLayout false).text = parse (columnsLayout true).text := by
  have hairy : ∀ space, (columnsLayout space).Airy := by decide
  obtain ⟨_, hall⟩ := tokenize_layout_iff (columnsLayout false)
  obtain ⟨htokens, hparse⟩ := hall (columnsLayout true) (hairy true).keepsMarks rfl
  exact ⟨by decide, by decide, htokens.mpr (hairy false).keepsMarks,
    hparse (hairy false).keepsMarks⟩

/-- Without the spaces another column is compared by another operator. -/
theorem mark_taken : (markLayout true).text = "SELECT COUNT(*) FROM t WHERE a != 7" ∧
    (markLayout false).text = "SELECT COUNT(*) FROM t WHERE a!=7" ∧
    (markLayout false).toks = (markLayout true).toks ∧
    parse (markLayout true).text = .ok (countWhere "a" .ne) ∧
    parse (markLayout false).text = .ok (countWhere "a!" .eq) ∧
    ¬∀ l l' : Layout, l.toks = l'.toks →
      tokenize l.text = tokenize l'.text ∧ parse l.text = parse l'.text := by
  have hspaced : tokenize (markLayout true).text = .ok (countToks "a" "!=") := by decide +kernel
  have hmarked : tokenize (markLayout false).text = .ok (countToks "a!" "=") := by decide +kernel
  refine ⟨by decide, by decide, by decide, ?_, ?_, fun hall => ?_⟩
  · exact parse_countWhere (by decide) ⟨by decide, by decide⟩ hspaced
  · exact parse_countWhere (by decide) ⟨by decide, by decide⟩ hmarked
  · have hsame := (hall (markLayout false) (markLayout true) (by decide)).1
    rw [hspaced, hmarked] at hsame
    exact absurd hsame (by decide)

end Sql

end CeQuery
