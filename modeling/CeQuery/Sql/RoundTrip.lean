import CeQuery.Sql.Printing

/-!
# Printed queries are parsed back

Names may be keywords: at every point of the grammar either a name or a keyword is
expected, except after `WHERE` and after `AND` and `OR`, where a column called `NOT`
would be read as the negation. A printed clause is read by its own function if what
follows begins with the keyword of a later clause (`Starts`), and the clauses
together give the query (`parse_printed`).
-/

namespace CeQuery

namespace Sql

/-- A name is a bare word. -/
def IsName (w : String) : Prop :=
  IsWord w.toList

instance {cs : List Char} : Decidable (IsWord cs) :=
  inferInstanceAs (Decidable (_ ∧ _))

instance {w : String} : Decidable (IsName w) :=
  inferInstanceAs (Decidable (IsWord _))

/-- The columns of the comparisons are names other than `NOT`. -/
def NamedPredicate : Predicate → Prop
  | .true => True
  | .cmp field _ _ => IsName field ∧ eqKeyword "NOT" field = false
  | .and a b => NamedPredicate a ∧ NamedPredicate b
  | .or a b => NamedPredicate a ∧ NamedPredicate b
  | .not a => NamedPredicate a

/-- The dataset and all columns are names. -/
structure Named (q : Query) : Prop where
  dataset : IsName q.dataset
  aggregates : ∀ agg ∈ q.aggregates, agg = .count ∨ IsName (aggArg agg)
  predicate : NamedPredicate q.predicate
  groupBy : ∀ col ∈ q.groupBy, IsName col
  orderBy : ∀ key ∈ q.orderBy, IsName key.column
  projection : ∀ cols, q.projection = some cols → ∀ col ∈ cols, IsName col

/-! ## Words -/

section Words

variable {c : Char} {kw kw' w message : String} {ts : List Tok}

theorem isDelimiter_asciiLower (c : Char) : isDelimiter (Text.asciiLower c) = isDelimiter c := by
  have hall : ∀ n : Fin 26, isDelimiter (Char.ofNat (n + 97)) = false ∧
      isDelimiter (Char.ofNat (n + 65)) = false := by decide
  rw [Text.asciiLower]
  split
  · rename_i h
    have hlo : 65 ≤ c.toNat := h.1
    have hhi : c.toNat ≤ 90 := h.2
    have hc := hall ⟨c.toNat - 65, by omega⟩
    have hlower : c.toNat - 65 + 97 = c.toNat + 32 := by omega
    simp only [Nat.sub_add_cancel hlo, hlower, Char.ofNat_toNat] at hc
    rw [hc.1, hc.2]
  · rfl

theorem eqKeyword_iff :
    eqKeyword kw w = true ↔ w.toList.map Text.asciiLower = kw.toList.map Text.asciiLower :=
  Text.eqIgnoreAsciiCase_iff

theorem isWord_of_eqKeyword (h : eqKeyword kw w = true) (hkw : IsWord kw.toList) :
    IsWord w.toList := by
  have hmap := eqKeyword_iff.mp h
  refine ⟨?_, ?_⟩
  · intro hnil
    rw [hnil] at hmap
    exact hkw.1 (List.map_eq_nil_iff.mp hmap.symm)
  · intro c hc
    have hmem : Text.asciiLower c ∈ kw.toList.map Text.asciiLower := hmap ▸ List.mem_map_of_mem hc
    obtain ⟨d, hd, heq⟩ := List.mem_map.mp hmem
    rw [← isDelimiter_asciiLower, ← heq, isDelimiter_asciiLower]
    exact hkw.2 d hd

theorem isWord_of_spelt {cs : List Char} (hne : cs ≠ []) (h : Decimal.Spelt cs) : IsWord cs := by
  have hall : ∀ c ∈ Decimal.alphabet, isDelimiter c = false := by decide
  exact ⟨hne, fun c hc => isDelimiter_asciiLower c ▸ hall _ (h c hc)⟩

theorem isWord_toString (n : Int) : IsWord (toString n).toList := by
  have hread := Text.signed_toString n
  refine isWord_of_spelt ?_ ?_
  · intro hnil
    rw [hnil] at hread
    cases hread
  · intro c hc
    rcases Text.mem_of_signed hread c hc with hdigit | rfl | rfl
    · exact Decimal.mem_alphabet_of_isDigit hdigit
    · decide
    · decide

/-- No word is an operator. -/
theorem not_isOperator (h : IsWord w.toList) : isOperator w = false := by
  have hall : ∀ w ∈ ["=", "!=", "<>", "<", "<=", ">", ">=", ",", "(", ")"], ¬IsWord w.toList := by
    decide
  rw [Bool.eq_false_iff]
  exact fun hoperator => hall w (of_decide_eq_true hoperator) h

theorem nextWord_name (h : IsWord w.toList) : nextWord message (.word w :: ts) = .ok (w, ts) := by
  rw [nextWord, not_isOperator h]
  rfl

theorem expectKw_cons (h : eqKeyword kw w = true) : expectKw kw (.word w :: ts) = .ok ts :=
  if_pos h

theorem optionalKw_cons (h : eqKeyword kw w = true) :
    optionalKw kw (.word w :: ts) = .ok (true, ts) := by
  rw [optionalKw, isKw, if_pos h, expectKw_cons h]
  rfl

theorem optionalKw_of_not (h : isKw kw ts = false) : optionalKw kw ts = .ok (false, ts) :=
  if_neg (Bool.eq_false_iff.mp h)

/-- A word is one keyword only. -/
theorem eqKeyword_unique (h : eqKeyword kw w = true) (h' : eqKeyword kw' w = true) :
    kw.toList.map Text.asciiLower = kw'.toList.map Text.asciiLower :=
  (eqKeyword_iff.mp h).symm.trans (eqKeyword_iff.mp h')

end Words

/-! ## Literals -/

section Literals

variable {value : Value} {t : Tok} {ts : List Tok} {op : CmpOp} {o : String}

/-- A text with other letters than those of numbers is no number, so the constants are
none. -/
theorem literalFromWord_of_spelt {w : String} (h : Decimal.Spelt w.toList) :
    literalFromWord w =
      match (Text.signed w.toList).bind BoundedInt.narrow with
      | some n => .ofI64 n
      | none =>
          match Decimal.parse w.toList with
          | some x => .ofF64 x
          | none => .string w := by
  have hne : ∀ cs : List Char, (¬∀ c ∈ cs, c ∈ Decimal.alphabet) →
      w.toList.map Text.asciiLower ≠ cs := by
    rintro _ hcs rfl
    refine hcs fun c hc => ?_
    obtain ⟨d, hd, rfl⟩ := List.mem_map.mp hc
    exact h d hd
  rw [literalFromWord]
  apply (if_neg (hne _ (by decide))).trans
  apply (if_neg (hne _ (by decide))).trans
  exact if_neg (hne _ (by decide))

theorem literalFromWord_int (n : I64) : literalFromWord (toString n.val) = .ofI64 n := by
  have hread := Text.signed_toString n.val
  have hspelt : Decimal.Spelt (toString n.val).toList := by
    intro c hc
    rcases Text.mem_of_signed hread c hc with hdigit | rfl | rfl
    · exact Decimal.mem_alphabet_of_isDigit hdigit
    · decide
    · decide
  rw [literalFromWord_of_spelt hspelt, hread, Option.bind_some,
    BoundedInt.narrow_of_range n.lo_le n.le_hi]

theorem literalFromWord_float {x : FiniteF64} {w : String}
    (hpoint : ∃ c ∈ ['.', 'e', 'E'], c ∈ w.toList) (hread : Decimal.parse w.toList = some x.val) :
    literalFromWord w = .number (.float x) := by
  have hsigned : Text.signed w.toList = none := by
    rw [Option.eq_none_iff_forall_ne_some]
    intro n hn
    obtain ⟨c, hc, hmem⟩ := hpoint
    have hall : ∀ c ∈ ['.', 'e', 'E'], ¬(Text.isDigit c = true ∨ c = '+' ∨ c = '-') := by decide
    exact hall c hc (Text.mem_of_signed hn c hmem)
  rw [literalFromWord_of_spelt (Decimal.spelt_of_parse hread), hsigned, Option.bind_none, hread]
  exact dif_pos x.finite

theorem parseLiteral_toks (h : LiteralTok value t) : parseLiteral (t :: ts) = .ok (value, ts) := by
  cases h with
  | @null w hkw =>
      have hlower := eqKeyword_iff.mp hkw
      rw [parseLiteral, literalFromWord, hlower]
      rfl
  | @bool b w hkw =>
      have hlower := eqKeyword_iff.mp hkw
      rw [parseLiteral, literalFromWord, hlower]
      cases b <;> rfl
  | int n => rw [parseLiteral, literalFromWord_int]
  | float hpoint hread => rw [parseLiteral, literalFromWord_float hpoint hread]
  | string s => rfl

theorem parseOp_toks (h : o ∈ opWords op) : parseOp (.word o :: ts) = .ok (op, ts) := by
  cases op <;> simp only [opWords, List.mem_cons, List.not_mem_nil, or_false] at h
  case ne => obtain rfl | rfl := h <;> rfl
  all_goals
    subst h
    rfl

end Literals

/-! ## Predicates -/

section Predicates

variable {p : Predicate} {us rest : List Tok}

/-- A comparison is read if its literal is. -/
theorem parseTerm_cmp {field o : String} {op : CmpOp} {value : Value} {t : Tok}
    (hfield : IsName field) (hnot : eqKeyword "NOT" field = false) (hop : o ∈ opWords op)
    (hliteral : parseLiteral (t :: rest) = .ok (value, rest)) :
    parseTerm (.word field :: .word o :: t :: rest) = .ok (.cmp field op value, rest) := by
  have hfirst : isKw "NOT" (.word field :: .word o :: t :: rest) = false := hnot
  rw [parseTerm, optionalKw_of_not hfirst]
  simp only [bind, Except.bind, nextWord_name hfield, parseOp_toks hop, hliteral,
    Bool.false_eq_true, if_false]

/-- A printed term is read before everything. -/
theorem parseTerm_toks (h : TermToks p us) (hp : NamedPredicate p) :
    parseTerm (us ++ rest) = .ok (p, rest) := by
  cases h with
  | cmp hop hliteral => exact parseTerm_cmp hp.1 hp.2 hop (parseLiteral_toks hliteral)
  | @not w field o op value t hkw hop hliteral =>
      rw [parseTerm, List.cons_append, optionalKw_cons hkw]
      simp only [List.cons_append, List.nil_append, bind, Except.bind, nextWord_name hp.1,
        parseOp_toks hop, parseLiteral_toks hliteral, if_true]

/-- What is left begins with one of the keywords, or is nothing. -/
def Starts (kws : List String) (ts : List Tok) : Prop :=
  ∀ t ∈ ts.head?, ∃ kw ∈ kws, ∃ w, t = .word w ∧ eqKeyword kw w = true

/-- The keyword is none of these. -/
def Differs (kw : String) (kws : List String) : Prop :=
  ∀ k ∈ kws, k.toList.map Text.asciiLower ≠ kw.toList.map Text.asciiLower

instance {kw : String} {kws : List String} : Decidable (Differs kw kws) :=
  inferInstanceAs (Decidable (∀ k ∈ kws, _ ≠ _))

theorem starts_cons {kw w : String} {ts : List Tok} (h : eqKeyword kw w = true) :
    Starts [kw] (.word w :: ts) := by
  rintro t ht
  cases ht
  exact ⟨kw, List.mem_singleton_self kw, w, rfl, h⟩

theorem Starts.append {kws kws' : List String} (h : Starts kws us) (hrest : Starts kws' rest) :
    Starts (kws ++ kws') (us ++ rest) := by
  intro t ht
  cases us with
  | nil =>
      obtain ⟨kw, hkw, hw⟩ := hrest t ht
      exact ⟨kw, List.mem_append_right _ hkw, hw⟩
  | cons u us =>
      obtain ⟨kw, hkw, hw⟩ := h t ht
      exact ⟨kw, List.mem_append_left _ hkw, hw⟩

theorem Starts.isKw_eq_false {kw : String} {kws : List String} (h : Starts kws rest)
    (hdiffers : Differs kw kws) : isKw kw rest = false := by
  cases rest with
  | nil => rfl
  | cons t ts =>
      obtain ⟨k, hk, w, rfl, hw⟩ := h t rfl
      rw [isKw, Bool.eq_false_iff]
      exact fun hkw => hdiffers k hk (eqKeyword_unique hw hkw)

theorem Starts.isComma_eq_false {kws : List String} (h : Starts kws rest)
    (hdiffers : Differs "," kws) : ∀ t ∈ rest.head?, isComma t = false := by
  intro t ht
  obtain ⟨k, hk, w, rfl, hw⟩ := h t ht
  rw [isComma, decide_eq_false_iff_not]
  rintro ⟨⟩
  exact hdiffers k hk (eqKeyword_unique hw (by decide))

theorem parseLink_and {w : String} {b : Predicate} (hkw : eqKeyword "AND" w = true)
    (h : TermToks b us) (hb : NamedPredicate b) :
    parseLink (.word w :: (us ++ rest)) = .ok (some (.and · b), rest) := by
  rw [parseLink, optionalKw_cons hkw]
  simp only [bind, Except.bind, if_true, parseTerm_toks h hb]

theorem parseLink_or {w : String} {b : Predicate} (hkw : eqKeyword "OR" w = true)
    (h : TermToks b us) (hb : NamedPredicate b) :
    parseLink (.word w :: (us ++ rest)) = .ok (some (.or · b), rest) := by
  have hand : isKw "AND" (.word w :: (us ++ rest)) = false := by
    rw [isKw, Bool.eq_false_iff]
    exact fun hand => absurd (eqKeyword_unique hand hkw) (by decide)
  rw [parseLink, optionalKw_of_not hand]
  simp only [bind, Except.bind, Bool.false_eq_true, if_false, optionalKw_cons hkw, if_true,
    parseTerm_toks h hb]

theorem parseLink_none {kws : List String} (hrest : Starts kws rest) (hand : Differs "AND" kws)
    (hor : Differs "OR" kws) : parseLink rest = .ok (none, rest) := by
  rw [parseLink, optionalKw_of_not (hrest.isKw_eq_false hand)]
  simp only [bind, Except.bind, Bool.false_eq_true, if_false,
    optionalKw_of_not (hrest.isKw_eq_false hor)]

/-- A printed chain is read up to its last term, whatever follows. -/
theorem parsePredicate_chain (h : ChainToks p us) (hp : NamedPredicate p) (rest : List Tok) :
    parsePredicate (us ++ rest) = Link.chain ⟨parseLink, parseLink_shorter⟩ p rest := by
  induction h generalizing rest with
  | term h =>
      rw [parsePredicate, parseTerm_toks h hp]
      rfl
  | @and a b us vs w _ hkw hright ih =>
      rw [List.append_assoc, ih hp.1, List.cons_append]
      apply Link.chain_link
      exact parseLink_and hkw hright hp.2
  | @or a b us vs w _ hkw hright ih =>
      rw [List.append_assoc, ih hp.1, List.cons_append]
      apply Link.chain_link
      exact parseLink_or hkw hright hp.2

end Predicates

/-! ## Lists -/

section Lists

variable {us rest : List Tok} {message : String}

theorem eq_comma {t : Tok} (h : isComma t = true) : t = .word "," :=
  of_decide_eq_true h

theorem aggKeyword_mem (agg : Agg) : aggKeyword agg ∈ ["COUNT", "SUM", "MIN", "MAX", "AVG"] := by
  cases agg <;> simp [aggKeyword]

/-- The name of an aggregate, in any letter case, names it. -/
theorem aggregate_toks {agg : Agg} {w : String} (hkw : eqKeyword (aggKeyword agg) w = true)
    (hagg : agg = .count ∨ IsName (aggArg agg)) : aggregate w (aggArg agg) = .ok agg := by
  have hupper : String.ofList (w.toList.map Text.asciiUpper) = aggKeyword agg := by
    have hcomp : Text.asciiUpper ∘ Text.asciiLower = Text.asciiUpper :=
      funext Text.asciiUpper_asciiLower
    have hmap := congrArg (List.map Text.asciiUpper) (eqKeyword_iff.mp hkw)
    rw [List.map_map, List.map_map, hcomp] at hmap
    have hall : ∀ kw ∈ ["COUNT", "SUM", "MIN", "MAX", "AVG"],
        String.ofList (kw.toList.map Text.asciiUpper) = kw := by decide
    rw [hmap]
    exact hall _ (aggKeyword_mem agg)
  have harg : ∀ f, IsName f → fieldArg f = .ok f := by
    intro f hf
    apply if_neg
    rintro rfl
    exact (by decide : ¬IsWord "*".toList) hf
  rw [aggregate, hupper]
  cases agg with
  | count => rfl
  | sum f => simp [aggKeyword, aggArg, harg f (hagg.resolve_left nofun), Except.map]
  | min f => simp [aggKeyword, aggArg, harg f (hagg.resolve_left nofun), Except.map]
  | max f => simp [aggKeyword, aggArg, harg f (hagg.resolve_left nofun), Except.map]
  | avg f => simp [aggKeyword, aggArg, harg f (hagg.resolve_left nofun), Except.map]

theorem isWord_aggKeyword (agg : Agg) : IsWord (aggKeyword agg).toList := by
  have hall : ∀ kw ∈ ["COUNT", "SUM", "MIN", "MAX", "AVG"], IsWord kw.toList := by decide
  exact hall _ (aggKeyword_mem agg)

theorem parseAgg_toks {agg : Agg} (h : AggToks agg us)
    (hagg : agg = .count ∨ IsName (aggArg agg)) : parseAgg (us ++ rest) = .ok (agg, rest) := by
  cases h with
  | @call w hkw =>
      have hw := isWord_of_eqKeyword hkw (isWord_aggKeyword agg)
      simp only [parseAgg, List.cons_append, List.nil_append, bind, Except.bind, nextWord_name hw,
        expectWord, if_true, argument, aggregate_toks hkw hagg]

theorem parseOrderKey_toks {key : OrderKey} (h : OrderKeyToks key us) (hkey : IsName key.column)
    (hasc : isKw "ASC" rest = false) (hdesc : isKw "DESC" rest = false) :
    parseOrderKey (us ++ rest) = .ok (key, rest) := by
  cases h with
  | ascending column =>
      simp only [parseOrderKey, List.cons_append, List.nil_append, bind, Except.bind,
        nextWord_name hkey, optionalKw_of_not hasc, optionalKw_of_not hdesc, Bool.false_eq_true,
        if_false]
  | @directed column w dir hkw =>
      cases dir with
      | asc =>
          have hasc' : eqKeyword "ASC" w = true := hkw
          simp only [parseOrderKey, List.cons_append, List.nil_append, bind, Except.bind,
            nextWord_name hkey, optionalKw_cons hasc', if_true]
      | desc =>
          have hdesc' : eqKeyword "DESC" w = true := hkw
          have hnot : isKw "ASC" (.word w :: rest) = false := by
            rw [isKw, Bool.eq_false_iff]
            exact fun hasc => absurd (eqKeyword_unique hasc hkw) (by decide)
          simp only [parseOrderKey, List.cons_append, List.nil_append, bind, Except.bind,
            nextWord_name hkey, optionalKw_of_not hnot, optionalKw_cons hdesc',
            Bool.false_eq_true, if_false, if_true]

theorem columns_toks {cols : List String} (h : SepBy ColumnToks isComma cols us)
    (hcols : ∀ col ∈ cols, IsName col) (hstop : ∀ t ∈ rest.head?, isComma t = false) :
    columns message (us ++ rest) = .ok (cols, rest) := by
  refine Item.sepBy_written (fun _ => True) ?_ (fun _ _ _ => trivial) h trivial hstop
  rintro col hcol us rest ⟨⟩ _
  exact nextWord_name (hcols col hcol)

theorem parseAggList_toks {aggs : List Agg} (h : SepBy AggToks isComma aggs us)
    (haggs : ∀ agg ∈ aggs, agg = .count ∨ IsName (aggArg agg))
    (hstop : ∀ t ∈ rest.head?, isComma t = false) :
    parseAggList (us ++ rest) = .ok (aggs, rest) := by
  refine Item.sepBy_written (fun _ => True) ?_ (fun _ _ _ => trivial) h trivial hstop
  exact fun agg hagg us rest hus _ => parseAgg_toks hus (haggs agg hagg)

end Lists

/-! ## Clauses -/

section Clauses

variable {q : Query} {us rest : List Tok}

/-- What the parser makes of the `SELECT` list of a query. -/
def selectList (q : Query) : SelectList :=
  match q.projection with
  | none => .aggregates q.aggregates
  | some cols => .projection cols

/-- A name is not the beginning of an aggregate if no parenthesis follows. -/
theorem isAggFirst_eq_false {w : String} (h : ∀ t ∈ rest.head?, t ≠ .word "(") :
    isAggFirst (.word w :: rest) = false := by
  cases rest with
  | nil => rfl
  | cons t ts =>
      cases t with
      | str s => rfl
      | word w' =>
          have hne : (w' == "(") = false := by
            rw [beq_eq_false_iff_ne]
            rintro rfl
            exact h _ rfl rfl
          rw [isAggFirst, hne, Bool.and_false]

theorem parseSelectList_toks (h : SelectToks q us) (hq : Named q) (hrest : Starts ["FROM"] rest) :
    parseSelectList (us ++ rest) = .ok (selectList q, rest) := by
  have hstop := hrest.isComma_eq_false (by decide)
  cases h with
  | aggregates hshape hlist =>
      have hread := parseAggList_toks hlist hq.aggregates hstop
      obtain ⟨agg, _, _, vs, @⟨w, hkw⟩, rfl, _⟩ := hlist.front
      have hw := isWord_of_eqKeyword hkw (isWord_aggKeyword agg)
      have hstar : w ≠ "*" := by
        rintro rfl
        exact (by decide : ¬IsWord "*".toList) hw
      rw [parseSelectList, if_neg, if_pos, hread, selectList, hshape]
      · rfl
      · simp [isAggFirst, not_isOperator hw]
      · simp [isWord, hstar]
  | star hshape =>
      rw [selectList, hshape]
      rfl
  | @columns cols us hshape hlist =>
      have hcols := hq.projection cols hshape
      have hread : columns "expected a column name in SELECT" (us ++ rest) = .ok (cols, rest) :=
        columns_toks hlist hcols hstop
      obtain ⟨col, hcol, _, vs, ⟨⟩, rfl, hvs⟩ := hlist.front
      have hstar : col ≠ "*" := by
        rintro rfl
        exact (by decide : ¬IsWord "*".toList) (hcols _ hcol)
      have hafter : ∀ t ∈ (vs ++ rest).head?, t ≠ .word "(" := by
        rintro t ht rfl
        cases vs with
        | nil =>
            obtain ⟨kw, hkw, w, ⟨⟩, hw⟩ := hrest _ ht
            cases List.mem_singleton.mp hkw
            exact absurd hw (by decide)
        | cons s vs =>
            cases ht
            exact absurd (hvs _ rfl) (by decide)
      rw [parseSelectList, if_neg, if_neg, hread, selectList, hshape]
      · rfl
      · rw [List.append_assoc, List.singleton_append, isAggFirst_eq_false hafter]
        exact Bool.false_ne_true
      · simp [isWord, hstar]

theorem parseWhere_toks {p : Predicate} (h : WhereToks p us) (hp : NamedPredicate p)
    (hrest : Starts ["GROUP", "ORDER", "LIMIT"] rest) :
    parseWhere (us ++ rest) = .ok (p, rest) := by
  cases h with
  | absent =>
      rw [List.nil_append, parseWhere, optionalKw_of_not (hrest.isKw_eq_false (by decide))]
      rfl
  | present hkw hchain =>
      have hread := parsePredicate_chain hchain hp rest
      rw [List.cons_append, parseWhere, optionalKw_cons hkw]
      simp only [bind, Except.bind, if_true, hread]
      apply Link.chain_end
      exact parseLink_none hrest (by decide) (by decide)

theorem parseGroupBy_toks {cols : List String} (h : GroupToks cols us)
    (hcols : ∀ col ∈ cols, IsName col) (hrest : Starts ["ORDER", "LIMIT"] rest) :
    parseGroupBy (us ++ rest) = .ok (cols, rest) := by
  cases h with
  | absent =>
      rw [List.nil_append, parseGroupBy, optionalKw_of_not (hrest.isKw_eq_false (by decide))]
      rfl
  | present hkw hkw' hlist =>
      rw [List.cons_append, List.cons_append, parseGroupBy, optionalKw_cons hkw]
      simp only [bind, Except.bind, if_true, expectKw_cons hkw']
      exact columns_toks hlist hcols (hrest.isComma_eq_false (by decide))

theorem optionalOrderBy_toks {keys : List OrderKey} (h : OrderToks keys us)
    (hkeys : ∀ key ∈ keys, IsName key.column) (hrest : Starts ["LIMIT"] rest) :
    optionalOrderBy (us ++ rest) = .ok (keys, rest) := by
  cases h with
  | absent =>
      rw [List.nil_append, optionalOrderBy, hrest.isKw_eq_false (by decide)]
      rfl
  | @present keys w w' us hkw hkw' hlist =>
      have hread : Item.sepBy ⟨parseOrderKey, parseOrderKey_shorter⟩ isComma (us ++ rest) =
          .ok (keys, rest) := by
        refine Item.sepBy_written (fun ts => isKw "ASC" ts = false ∧ isKw "DESC" ts = false) ?_ ?_
          hlist ⟨hrest.isKw_eq_false (by decide), hrest.isKw_eq_false (by decide)⟩
          (hrest.isComma_eq_false (by decide))
        · exact fun key hkey us rest hus hfollows =>
            parseOrderKey_toks hus (hkeys key hkey) hfollows.1 hfollows.2
        · intro t ts ht
          rw [eq_comma ht]
          exact ⟨rfl, rfl⟩
      have hfirst : isKw "ORDER" (.word w :: .word w' :: us ++ rest) = true := hkw
      rw [optionalOrderBy, hfirst, if_pos rfl, List.cons_append, List.cons_append, parseOrderBy,
        expectKw_cons hkw]
      simp only [bind, Except.bind, expectKw_cons hkw', hread]

theorem optionalLimit_toks {limit : Option Usize} (h : LimitToks limit us) :
    optionalLimit us = .ok (limit, []) := by
  cases h with
  | absent => rfl
  | @present n w hkw =>
      have hfirst : isKw "LIMIT" [.word w, .word (toString n.val)] = true := hkw
      have hread := Text.unsigned_toString n.lo_le
      rw [optionalLimit, hfirst, if_pos rfl, parseLimit, expectKw_cons hkw]
      simp only [bind, Except.bind, nextWord_name (isWord_toString n.val), hread, Option.bind,
        BoundedInt.narrow_of_range n.lo_le n.le_hi]
      rfl

theorem GroupToks.starts {cols : List String} (h : GroupToks cols us) : Starts ["GROUP"] us := by
  cases h with
  | absent => exact nofun
  | present hkw => exact starts_cons hkw

theorem OrderToks.starts {keys : List OrderKey} (h : OrderToks keys us) : Starts ["ORDER"] us := by
  cases h with
  | absent => exact nofun
  | present hkw => exact starts_cons hkw

theorem LimitToks.starts {limit : Option Usize} (h : LimitToks limit us) :
    Starts ["LIMIT"] us := by
  cases h with
  | absent => exact nofun
  | present hkw => exact starts_cons hkw

/-- A valid projection has neither aggregates nor group keys. -/
theorem projection_of_validate {cols : List String} (hvalid : q.validate = .ok ())
    (hshape : q.projection = some cols) : q.aggregates = [] ∧ q.groupBy = [] := by
  have hprojection : q.isProjection = true := by
    rw [Query.isProjection, hshape]
    rfl
  rw [Query.validate, hprojection] at hvalid
  by_cases haggregates : q.aggregates = []
  · by_cases hgroup : q.groupBy = []
    · exact ⟨haggregates, hgroup⟩
    · simp only [haggregates, hgroup, ne_eq, not_true_eq_false, not_false_eq_true, if_true,
        if_false] at hvalid
      split at hvalid <;> cases hvalid
  · simp only [haggregates, ne_eq, not_false_eq_true, if_true] at hvalid
    split at hvalid <;> cases hvalid

theorem starts_after_where {gs os ls : List Tok} (hgroup : GroupToks q.groupBy gs)
    (horder : OrderToks q.orderBy os) (hlimit : LimitToks q.limit ls) :
    Starts ["GROUP", "ORDER", "LIMIT"] (gs ++ (os ++ ls)) :=
  hgroup.starts.append (horder.starts.append hlimit.starts)

/-- A query is parsed into its clauses, whatever its filter is. -/
theorem parseQuery_clauses {w w' : String} {p : Predicate} {ss ps gs os ls : List Tok}
    (hkw : eqKeyword "SELECT" w = true) (hselect : SelectToks q ss)
    (hkw' : eqKeyword "FROM" w' = true)
    (hwhere : parseWhere (ps ++ (gs ++ (os ++ ls))) = .ok (p, gs ++ (os ++ ls)))
    (hgroup : GroupToks q.groupBy gs) (horder : OrderToks q.orderBy os)
    (hlimit : LimitToks q.limit ls) (hq : Named q) (hvalid : q.validate = .ok ()) :
    parseQuery (.word w :: (ss ++ .word w' :: .word q.dataset :: (ps ++ (gs ++ (os ++ ls))))) =
      .ok ({ q with predicate := p }, []) := by
  have hafterGroup : Starts ["ORDER", "LIMIT"] (os ++ ls) := horder.starts.append hlimit.starts
  have hfrom : Starts ["FROM"] (.word w' :: .word q.dataset :: (ps ++ (gs ++ (os ++ ls)))) :=
    starts_cons hkw'
  have hread := parseSelectList_toks hselect hq hfrom
  simp only [parseQuery, bind, Except.bind, expectKw_cons hkw, hread, expectKw_cons hkw',
    nextWord_name hq.dataset, hwhere, parseGroupBy_toks hgroup hq.groupBy hafterGroup,
    optionalOrderBy_toks horder hq.orderBy hlimit.starts, optionalLimit_toks hlimit]
  cases hshape : q.projection with
  | none =>
      simp only [selectList, hshape]
  | some cols =>
      obtain ⟨haggregates, hgroupBy⟩ := projection_of_validate hvalid hshape
      simp only [selectList, hshape]
      obtain ⟨dataset, aggregates, predicate, groupBy, orderBy, limit, projection⟩ := q
      cases hshape
      cases haggregates
      cases hgroupBy
      rfl

/-- The tokens of a valid query are parsed into it. -/
theorem parseQuery_toks (h : QueryToks q us) (hq : Named q) (hvalid : q.validate = .ok ()) :
    parseQuery us = .ok (q, []) := by
  cases h with
  | query hkw hselect hkw' hpredicate hgroup horder hlimit =>
      have hwhere := parseWhere_toks hpredicate hq.predicate
        (starts_after_where hgroup horder hlimit)
      exact parseQuery_clauses hkw hselect hkw' hwhere hgroup horder hlimit hq hvalid

end Clauses

/-! ## Texts -/

section Plain

variable {kw w : String} {us : List Tok} {t : Tok}

theorem plain_name (h : IsName w) : Plain (.word w) :=
  .inl h

theorem plain_operator (h : w ∈ operators) : Plain (.word w) :=
  .inr h

theorem plain_kw (h : eqKeyword kw w = true) (hkw : IsWord kw.toList) : Plain (.word w) :=
  .inl (isWord_of_eqKeyword h hkw)

theorem plain_comma (h : isComma t = true) : Plain t := by
  rw [eq_comma h]
  exact .inr (by decide)

theorem plain_literal {value : Value} (h : LiteralTok value t) : Plain t := by
  cases h with
  | null hkw => exact plain_kw hkw (by decide)
  | @bool b w hkw =>
      have hall : ∀ b : Bool, IsWord (toString b).toList := by decide
      exact plain_kw hkw (hall b)
  | int n => exact .inl (isWord_toString n.val)
  | float hpoint hread =>
      refine .inl (isWord_of_spelt ?_ (Decimal.spelt_of_parse hread))
      obtain ⟨c, _, hc⟩ := hpoint
      exact List.ne_nil_of_mem hc
  | string s => trivial

theorem plain_op {op : CmpOp} {o : String} (h : o ∈ opWords op) : Plain (.word o) := by
  have hall : ∀ o ∈ comparisons, o ∈ operators := by decide
  exact .inr (hall o (mem_comparisons h))

theorem plain_cons (h : Plain t) (hus : ∀ u ∈ us, Plain u) : ∀ u ∈ t :: us, Plain u :=
  List.forall_mem_cons.mpr ⟨h, hus⟩

theorem plain_singleton (h : Plain t) : ∀ u ∈ [t], Plain u :=
  List.forall_mem_singleton.mpr h

theorem plain_append {vs : List Tok} (hus : ∀ u ∈ us, Plain u) (hvs : ∀ v ∈ vs, Plain v) :
    ∀ t ∈ us ++ vs, Plain t :=
  List.forall_mem_append.mpr ⟨hus, hvs⟩

theorem plain_comparison {field o : String} {op : CmpOp} {value : Value} (hfield : IsName field)
    (hop : o ∈ opWords op) (hliteral : LiteralTok value t) :
    ∀ u ∈ [.word field, .word o, t], Plain u := by
  apply plain_cons (plain_name hfield)
  apply plain_cons (plain_op hop)
  exact plain_singleton (plain_literal hliteral)

theorem plain_term {p : Predicate} (h : TermToks p us) (hp : NamedPredicate p) :
    ∀ t ∈ us, Plain t := by
  cases h with
  | cmp hop hliteral => exact plain_comparison hp.1 hop hliteral
  | not hkw hop hliteral =>
      apply plain_cons (plain_kw hkw (by decide))
      exact plain_comparison hp.1 hop hliteral

theorem plain_chain {p : Predicate} (h : ChainToks p us) (hp : NamedPredicate p) :
    ∀ t ∈ us, Plain t := by
  induction h with
  | term hterm => exact plain_term hterm hp
  | and _ hkw hright ih =>
      apply plain_append (ih hp.1)
      exact plain_cons (plain_kw hkw (by decide)) (plain_term hright hp.2)
  | or _ hkw hright ih =>
      apply plain_append (ih hp.1)
      exact plain_cons (plain_kw hkw (by decide)) (plain_term hright hp.2)

theorem plain_columns {cols : List String} (h : SepBy ColumnToks isComma cols us)
    (hcols : ∀ col ∈ cols, IsName col) : ∀ t ∈ us, Plain t := by
  refine h.forall_mem ?_ fun s => plain_comma
  rintro col hcol _ ⟨⟩
  exact plain_singleton (plain_name (hcols col hcol))

theorem plain_agg {agg : Agg} (h : AggToks agg us) (hagg : agg = .count ∨ IsName (aggArg agg)) :
    ∀ t ∈ us, Plain t := by
  have harg : Plain (.word (aggArg agg)) := by
    obtain rfl | hname := hagg
    · exact .inr (by decide)
    · exact .inl hname
  cases h with
  | call hkw =>
      apply plain_cons (plain_kw hkw (isWord_aggKeyword agg))
      apply plain_cons (plain_operator (by decide))
      apply plain_cons harg
      exact plain_singleton (plain_operator (by decide))

theorem plain_orderKey {key : OrderKey} (h : OrderKeyToks key us) (hkey : IsName key.column) :
    ∀ t ∈ us, Plain t := by
  cases h with
  | ascending column => exact plain_singleton (plain_name hkey)
  | @directed column w dir hkw =>
      have hdir : IsWord (dirKeyword dir).toList := by cases dir <;> decide
      apply plain_cons (plain_name hkey)
      exact plain_singleton (plain_kw hkw hdir)

theorem plain_select {q : Query} (h : SelectToks q us) (hq : Named q) : ∀ t ∈ us, Plain t := by
  cases h with
  | aggregates _ hlist =>
      exact hlist.forall_mem (fun agg hagg _ hus => plain_agg hus (hq.aggregates agg hagg))
        fun s => plain_comma
  | star => exact plain_singleton (plain_operator (by decide))
  | columns hshape hlist => exact plain_columns hlist (hq.projection _ hshape)

theorem plain_where {p : Predicate} (h : WhereToks p us) (hp : NamedPredicate p) :
    ∀ t ∈ us, Plain t := by
  cases h with
  | absent => exact nofun
  | present hkw hchain => exact plain_cons (plain_kw hkw (by decide)) (plain_chain hchain hp)

theorem plain_group {cols : List String} (h : GroupToks cols us)
    (hcols : ∀ col ∈ cols, IsName col) : ∀ t ∈ us, Plain t := by
  cases h with
  | absent => exact nofun
  | present hkw hkw' hlist =>
      apply plain_cons (plain_kw hkw (by decide))
      apply plain_cons (plain_kw hkw' (by decide))
      exact plain_columns hlist hcols

theorem plain_order {keys : List OrderKey} (h : OrderToks keys us)
    (hkeys : ∀ key ∈ keys, IsName key.column) : ∀ t ∈ us, Plain t := by
  cases h with
  | absent => exact nofun
  | present hkw hkw' hlist =>
      apply plain_cons (plain_kw hkw (by decide))
      apply plain_cons (plain_kw hkw' (by decide))
      exact hlist.forall_mem (fun key hkey _ hus => plain_orderKey hus (hkeys key hkey))
        fun s => plain_comma

theorem plain_limit {limit : Option Usize} (h : LimitToks limit us) : ∀ t ∈ us, Plain t := by
  cases h with
  | absent => exact nofun
  | @present n w hkw =>
      apply plain_cons (plain_kw hkw (by decide))
      exact plain_singleton (plain_name (isWord_toString n.val))

/-- The tokens of a query can be told by the whitespace between them. -/
theorem plain_query {q : Query} (h : QueryToks q us) (hq : Named q) : ∀ t ∈ us, Plain t := by
  cases h with
  | query hkw hselect hkw' hwhere hgroup horder hlimit =>
      apply plain_cons (plain_kw hkw (by decide))
      apply plain_append (plain_select hselect hq)
      apply plain_cons (plain_kw hkw' (by decide))
      apply plain_cons (plain_name hq.dataset)
      apply plain_append (plain_where hwhere hq.predicate)
      apply plain_append (plain_group hgroup hq.groupBy)
      exact plain_append (plain_order horder hq.orderBy) (plain_limit hlimit)

end Plain

/-- A text that is read as the tokens of a query is parsed as the query. -/
theorem parse_of_tokenize {q : Query} {ts : List Tok} {text : String} (hvalid : q.validate = .ok ())
    (hq : Named q) (hts : QueryToks q ts) (htokens : tokenize text = .ok ts) :
    parse text = .ok q := by
  have hparsed := parseQuery_toks hts hq hvalid
  simp only [parse, bind, Except.bind, htokens, hparsed, hvalid, Except.mapError]

/-- A text of the tokens of a query is parsed as the query. -/
theorem parse_toks {q : Query} {ts : List Tok} {text : String} (hvalid : q.validate = .ok ())
    (hq : Named q) (hts : QueryToks q ts) (hspaced : Spaced ts text.toList) :
    parse text = .ok q :=
  parse_of_tokenize hvalid hq hts (scan_spaced hspaced (plain_query hts hq))

/-- Parsing a printed query gives it back. -/
theorem parse_printed {q : Query} {text : String} (hvalid : q.validate = .ok ()) (hq : Named q)
    (htext : q.PrintedAs text) : parse text = .ok q := by
  obtain ⟨ts, hts, hspaced⟩ := htext
  exact parse_toks hvalid hq hts hspaced

private def keywordQuery : Query where
  dataset := "FROM"
  aggregates := [.count]
  predicate := .cmp "AND" .ne (.string "OR")
  groupBy := ["by"]
  orderBy := [{ column := "DESC", dir := .desc }]
  limit := some U64.one
  projection := none

private def keywordToks : List Tok :=
  .word "select" :: ([.word "count", .word "(", .word "*", .word ")"] ++
    .word "from" :: .word "FROM" :: (
      [.word "where", .word "AND", .word "<>", .str "OR"] ++
        ([.word "Group", .word "By", .word "by"] ++
          ([.word "order", .word "by", .word "DESC", .word "desc"] ++
            [.word "limit", .word "1"]))))

private def keywordTexts : List (List Char) :=
  ["select", "count", "(", "*", ")", "from", "FROM", "where", "AND", "<>"].map String.toList ++
    ('"' :: ("OR".toList ++ ['"'])) ::
      ["Group", "By", "by", "order", "by", "DESC", "desc", "limit", "1"].map String.toList

/-- Names may be keywords. -/
theorem parse_printed_keywords :
    parse ("select count ( * ) from FROM where AND <> \"OR\" Group By by " ++
      "order by DESC desc limit 1") = .ok keywordQuery := by
  refine parse_printed rfl ?_ ⟨keywordToks, ?_, ?_⟩
  · exact
      { dataset := by decide
        aggregates := fun _ h => .inl (List.mem_singleton.mp h)
        predicate := ⟨by decide, by decide⟩
        groupBy := by decide
        orderBy := by decide
        projection := nofun }
  · have hcount : AggToks .count [.word "count", .word "(", .word "*", .word ")"] :=
      .call (by decide)
    have hterm : TermToks (.cmp "AND" .ne (.string "OR")) [.word "AND", .word "<>", .str "OR"] :=
      .cmp (by decide) (.string "OR")
    have hkey : OrderKeyToks { column := "DESC", dir := .desc } [.word "DESC", .word "desc"] :=
      .directed (by decide)
    have hone : LimitToks (some U64.one) [.word "limit", .word "1"] := .present (by decide)
    exact .query (by decide) (.aggregates rfl (.last hcount)) (by decide)
      (.present (by decide) (.term hterm))
      (.present (by decide) (by decide) (.last ColumnToks.name))
      (.present (by decide) (by decide) (.last hkey)) hone
  · have htexts : ("select count ( * ) from FROM where AND <> \"OR\" Group By by " ++
          "order by DESC desc limit 1").toList = [' '].intercalate keywordTexts := by
      decide
    rw [htexts]
    apply spaced_intercalate
    repeat' constructor
    decide

end Sql

end CeQuery
