import CeQuery.Foundation.Scientific
import CeQuery.IntegerOrder
import CeQuery.Sql.Soundness

/-!
# Literals without quotes

A bare word in a filter stands for a number if it spells one, and for itself if it does
not (`Meant`). The parser reads words that are no signed 64-bit integers as binary64
numbers. So it rounds the other integers, and it writes null for a numeral that overflows
and for the names of NaN and of an infinity. The literal means what the word spells
exactly if none of this happens (`unquoted_iff`).
-/

namespace CeQuery

namespace Sql

/-! ## The filter of a query -/

/-- The tokens of the query with another literal in its filter, a comparison of one column. -/
inductive FilterToks (q : Query) (field : String) (literal : Tok) : List Tok → Prop where
  | query {w w' w'' : String} {ss gs os ls : List Tok} (kw : eqKeyword "SELECT" w = true)
      (select : SelectToks q ss) (kw' : eqKeyword "FROM" w' = true)
      (kw'' : eqKeyword "WHERE" w'' = true) (group : GroupToks q.groupBy gs)
      (order : OrderToks q.orderBy os) (limit : LimitToks q.limit ls) :
      FilterToks q field literal
        (.word w :: (ss ++ .word w' :: .word q.dataset ::
          ([.word w'', .word field, .word "=", literal] ++ (gs ++ (os ++ ls)))))

/-- The text is the query with the literal in its filter. -/
def FilterText (q : Query) (field : String) (literal : Tok) (text : String) : Prop :=
  ∃ us, FilterToks q field literal us ∧ tokenize text = .ok us

/-- A valid query with the filter `field = 'w'`. -/
structure Filters (q : Query) (field w : String) : Prop where
  named : Named q
  valid : q.validate = .ok ()
  predicate : q.predicate = .cmp field .eq (.string w)

/-! ## What a word spells -/

/-- The word is a numeral in the range of the integers of 64 bits, signed or unsigned, or
in the range of the finite binary64 numbers. -/
def Fits (w : String) : Prop :=
  (∃ k, Decimal.Spells w.toList k ∧ JsonInteger k) ∨
    (Decimal.signedNumeral w.toList).isSome ∧ ¬Decimal.Overflows w.toList

/-- The literal that a word stands for: the integer that it spells, if this has 64 bits,
else the number that binary64 has for the numeral, which is exact if there is an exact
one, and else the word itself. -/
inductive Meant (w : String) : Value → Prop where
  | integer {k : Int} {v : Value} (spells : Decimal.Spells w.toList k) (fits : JsonInteger k)
      (value : v.HasValue k) : Meant w v
  | float {x : FiniteF64} (numeral : (Decimal.signedNumeral w.toList).isSome)
      (wide : ∀ k, Decimal.Spells w.toList k → ¬JsonInteger k)
      (reads : Decimal.parse w.toList = some x.val)
      (exact : ∀ y, Decimal.SpellsFloat w.toList y → Decimal.SpellsFloat w.toList x.val) :
      Meant w (.number (.float x))
  | text (unfit : ¬Fits w) : Meant w (.string w)

/-- The literal `v` in the filter of the query means what the word spells, and where this
is the word itself, the filter keeps the same rows as with the word in quotes. -/
structure Faithful (q : Query) (field w : String) (v : Value) : Prop where
  meant : Meant w v
  notNull : v ≠ .null
  quoted : ¬Fits w → ∀ row, (Predicate.cmp field .eq v).eval row = q.predicate.eval row

/-- The word is not the name of NaN or of an infinity, it does not overflow, and if it
spells an integer of 64 bits other than as a signed one, this is a binary64 number. -/
structure Survives (w : String) : Prop where
  finite : Decimal.namesNonFinite w.toList = false
  range : ¬Decimal.Overflows w.toList
  exact : ∀ k, Decimal.Spells w.toList k → JsonInteger k → integerOf w = none →
    spacing k.natAbs ∣ k.natAbs

section Parse

variable {q : Query} {field w text : String} {t : Tok} {value : Value} {rest : List Tok}

theorem parseWhere_filter {w'' : String} (hq : Filters q field w)
    (hkw : eqKeyword "WHERE" w'' = true)
    (hliteral : ∀ ts, parseLiteral (t :: ts) = .ok (value, ts))
    (hrest : Starts ["GROUP", "ORDER", "LIMIT"] rest) :
    parseWhere ([.word w'', .word field, .word "=", t] ++ rest) =
      .ok (.cmp field .eq value, rest) := by
  have hfield : NamedPredicate (.cmp field .eq (.string w)) := hq.predicate ▸ hq.named.predicate
  have hterm : parseTerm (.word field :: .word "=" :: t :: rest) =
      .ok (.cmp field .eq value, rest) :=
    parseTerm_cmp hfield.1 hfield.2 (List.mem_singleton_self _) (hliteral rest)
  have hchain : parsePredicate (.word field :: .word "=" :: t :: rest) =
      .ok (.cmp field .eq value, rest) := by
    rw [parsePredicate, hterm]
    apply Link.chain_end
    exact parseLink_none hrest (by decide) (by decide)
  rw [List.cons_append, parseWhere, optionalKw_cons hkw]
  simp only [bind, Except.bind, if_true]
  exact hchain

/-- A literal becomes the value of the filter. -/
theorem parse_filterText (hq : Filters q field w)
    (hliteral : ∀ ts, parseLiteral (t :: ts) = .ok (value, ts)) (h : FilterText q field t text) :
    parse text = .ok { q with predicate := .cmp field .eq value } := by
  obtain ⟨us, htoks, htokens⟩ := h
  cases htoks with
  | query hkw hselect hkw' hkw'' hgroup horder hlimit =>
      have hwhere := parseWhere_filter hq hkw'' hliteral (starts_after_where hgroup horder hlimit)
      have hparsed := parseQuery_clauses hkw hselect hkw' hwhere hgroup horder hlimit hq.named
        hq.valid
      have hvalid : Query.validate { q with predicate := .cmp field .eq value } = .ok () := hq.valid
      simp only [parse, bind, Except.bind, htokens, hparsed, hvalid, Except.mapError]

end Parse

/-! ## The literal of a word -/

section Meaning

variable {w : String} {k : Int} {n : I64} {x : F64}

theorem hasValue_ofI64 (n : I64) : (Value.ofI64 n).HasValue n.val := by
  rw [Value.ofI64]
  split <;> rfl

theorem jsonInteger_of_i64 (n : I64) : JsonInteger n.val := by
  have hlo := n.lo_le
  have hhi := n.le_hi
  exact ⟨hlo, by omega⟩

theorem not_meant_null : ¬Meant w .null := by
  rintro ⟨_, _, value⟩
  exact value

/-- A word that spells an integer of 64 bits is no name and does not overflow. -/
theorem spells_survives (h : Decimal.Spells w.toList k) (hk : JsonInteger k) :
    ∃ x, Decimal.parse w.toList = some x ∧ F64.IsInteger (nearest k) x.toModel.unpack ∧
      Decimal.namesNonFinite w.toList = false ∧ ¬Decimal.Overflows w.toList := by
  obtain ⟨hlo, hhi⟩ := hk
  obtain ⟨x, hx, hinteger⟩ := h.isInteger_parse (by omega)
  obtain ⟨negative, m, hread⟩ : ∃ negative m,
      Decimal.signedNumeral w.toList = some (negative, m) := by
    cases h with
    | positive reads _ => exact ⟨_, _, reads⟩
    | negative reads _ => exact ⟨_, _, reads⟩
  refine ⟨x, hx, hinteger, ?_, ?_⟩
  · rw [Bool.eq_false_iff]
    intro hname
    rw [Decimal.signedNumeral_of_namesNonFinite hname] at hread
    cases hread
  · exact (Decimal.isFinite_parse_iff hread hx).mp (F64.isFinite_of_isInteger hinteger)

/-- A signed integer is exact. -/
theorem meant_int (h : integerOf w = some n) : Meant w (.ofI64 n) ∧ Survives w := by
  obtain ⟨k, hsigned, hnarrow⟩ := Option.bind_eq_some_iff.mp h
  have hk : k = n.val := (BoundedInt.narrow_eq_some hnarrow).symm
  subst hk
  have hspells := Decimal.spells_of_signed hsigned
  have hfits := jsonInteger_of_i64 n
  obtain ⟨_, _, _, hname, hover⟩ := spells_survives hspells hfits
  refine ⟨.integer hspells hfits (hasValue_ofI64 n), hname, hover, fun _ _ _ hnone => ?_⟩
  rw [h] at hnone
  cases hnone

/-- A word that is no number stands for itself. -/
theorem meant_text (h : Decimal.parse w.toList = none) : Meant w (.string w) ∧ Survives w := by
  have hnumeral : Decimal.signedNumeral w.toList = none := by
    cases hread : Decimal.signedNumeral w.toList with
    | none => rfl
    | some read =>
        rw [Decimal.parse_of_signedNumeral hread] at h
        cases h
  have hspells : ∀ k, ¬Decimal.Spells w.toList k := by
    rintro k (⟨reads, _⟩ | ⟨reads, _⟩)
    · cases hnumeral.symm.trans reads
    · cases hnumeral.symm.trans reads
  refine ⟨.text ?_, ?_, ?_, fun k hk => absurd hk (hspells k)⟩
  · rintro (⟨k, hk, _⟩ | ⟨hsome, _⟩)
    · exact hspells k hk
    · rw [hnumeral] at hsome
      cases hsome
  · rw [Bool.eq_false_iff]
    intro hname
    obtain ⟨x, hx, _⟩ := Decimal.parse_of_namesNonFinite hname
    cases h.symm.trans hx
  · rintro ⟨_, _, reads, _⟩
    cases hnumeral.symm.trans reads

/-- The nearest binary64 number to a numeral that does not overflow is what the numeral
means, unless the numeral is an integer of 64 bits that was rounded. -/
theorem meant_float {y : FiniteF64} (hnumeral : (Decimal.signedNumeral w.toList).isSome)
    (hread : Decimal.parse w.toList = some y.val) : Meant w (.number (.float y)) ↔
      ∀ k, Decimal.Spells w.toList k → JsonInteger k → spacing k.natAbs ∣ k.natAbs := by
  have hvalue : ∀ k, Decimal.Spells w.toList k → JsonInteger k →
      ((Value.number (.float y)).HasValue k ↔ spacing k.natAbs ∣ k.natAbs) := by
    intro k hspells hfits
    obtain ⟨x, hx, hinteger, _⟩ := spells_survives hspells hfits
    cases hread.symm.trans hx
    exact hinteger.hasValue_iff.trans (eq_comm.trans (nearest_eq_self_iff k))
  refine ⟨fun hmeant k hspells hfits => ?_, fun hexact => ?_⟩
  · cases hmeant with
    | integer spells fits value =>
        cases spells.unique hspells
        exact (hvalue k hspells hfits).mp value
    | float _ wide => exact absurd hfits (wide k hspells)
  · by_cases hinteger : ∃ k, Decimal.Spells w.toList k ∧ JsonInteger k
    · obtain ⟨k, hspells, hfits⟩ := hinteger
      exact .integer hspells hfits ((hvalue k hspells hfits).mpr (hexact k hspells hfits))
    · refine .float hnumeral (fun k hspells hfits => hinteger ⟨k, hspells, hfits⟩) hread ?_
      intro z hz
      obtain ⟨x, hx, hexact⟩ := hz.parse_eq
      cases hread.symm.trans hx
      exact hexact

/-- A binary64 number is what the word means if it is finite and not rounded. -/
theorem meant_float_iff (hwide : integerOf w = none) (hread : Decimal.parse w.toList = some x) :
    Meant w (.ofF64 x) ↔ Survives w := by
  cases hnumeral : Decimal.signedNumeral w.toList with
  | none =>
      have hname : Decimal.namesNonFinite w.toList = true := by
        by_contra hname
        have hnone := Decimal.parse_eq_none hnumeral (Bool.eq_false_iff.mpr hname)
        cases hread.symm.trans hnone
      obtain ⟨y, hy, hinfinite⟩ := Decimal.parse_of_namesNonFinite hname
      cases hread.symm.trans hy
      have hnull : Value.ofF64 x = .null := dif_neg (Bool.eq_false_iff.mp hinfinite)
      rw [hnull]
      refine iff_of_false not_meant_null fun hsurvives => ?_
      rw [hsurvives.finite] at hname
      cases hname
  | some read =>
      obtain ⟨negative, n⟩ := read
      have hname : Decimal.namesNonFinite w.toList = false := by
        rw [Bool.eq_false_iff]
        intro hname
        cases hnumeral.symm.trans (Decimal.signedNumeral_of_namesNonFinite hname)
      have hfinite := Decimal.isFinite_parse_iff hnumeral hread
      by_cases hover : Decimal.Overflows w.toList
      · have hnull : Value.ofF64 x = .null := dif_neg fun h => hfinite.mp h hover
        rw [hnull]
        exact iff_of_false not_meant_null fun hsurvives => hsurvives.range hover
      · have hx : x.isFinite = true := hfinite.mpr hover
        have hnumber : Value.ofF64 x = .number (.float ⟨x, hx⟩) := dif_pos hx
        rw [hnumber, meant_float (Option.isSome_of_eq_some hnumeral) hread]
        exact ⟨fun h => ⟨hname, hover, fun k hspells hfits _ => h k hspells hfits⟩,
          fun h k hspells hfits => h.exact k hspells hfits hwide⟩

/-- The literal of a word that is no constant means what the word spells exactly if the
word survives. -/
theorem meant_literalFromWord_iff
    (hconstant : ∀ kw ∈ ["true", "false", "null"], eqKeyword kw w = false) :
    Meant w (literalFromWord w) ↔ Survives w := by
  have hvalue := wordValue w
  generalize literalFromWord w = v at hvalue ⊢
  cases hvalue with
  | null kw => exact absurd kw (by rw [hconstant "null" (by decide)]; exact Bool.false_ne_true)
  | @bool b kw =>
      have hb : eqKeyword (toString b) w = false := by
        cases b
        · exact hconstant "false" (by decide)
        · exact hconstant "true" (by decide)
      rw [hb] at kw
      cases kw
  | int reads => exact iff_of_true (meant_int reads).1 (meant_int reads).2
  | float wide reads => exact meant_float_iff wide reads
  | text _ _ number => exact iff_of_true (meant_text number).1 (meant_text number).2

end Meaning

/-! ## The filter of a word -/

section Filter

variable {q : Query} {field w text quoted : String} {v : Value}

theorem faithful_iff (hq : Filters q field w) : Faithful q field w v ↔ Meant w v := by
  refine ⟨Faithful.meant, fun hmeant => ⟨hmeant, ?_, fun hfits row => ?_⟩⟩
  · rintro rfl
    exact not_meant_null hmeant
  · cases hmeant with
    | integer spells fits _ => exact absurd (.inl ⟨_, spells, fits⟩) hfits
    | @float x numeral _ reads =>
        obtain ⟨_, hread⟩ := Option.isSome_iff_exists.mp numeral
        have hover := (Decimal.isFinite_parse_iff hread reads).mp x.finite
        exact absurd (.inr ⟨numeral, hover⟩) hfits
    | text => rw [hq.predicate]

/-- The filter `field = w` of a word that is no constant means what the word spells
exactly if the word survives. -/
theorem unquoted_iff (hq : Filters q field w)
    (hconstant : ∀ kw ∈ ["true", "false", "null"], eqKeyword kw w = false)
    (htext : FilterText q field (.word w) text) (hquoted : FilterText q field (.str w) quoted) :
    parse quoted = .ok q ∧
      ∃ v, parse text = .ok { q with predicate := .cmp field .eq v } ∧
        (Faithful q field w v ↔ Survives w) := by
  have hstring := parse_filterText hq (fun _ => rfl) hquoted
  rw [← hq.predicate] at hstring
  refine ⟨hstring, _, parse_filterText hq (fun _ => rfl) htext, ?_⟩
  exact (faithful_iff hq).trans (meant_literalFromWord_iff hconstant)

private def starWhere (w : String) : Query where
  dataset := "t"
  aggregates := []
  predicate := .cmp "f" .eq (.string w)
  groupBy := []
  orderBy := []
  limit := none
  projection := some []

private def starToks (literal : Tok) : List Tok :=
  .word "SELECT" :: ([.word "*"] ++ .word "FROM" :: .word "t" ::
    ([.word "WHERE", .word "f", .word "=", literal] ++ ([] ++ ([] ++ []))))

private theorem filters_starWhere (w : String) : Filters (starWhere w) "f" w where
  named :=
    { dataset := (by decide : IsName "t")
      aggregates := fun _ h => absurd h List.not_mem_nil
      predicate := ⟨by decide, by decide⟩
      groupBy := fun _ h => absurd h List.not_mem_nil
      orderBy := fun _ h => absurd h List.not_mem_nil
      projection := by
        rintro _ ⟨⟩ col h
        exact absurd h List.not_mem_nil }
  valid := by
    have hdataset : ¬Text.trim "t".toList = [] := by decide
    rw [Query.validate, starWhere, if_neg hdataset]
    rfl
  predicate := rfl

private theorem filterText_starWhere {w text : String} {literal : Tok}
    (h : tokenize text = .ok (starToks literal)) :
    FilterText (starWhere w) "f" literal text :=
  ⟨_, .query (by decide) (.star rfl) (by decide) (by decide) .absent .absent .absent, h⟩

/-- The greatest unsigned integer is rounded. -/
theorem unquoted_greatest : parse "SELECT * FROM t WHERE f = '18446744073709551615'" =
      .ok (starWhere "18446744073709551615") ∧
    ∃ v, parse "SELECT * FROM t WHERE f = 18446744073709551615" =
        .ok { starWhere "18446744073709551615" with predicate := .cmp "f" .eq v } ∧
      (Faithful (starWhere "18446744073709551615") "f" "18446744073709551615" v ↔
        Survives "18446744073709551615") :=
  unquoted_iff (filters_starWhere _) (by decide)
    (filterText_starWhere (by decide +kernel)) (filterText_starWhere (by decide +kernel))

/-- The filter `f = nan` compares with null, so it keeps a row without the column, which
`f = 'nan'` does not keep. -/
theorem unquoted_nan :
    parse "SELECT * FROM t WHERE f = nan" =
        .ok { starWhere "nan" with predicate := .cmp "f" .eq .null } ∧
      parse "SELECT * FROM t WHERE f = 'nan'" = .ok (starWhere "nan") ∧
      (Predicate.cmp "f" .eq .null).eval ∅ = true ∧ (starWhere "nan").predicate.eval ∅ = false ∧
      ¬∀ (q : Query) (field w text quoted : String), Filters q field w →
        (∀ kw ∈ ["true", "false", "null"], eqKeyword kw w = false) →
        FilterText q field (.word w) text → FilterText q field (.str w) quoted →
        ∃ v, parse text = .ok { q with predicate := .cmp field .eq v } ∧ Faithful q field w v := by
  have htext : FilterText (starWhere "nan") "f" (.word "nan") "SELECT * FROM t WHERE f = nan" :=
    filterText_starWhere (by decide +kernel)
  have hquoted : FilterText (starWhere "nan") "f" (.str "nan") "SELECT * FROM t WHERE f = 'nan'" :=
    filterText_starWhere (by decide +kernel)
  have hnull : literalFromWord "nan" = .null := rfl
  have hparse := parse_filterText (filters_starWhere "nan") (fun _ => rfl) htext
  rw [hnull] at hparse
  refine ⟨hparse, parse_filterText (filters_starWhere "nan") (fun _ => rfl) hquoted, rfl, rfl,
    fun hall => ?_⟩
  obtain ⟨v, hv, hfaithful⟩ := hall _ _ _ _ _ (filters_starWhere "nan") (by decide) htext hquoted
  cases hparse.symm.trans hv
  exact hfaithful.notNull rfl

end Filter

end Sql

end CeQuery
