import CeQuery.Sql.Placement

/-!
# What the parser accepts

Each function of the parser reads what is written by the corresponding part of the
grammar, with the words that the parser takes, and nothing of the rest
(`ReadsAs`). So an accepted text has a derivation that denotes the query returned, and
the derivation is one of the intended grammar exactly if no two neighbouring tokens
stand wrong (`parse_derives_iff`).
-/

namespace CeQuery

namespace Sql

open Lexicon

/-! ## Literals and terms -/

section Terms

variable {op : CmpOp} {ts rest : List Tok}

theorem wordValue (w : String) : WordValue w (literalFromWord w) := by
  have hkw : ∀ kw ∈ ["true", "false", "null"],
      w.toList.map Text.asciiLower = kw.toList ↔ eqKeyword kw w = true := by
    have hlower : ∀ kw ∈ ["true", "false", "null"],
        kw.toList.map Text.asciiLower = kw.toList := by decide
    intro kw hmem
    rw [eqKeyword_iff, hlower kw hmem]
  unfold literalFromWord
  dsimp only
  split
  · rename_i htrue
    exact .bool (b := true) ((hkw "true" (by decide)).mp htrue)
  · rename_i htrue
    split
    · rename_i hfalse
      exact .bool (b := false) ((hkw "false" (by decide)).mp hfalse)
    · rename_i hfalse
      split
      · rename_i hnull
        exact .null ((hkw "null" (by decide)).mp hnull)
      · rename_i hnull
        split
        · rename_i n hint
          exact .int hint
        · rename_i hint
          split
          · rename_i x hnumber
            exact .float hint hnumber
          · rename_i hnumber
            refine .text ?_ hint hnumber
            intro kw hmem
            rw [Bool.eq_false_iff]
            intro hword
            have hlower := (hkw kw hmem).mpr hword
            simp only [List.mem_cons, List.not_mem_nil, or_false] at hmem
            obtain rfl | rfl | rfl := hmem
            · exact htrue hlower
            · exact hfalse hlower
            · exact hnull hlower

theorem parseOp_eq (h : parseOp ts = .ok (op, rest)) :
    ∃ o ∈ opWords op, ts = .word o :: rest := by
  unfold parseOp at h
  split at h
  · rename_i w ts
    suffices hw : w ∈ opWords op ∧ ts = rest from ⟨w, hw.1, hw.2 ▸ rfl⟩
    grind [opWords]
  · cases h

theorem parseLiteral_eq {value : Value} (h : parseLiteral ts = .ok (value, rest)) :
    ∃ t, ts = t :: rest ∧ accepted.Literal value t := by
  unfold parseLiteral at h
  split at h <;> cases h
  · exact ⟨_, rfl, .quoted _⟩
  · exact ⟨_, rfl, .word trivial (wordValue _)⟩

theorem readsAs_term : ReadsAs parseTerm accepted.Term := by
  intro ts p rest h
  obtain ⟨⟨negate, ts₁⟩, hnot, h⟩ := bind_eq_ok_iff.mp h
  obtain ⟨⟨field, ts₂⟩, hfield, h⟩ := bind_eq_ok_iff.mp h
  obtain ⟨⟨op, ts₃⟩, hop, h⟩ := bind_eq_ok_iff.mp h
  obtain ⟨⟨value, ts₄⟩, hvalue, h⟩ := bind_eq_ok_iff.mp h
  cases h
  obtain ⟨rfl, hname⟩ := nextWord_eq hfield
  obtain ⟨o, ho, rfl⟩ := parseOp_eq hop
  obtain ⟨t, rfl, hliteral⟩ := parseLiteral_eq hvalue
  obtain ⟨rfl, w, rfl, hkw⟩ | ⟨rfl, rfl⟩ := optionalKw_eq hnot
  · exact ⟨[.word w, .word field, .word o, t], rfl, .not hkw hname ho hliteral⟩
  · exact ⟨[.word field, .word o, t], rfl, .cmp hname ho hliteral⟩

/-- A link is a connective with a term behind it. -/
theorem parseLink_eq {f : Option (Predicate → Predicate)} (h : parseLink ts = .ok (f, rest)) :
    (f = none ∧ ts = rest) ∨ ∃ w t us, ts = .word w :: (us ++ rest) ∧ accepted.Term t us ∧
      ((eqKeyword "AND" w = true ∧ f = some (.and · t)) ∨
        (eqKeyword "OR" w = true ∧ f = some (.or · t))) := by
  obtain ⟨⟨conjunction, ts₁⟩, hand, hlink⟩ := bind_eq_ok_iff.mp h
  obtain ⟨rfl, w, rfl, hkw⟩ | ⟨rfl, rfl⟩ := optionalKw_eq hand
  · obtain ⟨⟨right, ts₂⟩, hread, heq⟩ := bind_eq_ok_iff.mp hlink
    cases heq
    obtain ⟨us, rfl, hterm⟩ := readsAs_term hread
    exact .inr ⟨w, right, us, rfl, hterm, .inl ⟨hkw, rfl⟩⟩
  · obtain ⟨⟨disjunction, ts₂⟩, hor, hother⟩ := bind_eq_ok_iff.mp hlink
    obtain ⟨rfl, w, rfl, hkw⟩ | ⟨rfl, rfl⟩ := optionalKw_eq hor
    · obtain ⟨⟨right, ts₃⟩, hread, heq⟩ := bind_eq_ok_iff.mp hother
      cases heq
      obtain ⟨us, rfl, hterm⟩ := readsAs_term hread
      exact .inr ⟨w, right, us, rfl, hterm, .inr ⟨hkw, rfl⟩⟩
    · cases hother
      exact .inl ⟨rfl, rfl⟩

theorem readsAs_predicate : ReadsAs parsePredicate accepted.Chain := by
  intro ts p rest h
  obtain ⟨⟨first, ts₁⟩, hread, hlinks⟩ := bind_eq_ok_iff.mp h
  obtain ⟨us, rfl, hterm⟩ := readsAs_term hread
  have hchain := Link.readsAs_chain (S := accepted.Chain) ?_ ?_ (.term hterm) hlinks
  · obtain ⟨vs, rfl, hchain⟩ := hchain
    exact ⟨us ++ vs, (List.append_assoc ..).symm, hchain⟩
  · intro ts f rest hlink
    obtain ⟨hnone, _⟩ | ⟨w, t, vs, rfl, hterm, hf⟩ := parseLink_eq hlink
    · cases hnone
    · refine ⟨.word w :: vs, rfl, fun a us ha => ?_⟩
      obtain ⟨hkw, heq⟩ | ⟨hkw, heq⟩ := hf <;> cases heq
      · exact .and ha hkw hterm
      · exact .or ha hkw hterm
  · intro ts rest hlink
    obtain ⟨_, rfl⟩ | ⟨_, _, _, _, _, ⟨_, heq⟩ | ⟨_, heq⟩⟩ := parseLink_eq hlink
    · rfl
    · cases heq
    · cases heq

end Terms

/-! ## Lists -/

section Lists

variable {ts rest : List Tok}

theorem fieldArg_eq {f : String → Agg} {arg : String} {agg : Agg}
    (h : (fieldArg arg).map f = .ok agg) : arg ≠ "*" ∧ agg = f arg := by
  rw [fieldArg] at h
  split at h
  · cases h
  · rename_i hstar
    cases h
    exact ⟨hstar, rfl⟩

/-- The name is looked at in upper case. The argument of `COUNT` is not looked at. -/
theorem aggregate_eq {func arg : String} {agg : Agg} (h : aggregate func arg = .ok agg) :
    (agg = .count ∧ eqKeyword "COUNT" func = true) ∨
      (agg ≠ .count ∧ eqKeyword (aggKeyword agg) func = true ∧ aggArg agg = arg ∧ arg ≠ "*") := by
  have hkw : ∀ {kw : String},
      String.ofList (func.toList.map Text.asciiUpper) = kw → eqKeyword kw func = true := by
    rintro kw rfl
    rw [eqKeyword_iff, String.toList_ofList, List.map_map]
    exact List.map_congr_left fun c _ => (Text.asciiLower_asciiUpper c).symm
  unfold aggregate at h
  dsimp only at h
  split at h
  · rename_i hcount
    cases h
    exact .inl ⟨rfl, hkw hcount⟩
  · right
    split at h
    · rename_i hsum
      obtain ⟨hstar, rfl⟩ := fieldArg_eq h
      exact ⟨by simp, hkw hsum, rfl, hstar⟩
    · split at h
      · rename_i hmin
        obtain ⟨hstar, rfl⟩ := fieldArg_eq h
        exact ⟨by simp, hkw hmin, rfl, hstar⟩
      · split at h
        · rename_i hmax
          obtain ⟨hstar, rfl⟩ := fieldArg_eq h
          exact ⟨by simp, hkw hmax, rfl, hstar⟩
        · split at h
          · rename_i havg
            obtain ⟨hstar, rfl⟩ := fieldArg_eq h
            exact ⟨by simp, hkw havg, rfl, hstar⟩
          · cases h

theorem readsAs_agg : ReadsAs parseAgg accepted.Call := by
  intro ts agg rest h
  obtain ⟨⟨func, ts₁⟩, hfunc, h⟩ := bind_eq_ok_iff.mp h
  obtain ⟨ts₂, hopen, h⟩ := bind_eq_ok_iff.mp h
  obtain ⟨⟨arg, ts₃⟩, harg, h⟩ := bind_eq_ok_iff.mp h
  obtain ⟨ts₄, hclose, h⟩ := bind_eq_ok_iff.mp h
  obtain ⟨agg', hagg, h⟩ := bind_eq_ok_iff.mp h
  cases h
  obtain ⟨rfl, _⟩ := nextWord_eq hfunc
  cases expectWord_eq hopen
  cases argument_eq harg
  cases expectWord_eq hclose
  refine ⟨[.word func, .word "(", .word arg, .word ")"], rfl, ?_⟩
  obtain ⟨rfl, hkw⟩ | ⟨hfield, hkw, rfl, hstar⟩ := aggregate_eq hagg
  · exact .count hkw trivial
  · exact .field hfield hkw hstar

theorem readsAs_column {message : String} : ReadsAs (nextWord message) accepted.Column := by
  intro ts col rest h
  obtain ⟨rfl, hname⟩ := nextWord_eq h
  exact ⟨[.word col], rfl, .name hname⟩

theorem readsAs_columns {message : String} :
    ReadsAs (columns message) (SepBy accepted.Column isComma) :=
  Item.readsAs_sepBy readsAs_column

theorem readsAs_orderKey : ReadsAs parseOrderKey accepted.Key := by
  intro ts key rest h
  obtain ⟨⟨column, ts₁⟩, hcolumn, h⟩ := bind_eq_ok_iff.mp h
  obtain ⟨⟨asc, ts₂⟩, hasc, hkey⟩ := bind_eq_ok_iff.mp h
  obtain ⟨rfl, hname⟩ := nextWord_eq hcolumn
  obtain ⟨rfl, w, rfl, hkw⟩ | ⟨rfl, rfl⟩ := optionalKw_eq hasc
  · cases hkey
    exact ⟨[.word column, .word w], rfl, .directed hname hkw⟩
  · obtain ⟨⟨desc, ts₃⟩, hdesc, heq⟩ := bind_eq_ok_iff.mp hkey
    cases heq
    obtain ⟨rfl, w, rfl, hkw⟩ | ⟨rfl, rfl⟩ := optionalKw_eq hdesc
    · have hdescending : accepted.Key { column, dir := .desc } _ := .directed hname hkw
      exact ⟨[.word column, .word w], rfl, hdescending⟩
    · exact ⟨[.word column], rfl, .ascending hname⟩

end Lists

/-! ## Clauses -/

section Clauses

variable {ts rest : List Tok}

theorem readsAs_where : ReadsAs parseWhere accepted.Where := by
  intro ts p rest h
  obtain ⟨⟨found, ts₁⟩, hwhere, hclause⟩ := bind_eq_ok_iff.mp h
  obtain ⟨rfl, w, rfl, hkw⟩ | ⟨rfl, rfl⟩ := optionalKw_eq hwhere
  · obtain ⟨us, rfl, hchain⟩ := readsAs_predicate hclause
    exact ⟨.word w :: us, rfl, .present hkw hchain⟩
  · cases hclause
    exact ⟨[], rfl, .absent⟩

theorem readsAs_group : ReadsAs parseGroupBy accepted.Group := by
  intro ts cols rest h
  obtain ⟨⟨found, ts₁⟩, hgroup, hclause⟩ := bind_eq_ok_iff.mp h
  obtain ⟨rfl, w, rfl, hkw⟩ | ⟨rfl, rfl⟩ := optionalKw_eq hgroup
  · obtain ⟨ts₂, hby, hread⟩ := bind_eq_ok_iff.mp hclause
    obtain ⟨w', rfl, hkw'⟩ := expectKw_eq hby
    obtain ⟨us, rfl, hlist⟩ := readsAs_columns hread
    exact ⟨.word w :: .word w' :: us, rfl, .present hkw hkw' hlist⟩
  · cases hclause
    exact ⟨[], rfl, .absent⟩

theorem readsAs_order : ReadsAs optionalOrderBy accepted.Order := by
  intro ts keys rest h
  unfold optionalOrderBy at h
  split at h
  · obtain ⟨ts₁, horder, hclause⟩ := bind_eq_ok_iff.mp h
    obtain ⟨ts₂, hby, hread⟩ := bind_eq_ok_iff.mp hclause
    obtain ⟨w, rfl, hkw⟩ := expectKw_eq horder
    obtain ⟨w', rfl, hkw'⟩ := expectKw_eq hby
    obtain ⟨us, rfl, hlist⟩ := Item.readsAs_sepBy readsAs_orderKey hread
    exact ⟨.word w :: .word w' :: us, rfl, .present hkw hkw' hlist⟩
  · cases h
    exact ⟨[], rfl, .absent⟩

theorem parseLimit_eq {n : Usize} (h : parseLimit ts = .ok (n, rest)) :
    ∃ us, ts = us ++ rest ∧ accepted.Limit (some n) us := by
  obtain ⟨ts₁, hlimit, hclause⟩ := bind_eq_ok_iff.mp h
  obtain ⟨⟨w', ts₂⟩, hword, hread⟩ := bind_eq_ok_iff.mp hclause
  obtain ⟨w, rfl, hkw⟩ := expectKw_eq hlimit
  obtain ⟨rfl, hname⟩ := nextWord_eq hword
  dsimp only at hread
  split at hread
  · rename_i hnumber
    cases hread
    exact ⟨[.word w, .word w'], rfl, .present hkw hname hnumber⟩
  · cases hread

theorem readsAs_limit : ReadsAs optionalLimit accepted.Limit := by
  intro ts limit rest h
  unfold optionalLimit at h
  split at h
  · cases hread : parseLimit ts with
    | error e =>
        rw [hread] at h
        cases h
    | ok result =>
        rw [hread] at h
        cases h
        exact parseLimit_eq hread
  · cases h
    exact ⟨[], rfl, .absent⟩

/-- How a `SELECT` list is written. -/
inductive Listed : SelectList → List Tok → Prop where
  | aggregates {aggs : List Agg} {us : List Tok} (list : SepBy accepted.Call isComma aggs us) :
      Listed (.aggregates aggs) us
  | star : Listed (.projection []) [.word "*"]
  | columns {cols : List String} {us : List Tok} (list : SepBy accepted.Column isComma cols us)
      (first : us.head? ≠ some (.word "*")) : Listed (.projection cols) us

theorem readsAs_selectList : ReadsAs parseSelectList Listed := by
  intro ts select rest h
  unfold parseSelectList at h
  split at h
  · rename_i hstar
    cases h
    obtain ⟨w, hw⟩ : ∃ w, ts = .word w :: ts.tail ∧ w = "*" := by
      cases ts with
      | nil => cases hstar
      | cons t ts =>
          cases t with
          | str s => cases hstar
          | word w => exact ⟨w, rfl, eq_of_beq hstar⟩
    obtain ⟨hts, rfl⟩ := hw
    exact ⟨[.word "*"], hts, .star⟩
  · rename_i hstar
    split at h
    · obtain ⟨⟨aggs, ts₁⟩, hread, heq⟩ := bind_eq_ok_iff.mp h
      cases heq
      obtain ⟨us, rfl, hlist⟩ := Item.readsAs_sepBy readsAs_agg hread
      exact ⟨us, rfl, .aggregates hlist⟩
    · obtain ⟨⟨cols, ts₁⟩, hread, heq⟩ := bind_eq_ok_iff.mp h
      cases heq
      obtain ⟨us, rfl, hlist⟩ := readsAs_columns hread
      refine ⟨us, rfl, .columns hlist fun hfirst => hstar ?_⟩
      cases us with
      | nil => cases hfirst
      | cons u us =>
          cases Option.some.inj hfirst
          exact beq_self_eq_true "*"

/-- A projection has no group keys. -/
theorem ungrouped {groupBy : List String} {α : Type} {x y : α}
    (h : (if groupBy ≠ [] then .error .groupedProjection else .ok x : Except SqlError α) = .ok y) :
    groupBy = [] ∧ x = y := by
  split at h
  · cases h
  · rename_i hempty
    exact ⟨not_not.mp hempty, Except.ok.inj h⟩

/-- What is read as a query is written as the query. -/
theorem readsAs_query : ReadsAs parseQuery accepted.Derives := by
  intro ts q rest h
  obtain ⟨ts₁, hselect, h⟩ := bind_eq_ok_iff.mp h
  obtain ⟨⟨select, ts₂⟩, hitems, h⟩ := bind_eq_ok_iff.mp h
  obtain ⟨ts₃, hfrom, h⟩ := bind_eq_ok_iff.mp h
  obtain ⟨⟨dataset, ts₄⟩, hdataset, h⟩ := bind_eq_ok_iff.mp h
  obtain ⟨⟨predicate, ts₅⟩, hpredicate, h⟩ := bind_eq_ok_iff.mp h
  obtain ⟨⟨groupBy, ts₆⟩, hgroupBy, h⟩ := bind_eq_ok_iff.mp h
  obtain ⟨⟨orderBy, ts₇⟩, horderBy, h⟩ := bind_eq_ok_iff.mp h
  obtain ⟨⟨limit, ts₈⟩, hbound, hquery⟩ := bind_eq_ok_iff.mp h
  obtain ⟨w, rfl, hkw⟩ := expectKw_eq hselect
  obtain ⟨ss, rfl, hlist⟩ := readsAs_selectList hitems
  obtain ⟨w', rfl, hkw'⟩ := expectKw_eq hfrom
  obtain ⟨rfl, hname⟩ := nextWord_eq hdataset
  obtain ⟨ps, rfl, hwhere⟩ := readsAs_where hpredicate
  obtain ⟨gs, rfl, hgroup⟩ := readsAs_group hgroupBy
  obtain ⟨os, rfl, horder⟩ := readsAs_order horderBy
  obtain ⟨ls, rfl, hlimit⟩ := readsAs_limit hbound
  have hsplit : ∀ rest : List Tok,
      .word w :: (ss ++ .word w' :: .word dataset :: (ps ++ (gs ++ (os ++ (ls ++ rest))))) =
        .word w :: (ss ++ .word w' :: .word dataset :: (ps ++ (gs ++ (os ++ ls)))) ++ rest := by
    simp
  cases hlist with
  | aggregates hlist =>
      cases hquery
      exact ⟨_, hsplit _, .query hkw (.aggregates rfl hlist) hkw' hname hwhere hgroup horder hlimit⟩
  | star =>
      obtain ⟨rfl, heq⟩ := ungrouped hquery
      cases heq
      exact ⟨_, hsplit _, .query hkw (.star ⟨rfl, rfl, rfl⟩) hkw' hname hwhere hgroup horder hlimit⟩
  | columns hlist hfirst =>
      obtain ⟨rfl, heq⟩ := ungrouped hquery
      cases heq
      exact ⟨_, hsplit _, .query hkw (.columns ⟨rfl, rfl, rfl⟩ hlist hfirst) hkw' hname hwhere
        hgroup horder hlimit⟩

end Clauses

/-- The tokens of an accepted text are a derivation of the query with the words that the
parser takes. -/
theorem parse_accepted {input : String} {q : Query} (h : parse input = .ok q) :
    ∃ ts, tokenize input = .ok ts ∧ accepted.Derives q ts := by
  obtain ⟨ts, htokens, hparsed⟩ := bind_eq_ok_iff.mp h
  obtain ⟨⟨q', rest⟩, hquery, hvalid⟩ := bind_eq_ok_iff.mp hparsed
  dsimp only at hvalid
  split at hvalid
  · cases hvalid
  · cases hvalid
  · obtain ⟨_, _, heq⟩ := bind_eq_ok_iff.mp hvalid
    cases heq
    obtain ⟨us, rfl, hderives⟩ := readsAs_query hquery
    rw [List.append_nil] at htokens
    exact ⟨us, htokens, hderives⟩

/-- An accepted text is derivable and denotes the query returned, unless an operator
stands behind a parenthesis or a comparison operator, or a star where none may stand. -/
theorem parse_derives_iff {input : String} {q : Query} (h : parse input = .ok q) :
    ∃ ts, tokenize input = .ok ts ∧ (intended.Derives q ts ↔ WellPlaced ts) := by
  obtain ⟨ts, htokens, hderives⟩ := parse_accepted h
  exact ⟨ts, htokens, fun hintended => hintended.wellPlaced, hderives.placed⟩

/-! One aggregate of a dataset. -/

private def call (agg : Agg) : Query where
  dataset := "t"
  aggregates := [agg]
  predicate := .true
  groupBy := []
  orderBy := []
  limit := none
  projection := none

private def callToks (func arg : String) : List Tok :=
  ["SELECT", func, "(", arg, ")", "FROM", "t"].map .word

private theorem parse_call {text func arg : String} {agg : Agg} (hfunc : IsName func)
    (hagg : aggregate func arg = .ok agg) (htokens : tokenize text = .ok (callToks func arg)) :
    parse text = .ok (call agg) := by
  have hread : parseAgg ([func, "(", arg, ")", "FROM", "t"].map .word) =
      .ok (agg, [.word "FROM", .word "t"]) := by
    simp only [parseAgg, List.map_cons, List.map_nil, bind, Except.bind, nextWord_name hfunc,
      expectWord, if_true, argument, hagg]
  have hlist : parseAggList ([func, "(", arg, ")", "FROM", "t"].map .word) =
      .ok ([agg], [.word "FROM", .word "t"]) :=
    Item.sepBy_last hread (by rintro _ ⟨⟩; decide)
  have hselect : parseSelectList ([func, "(", arg, ")", "FROM", "t"].map .word) =
      .ok (.aggregates [agg], [.word "FROM", .word "t"]) := by
    have hstar : ¬isWord "*" ([func, "(", arg, ")", "FROM", "t"].map .word) = true := by
      intro hstar
      cases eq_of_beq (hstar : (func == "*") = true)
      exact absurd hfunc (by decide)
    have hfirst : isAggFirst ([func, "(", arg, ")", "FROM", "t"].map .word) = true := by
      rw [List.map_cons, List.map_cons, isAggFirst, not_isOperator hfunc]
      rfl
    rw [parseSelectList, if_neg hstar, if_pos hfirst, hlist]
    rfl
  have hquery : parseQuery (callToks func arg) = .ok (call agg, []) := by
    have hkw : expectKw "SELECT" (callToks func arg) =
        .ok ([func, "(", arg, ")", "FROM", "t"].map .word) := rfl
    simp only [parseQuery, bind, Except.bind, hkw, hselect]
    rfl
  have hvalid : (call agg).validate = .ok () := by
    have hdataset : ¬Text.trim "t".toList = [] := by decide
    rw [Query.validate, call, if_neg hdataset]
    rfl
  simp only [parse, bind, Except.bind, htokens, hquery, hvalid, Except.mapError]

private theorem parse_count :
    parse "SELECT COUNT(x) FROM t" = .ok (call .count) ∧
      tokenize "SELECT COUNT(x) FROM t" = .ok (callToks "COUNT" "x") := by
  have htokens : tokenize "SELECT COUNT(x) FROM t" = .ok (callToks "COUNT" "x") := by
    decide +kernel
  exact ⟨parse_call (by decide) rfl htokens, htokens⟩

/-- The intended grammar derives `COUNT` of a column. -/
theorem parse_derives_count : ∃ ts, tokenize "SELECT COUNT(x) FROM t" = .ok ts ∧
    (intended.Derives (call .count) ts ↔ WellPlaced ts) :=
  parse_derives_iff parse_count.1

private theorem eqKeyword_count {agg : Agg} (h : agg ≠ .count) :
    eqKeyword (aggKeyword agg) "COUNT" = false := by
  have hall : ∀ kw ∈ ["SUM", "MIN", "MAX", "AVG"], eqKeyword kw "COUNT" = false := by decide
  cases agg with
  | count => exact absurd rfl h
  | sum f | min f | max f | avg f => exact hall _ (by simp [aggKeyword])

/-- The documented grammar does not derive `COUNT` of a column. -/
private theorem not_derives_count (q : Query) : ¬documented.Derives q (callToks "COUNT" "x") := by
  intro h
  generalize hts : callToks "COUNT" "x" = ts at h
  cases h with
  | @query w w' ss ps gs os ls _ hselect hkw' _ _ _ _ _ =>
      have htail : [.word "COUNT", .word "(", .word "x", .word ")", .word "FROM", .word "t"] =
          ss ++ .word w' :: .word q.dataset :: (ps ++ (gs ++ (os ++ ls))) := (List.cons.inj hts).2
      cases hselect with
      | aggregates _ hlist =>
          obtain ⟨agg, _, us, vs, hcall, rfl, _⟩ := hlist.front
          cases hcall with
          | count _ hstar =>
              cases hstar
              simp at htail
          | @field _ w hfield hkw _ =>
              simp only [List.cons_append, List.cons.injEq, Tok.word.injEq] at htail
              obtain ⟨rfl, _⟩ := htail
              rw [eqKeyword_count hfield] at hkw
              cases hkw
      | star _ => simp at htail
      | columns _ hlist _ =>
          obtain ⟨col, _, us, vs, ⟨_⟩, rfl, hcomma⟩ := hlist.front
          cases vs with
          | nil =>
              simp only [List.cons_append, List.nil_append, List.cons.injEq,
                Tok.word.injEq] at htail
              obtain ⟨_, rfl, _⟩ := htail
              exact absurd hkw' (by decide)
          | cons s vs =>
              have hs := eq_comma (hcomma s rfl)
              subst hs
              simp at htail

/-- `COUNT` of a column is accepted, and so is the sum of a comma. -/
theorem accepted_underivable :
    parse "SELECT COUNT(x) FROM t" = .ok (call .count) ∧
      parse "SELECT SUM(,) FROM t" = .ok (call (.sum ",")) ∧
      (¬∃ ts q, tokenize "SELECT COUNT(x) FROM t" = .ok ts ∧ documented.Derives q ts) ∧
      (¬∃ ts q, tokenize "SELECT SUM(,) FROM t" = .ok ts ∧ intended.Derives q ts) ∧
      ¬∀ input q, parse input = .ok q →
        ∃ ts, tokenize input = .ok ts ∧ documented.Derives q ts := by
  obtain ⟨hcount, htokens⟩ := parse_count
  have hcomma : tokenize "SELECT SUM(,) FROM t" = .ok (callToks "SUM" ",") := by decide +kernel
  have hunderivable :
      ¬∃ ts q, tokenize "SELECT COUNT(x) FROM t" = .ok ts ∧ documented.Derives q ts := by
    rintro ⟨ts, q, hts, hderives⟩
    cases htokens.symm.trans hts
    exact not_derives_count q hderives
  refine ⟨hcount, parse_call (by decide) rfl hcomma, hunderivable, ?_, fun hall => ?_⟩
  · rintro ⟨ts, q, hts, hderives⟩
    cases hcomma.symm.trans hts
    exact absurd hderives.wellPlaced (by decide)
  · obtain ⟨ts, hts, hderives⟩ := hall _ _ hcount
    exact hunderivable ⟨ts, _, hts, hderives⟩

end Sql

end CeQuery
