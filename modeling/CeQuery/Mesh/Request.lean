import CeQuery.Catalog.RoundTrip
import CeQuery.Mesh.Agreement
import CeQuery.Sql.RoundTrip
import CeQuery.Sql.Shape

/-!
# Map requests on the wire

A coordinator prints a request, and the agent refuses bytes it cannot parse. The
parser of queries nests a predicate as deep as the filter has connectives, two
levels of the document for each of them, and the parser of documents refuses what
is nested too deep. `request_survives_iff` gives the exact limit: the request of a
query that was typed is read back as itself exactly if its filter has at most 61
connectives. How many bytes a request may have is not part of it.
-/

namespace CeQuery

section Wire

variable (json : JsonText)

/-- The bytes of a request. -/
def requestBytes (req : MapRequest) : ByteArray :=
  (json.print (requestCodec.encode req)).toUTF8

/-- Read the bytes of a request; nothing when they are malformed. -/
def decodeRequest (bytes : ByteArray) : Option MapRequest :=
  (json.parseBytes bytes).bind requestCodec.decode

end Wire

/-- A host that answers was handed the bytes of the request. -/
theorem MeshMapHost.send_eq_ok {json : JsonText} {h : MeshMapHost} {hostId : String}
    {shard : Shard} {query : Query} {reply : MapReply}
    (hsend : h.send json hostId shard query = .ok reply) :
    ∃ bytes, h.client.request hostId mapTopic
        (requestBytes json { query, shard, grant := h.grant }) h.timeoutMs = .ok bytes ∧
      h.decodeReply json bytes = .ok reply := by
  rw [send] at hsend
  split at hsend
  · cases hsend
  · split at hsend
    · cases hsend
    · rename_i bytes hbytes
      exact ⟨bytes, hbytes, hsend⟩

/-! ## What is read back -/

section Keeps

theorem cmpOpCodec_keeps (op : CmpOp) : cmpOpCodec.Keeps op := by
  cases op <;> exact Codec.enumeration_keeps_iff.mpr rfl

theorem orderKeyCodec_keeps (key : OrderKey) : orderKeyCodec.Keeps key := by
  have hdir : orderDirCodec.Keeps key.dir := by
    cases key.dir <;> exact Codec.enumeration_keeps_iff.mpr rfl
  rw [orderKeyCodec, Codec.record_keeps_iff (fun _ => rfl) (fun _ => rfl), Fields.cons_keeps_iff,
    Fields.cons_keeps_iff]
  exact ⟨Codec.string_keeps _, hdir, Fields.nil_keeps⟩

theorem comparisonCodec_keeps (field : String) (op : CmpOp) {value : Value}
    (h : value.IsScalar) : comparisonCodec.Keeps (field, op, value) := by
  have hordered : value.Ordered := by
    cases value <;> trivial
  rw [comparisonCodec, Codec.record_keeps_iff (fun _ => rfl) (fun _ => rfl), Fields.cons_keeps_iff,
    Fields.cons_keeps_iff, Fields.cons_keeps_iff]
  exact ⟨Codec.string_keeps _, cmpOpCodec_keeps op, valueCodec_keeps hordered, Fields.nil_keeps⟩

theorem isTerm_keeps {p : Predicate} (h : p.IsTerm) : predicateCodec.Keeps p := by
  have hcmp : ∀ (field : String) (op : CmpOp) {value : Value}, value.IsScalar →
      predicateCodec.Keeps (.cmp field op value) := by
    intro field op value hscalar
    have hkeeps := comparisonCodec_keeps field op hscalar
    change (comparisonCodec.decode (comparisonCodec.encode (field, op, value))).map _ = _
    rw [hkeeps]
    rfl
  cases h with
  | cmp field op hscalar => exact hcmp field op hscalar
  | not field op hscalar =>
      change (predicateCodec.decode (predicateCodec.encode (.cmp field op _))).map Predicate.not = _
      rw [hcmp field op hscalar]
      rfl

/-- Predicates that come out of the parser are read back. -/
theorem predicateCodec_keeps {p : Predicate} (h : p = .true ∨ p.LeftNested) :
    predicateCodec.Keeps p := by
  obtain rfl | h := h
  · rfl
  · induction h with
    | term hterm => exact isTerm_keeps hterm
    | and _ hterm ih =>
        change ((predicateCodec.decode (predicateCodec.encode _)).bind fun a =>
          (predicateCodec.decode (predicateCodec.encode _)).bind fun b => _) = _
        rw [ih, isTerm_keeps hterm]
        rfl
    | or _ hterm ih =>
        change ((predicateCodec.decode (predicateCodec.encode _)).bind fun a =>
          (predicateCodec.decode (predicateCodec.encode _)).bind fun b => _) = _
        rw [ih, isTerm_keeps hterm]
        rfl

theorem queryCodec_keeps_iff {q : Query} :
    queryCodec.Keeps q ↔ predicateCodec.Keeps q.predicate := by
  have hnames : ∀ names : List String, Codec.string.list.Keeps names :=
    fun names => Codec.list_keeps_iff.mpr fun name _ => Codec.string_keeps name
  have haggs : aggCodec.list.Keeps q.aggregates :=
    Codec.list_keeps_iff.mpr fun agg _ => aggCodec_keeps agg
  have horder : orderKeyCodec.list.Keeps q.orderBy :=
    Codec.list_keeps_iff.mpr fun key _ => orderKeyCodec_keeps key
  have hlimit : (Codec.boundedInt ..).option.Keeps q.limit := by
    cases q.limit with
    | none => rfl
    | some n => exact Codec.option_keeps_some_iff.mpr ⟨nofun, Codec.boundedInt_keeps n⟩
  have hprojection : Codec.string.list.option.Keeps q.projection := by
    cases q.projection with
    | none => rfl
    | some cols => exact Codec.option_keeps_some_iff.mpr ⟨nofun, hnames cols⟩
  rw [queryCodec, Codec.record_keeps_iff (fun _ => rfl) (fun _ => rfl)]
  simp only [Fields.cons_keeps_iff, Codec.string_keeps, haggs, hnames, horder, hlimit, hprojection,
    Fields.nil_keeps, true_and, and_true]

theorem requestCodec_keeps_iff {req : MapRequest} :
    requestCodec.Keeps req ↔ queryCodec.Keeps req.query ∧ shardCodec.Keeps req.shard := by
  have hgrant : Codec.string.option.Keeps req.grant := by
    cases req.grant with
    | none => rfl
    | some token => exact Codec.option_keeps_some_iff.mpr ⟨nofun, Codec.string_keeps token⟩
  rw [requestCodec, Codec.record_keeps_iff (fun _ => rfl) (fun _ => rfl)]
  simp only [Fields.cons_keeps_iff, hgrant, Fields.nil_keeps, and_true]

end Keeps

/-! ## How deep a request nests -/

section Depth

theorem isTerm_depth {p : Predicate} (h : p.IsTerm) :
    2 ≤ (predicateCodec.encode p).depth ∧ (predicateCodec.encode p).depth ≤ 3 := by
  have hscalar : ∀ {value : Value}, value.IsScalar → value.toDocument.depth = 0 := by
    intro value hvalue
    cases value with
    | number n => cases n <;> rfl
    | array _ => exact hvalue.elim
    | object _ => exact hvalue.elim
    | _ => rfl
  have hop : ∀ op : CmpOp, (cmpOpCodec.encode op).depth = 0 := by
    intro op
    cases op <;> rfl
  have hcmp : ∀ (field : String) (op : CmpOp) {value : Value}, value.IsScalar →
      (predicateCodec.encode (.cmp field op value)).depth = 2 := by
    intro field op value hvalue
    change max (max 0 (max (cmpOpCodec.encode op).depth (max value.toDocument.depth 0)) + 1) 0 + 1 =
      2
    rw [hop, hscalar hvalue]
    rfl
  cases h with
  | cmp field op hvalue =>
      have := hcmp field op hvalue
      omega
  | @not field op value hvalue =>
      have := hcmp field op hvalue
      change 2 ≤ max (predicateCodec.encode (.cmp field op value)).depth 0 + 1 ∧
        max (predicateCodec.encode (.cmp field op value)).depth 0 + 1 ≤ 3
      omega

/-- Each connective adds two levels to what is on its left. -/
theorem leftNested_depth {p : Predicate} (h : p.LeftNested) :
    2 * p.connectives + 2 ≤ (predicateCodec.encode p).depth ∧
      (predicateCodec.encode p).depth ≤ 2 * p.connectives + 3 := by
  have hjoin : ∀ {p t : Predicate} {d : Document}, t.IsTerm →
      d.depth = max (max (predicateCodec.encode p).depth
        (max (predicateCodec.encode t).depth 0) + 1) 0 + 1 →
      2 * p.connectives + 2 ≤ (predicateCodec.encode p).depth ∧
        (predicateCodec.encode p).depth ≤ 2 * p.connectives + 3 →
      2 * (p.connectives + t.connectives + 1) + 2 ≤ d.depth ∧
        d.depth ≤ 2 * (p.connectives + t.connectives + 1) + 3 := by
    intro p t d ht hd hp
    have hterm := isTerm_depth ht
    have hzero := ht.connectives_eq
    omega
  induction h with
  | term ht =>
      have hterm := isTerm_depth ht
      have hzero := ht.connectives_eq
      omega
  | and _ ht ih => exact hjoin ht rfl ih
  | or _ ht ih => exact hjoin ht rfl ih

/-- Only the predicate can nest a request too deep. -/
theorem request_depth_iff {req : MapRequest} :
    (requestCodec.encode req).depth ≤ maxDepth ↔
      (predicateCodec.encode req.query.predicate).depth ≤ maxDepth - 2 := by
  have hrequest : (requestCodec.encode req).depth ≤ maxDepth ↔
      (queryCodec.encode req.query).depth ≤ maxDepth - 1 := by
    apply Document.depth_object_le_iff.trans
    change (∀ m ∈ [("query", queryCodec.encode req.query), ("shard", shardCodec.encode req.shard),
      ("grant", Codec.string.option.encode req.grant)], m.2.depth ≤ 126) ↔ _
    simp only [List.forall_mem_cons, List.not_mem_nil, false_imp_iff, implies_true]
    refine and_iff_left ⟨?_, ?_, trivial⟩
    · exact Nat.le_trans (shardCodec_depth req.shard) (by decide)
    · exact Nat.le_trans (Codec.option_depth Codec.string_depth req.grant) (by decide)
  have hquery : (queryCodec.encode req.query).depth ≤ maxDepth - 1 ↔
      (predicateCodec.encode req.query.predicate).depth ≤ maxDepth - 2 := by
    apply Document.depth_object_le_iff.trans
    have hnames : Codec.string.list.DepthLe 125 :=
      (Codec.list_depth Codec.string_depth).mono (by decide)
    have horder : orderKeyCodec.list.DepthLe 125 := by
      have hdir : orderDirCodec.DepthLe 1 := by
        intro dir
        cases dir <;> exact Nat.zero_le 1
      exact (Codec.list_depth (Codec.record_depth
        (Fields.cons_depth (Codec.string_depth.mono (by decide))
          (Fields.cons_depth hdir Fields.nil_depth)))).mono (by decide)
    have haggs : aggCodec.list.DepthLe 125 := (Codec.list_depth aggCodec_depth).mono (by decide)
    change (∀ m ∈ [("dataset", Codec.string.encode req.query.dataset),
      ("aggregates", aggCodec.list.encode req.query.aggregates),
      ("predicate", predicateCodec.encode req.query.predicate),
      ("group_by", Codec.string.list.encode req.query.groupBy),
      ("order_by", orderKeyCodec.list.encode req.query.orderBy),
      ("limit", (Codec.boundedInt ..).option.encode req.query.limit),
      ("projection", Codec.string.list.option.encode req.query.projection)], m.2.depth ≤ 125) ↔ _
    simp only [List.forall_mem_cons, List.not_mem_nil, false_imp_iff, implies_true]
    constructor
    · rintro ⟨_, _, hpredicate, _⟩
      exact hpredicate
    · intro hpredicate
      refine ⟨Nat.zero_le _, haggs _, hpredicate, hnames _, horder _, ?_, ?_, trivial⟩
      · exact Nat.le_trans (Codec.option_depth Codec.boundedInt_depth req.query.limit) (by decide)
      · exact Codec.option_depth hnames req.query.projection
  exact hrequest.trans hquery

end Depth

/-- The statistics of the shard are finite. -/
def Shard.FiniteStats (shard : Shard) : Prop :=
  ∀ st, shard.stats = some st → ∀ (col : String) (bounds : F64 × F64),
    st.numeric[col]? = some bounds → bounds.1.isFinite = true ∧ bounds.2.isFinite = true

/-- The largest number of connectives in a filter that a host can read. -/
def maxConnectives : Nat := 61

section Survive

variable {json : JsonText} {req : MapRequest}

theorem decodeRequest_too_deep (hcarries : json.Carries json.print (requestCodec.encode req))
    (hdeep : maxDepth < (requestCodec.encode req).depth) :
    decodeRequest json (requestBytes json req) = none := by
  rw [decodeRequest, requestBytes, JsonText.parseBytes_toUTF8, hcarries.too_deep hdeep,
    Option.bind_none]

/-- A request that the reader understands arrives exactly if it is not too deep. -/
theorem decodeRequest_eq_some_iff (hkeeps : requestCodec.Keeps req)
    (hcarries : json.Carries json.print (requestCodec.encode req)) :
    decodeRequest json (requestBytes json req) = some req ↔
      (requestCodec.encode req).depth ≤ maxDepth := by
  by_cases hdepth : (requestCodec.encode req).depth ≤ maxDepth
  · rw [decodeRequest, requestBytes, JsonText.parseBytes_toUTF8, hcarries.parse_print hdepth,
      Option.bind_some]
    exact iff_of_true hkeeps hdepth
  · rw [decodeRequest_too_deep hcarries (Nat.lt_of_not_le hdepth)]
    exact iff_of_false nofun hdepth

/-- The depth that a parsed filter can have in a request is a number of connectives. -/
theorem predicate_depth_iff {p : Predicate} (h : p = .true ∨ p.LeftNested) :
    (predicateCodec.encode p).depth ≤ maxDepth - 2 ↔ p.connectives ≤ maxConnectives := by
  have hmax : maxDepth - 2 = 2 * maxConnectives + 3 := rfl
  obtain rfl | h := h
  · exact iff_of_true (Nat.zero_le _) (Nat.zero_le _)
  · have hdepth := leftNested_depth h
    omega

/-- The request of a query that was typed is read back as itself exactly if its filter has
at most 61 connectives. -/
theorem request_survives_iff {input : String} {q : Query} {shard : Shard} {grant : Option String}
    (hparse : Sql.parse input = .ok q) (hstats : shard.FiniteStats)
    (hcarries : json.Carries json.print (requestCodec.encode { query := q, shard, grant })) :
    decodeRequest json (requestBytes json { query := q, shard, grant }) =
        some { query := q, shard, grant } ↔
      q.predicate.connectives ≤ maxConnectives := by
  have hpredicate := Sql.parse_predicate hparse
  have hshard : shardCodec.Keeps shard :=
    shardCodec_keeps_iff.mpr fun st hst => statsCodec_keeps_iff.mpr (hstats st hst)
  have hquery : queryCodec.Keeps q := queryCodec_keeps_iff.mpr (predicateCodec_keeps hpredicate)
  rw [decodeRequest_eq_some_iff (requestCodec_keeps_iff.mpr ⟨hquery, hshard⟩) hcarries,
    request_depth_iff, predicate_depth_iff hpredicate]

end Survive

/-! ## Long filters -/

namespace Sql

private def oneToks : List Tok :=
  [.word "a", .word "=", .word "1"]

/-- The tokens of a filter with `n` connectives. -/
private def chainToks : Nat → List Tok
  | 0 => oneToks
  | n + 1 => chainToks n ++ .word "AND" :: oneToks

private def aIsOne : Predicate :=
  .cmp "a" .eq (.ofI64 ⟨1, by decide, by decide⟩)

private def chain : Nat → Predicate
  | 0 => aIsOne
  | n + 1 => .and (chain n) aIsOne

private def chainQuery (n : Nat) : Query where
  dataset := "t"
  aggregates := [.count]
  predicate := chain n
  groupBy := []
  orderBy := []
  limit := none
  projection := none

private def chainQueryToks (n : Nat) : List Tok :=
  .word "SELECT" :: ([.word "COUNT", .word "(", .word "*", .word ")"] ++
    .word "FROM" :: .word "t" :: ((.word "WHERE" :: chainToks n) ++ ([] ++ ([] ++ []))))

private def tokChars : Tok → List Char
  | .word w => w.toList
  | .str s => s.toList

/-- The text of a query whose filter has `n` connectives. -/
private def chainText (n : Nat) : String :=
  String.ofList ([' '].intercalate ((chainQueryToks n).map tokChars))

private theorem oneToks_term : TermToks aIsOne oneToks := by
  refine TermToks.cmp (o := "=") ?_ ?_
  · decide
  · exact .int ⟨1, by decide, by decide⟩

private theorem chainToks_chain (n : Nat) : ChainToks (chain n) (chainToks n) := by
  induction n with
  | zero => exact .term oneToks_term
  | succ n ih => exact .and (w := "AND") ih (by decide) oneToks_term

private theorem chainQuery_named (n : Nat) : Named (chainQuery n) where
  dataset := (by decide : IsName "t")
  aggregates _ h := .inl (List.mem_singleton.mp h)
  predicate := by
    have hone : NamedPredicate aIsOne := ⟨by decide, by decide⟩
    change NamedPredicate (chain n)
    induction n with
    | zero => exact hone
    | succ n ih => exact ⟨ih, hone⟩
  groupBy := nofun
  orderBy := nofun
  projection := nofun

private theorem chainQueryToks_words (n : Nat) :
    ∀ t ∈ chainQueryToks n, Written t (tokChars t) := by
  have hwords : ∀ ws : List String, ∀ t ∈ ws.map Tok.word, Written t (tokChars t) := by
    intro ws t ht
    obtain ⟨w, _, rfl⟩ := List.mem_map.mp ht
    exact .word w
  have hchain : ∀ t ∈ chainToks n, Written t (tokChars t) := by
    induction n with
    | zero => exact hwords ["a", "=", "1"]
    | succ n ih => exact List.forall_mem_append.mpr ⟨ih, hwords ["AND", "a", "=", "1"]⟩
  have hfront := hwords ["SELECT", "COUNT", "(", "*", ")", "FROM", "t", "WHERE"]
  have hall := List.forall_mem_append.mpr ⟨hfront, hchain⟩
  simpa [chainQueryToks] using hall

/-- Filters may have any number of connectives. -/
private theorem parse_chainText (n : Nat) : parse (chainText n) = .ok (chainQuery n) := by
  have htoks : QueryToks (chainQuery n) (chainQueryToks n) := by
    refine .query (w := "SELECT") (by decide) ?_ (by decide) ?_ .absent .absent .absent
    · exact .aggregates rfl (.last (.call (w := "COUNT") (by decide)))
    · exact .present (w := "WHERE") (by decide) (chainToks_chain n)
  have hspaced : Spaced (chainQueryToks n) (chainText n).toList := by
    rw [chainText, String.toList_ofList]
    apply spaced_intercalate
    rw [List.forall₂_map_right_iff, List.forall₂_same]
    exact chainQueryToks_words n
  have hvalid : (chainQuery n).validate = .ok () := by
    have hdataset : ¬Text.trim (chainQuery n).dataset.toList = [] :=
      (by decide : ¬Text.trim "t".toList = [])
    rw [Query.validate, if_neg hdataset]
    rfl
  exact parse_toks hvalid (chainQuery_named n) htoks hspaced

end Sql

mutual

/-- The compact text of a document without floats and without escapes. -/
private def compact : Document → String
  | .null => "null"
  | .bool b => toString b
  | .int n => toString n
  | .float _ => ""
  | .string s => "\"" ++ s ++ "\""
  | .array items => "[" ++ compactItems items ++ "]"
  | .object members => "\x7b" ++ compactMembers members ++ "\x7d"

private def compactItems : List Document → String
  | [] => ""
  | [d] => compact d
  | d :: ds => compact d ++ "," ++ compactItems ds

private def compactMembers : List (String × Document) → String
  | [] => ""
  | [(k, d)] => "\"" ++ k ++ "\":" ++ compact d
  | (k, d) :: ms => "\"" ++ k ++ "\":" ++ compact d ++ "," ++ compactMembers ms

end

/-- A parser that knows the text of one document. -/
private def textOf (d : Document) : JsonText where
  print := compact
  printPretty := compact
  parse text := if text = compact d ∧ d.depth ≤ maxDepth then some d else none

private theorem textOf_carries (d : Document) : (textOf d).Carries (textOf d).print d where
  parse_print h := if_pos ⟨rfl, h⟩
  too_deep h := if_neg fun hread => Nat.not_le.mpr h hread.2

/-- Request of a query with `n` connectives for a shard without statistics. -/
private def chainRequest (n : Nat) : MapRequest where
  query := Sql.chainQuery n
  shard := { cid := "s0", rows := U64.zero, bytes := U64.zero, stats := none }
  grant := none

private def chainJson (n : Nat) : JsonText :=
  textOf (requestCodec.encode (chainRequest n))

/-- A request with a filter of two comparisons is read back. -/
theorem request_survives_iff_two_terms :
    decodeRequest (chainJson 1) (requestBytes (chainJson 1) (chainRequest 1)) =
      some (chainRequest 1) :=
  (request_survives_iff (Sql.parse_chainText 1) (fun _ h => by cases h) (textOf_carries _)).mpr
    (by decide)

/-- A filter of 63 comparisons is accepted by the parser of queries, and its request
is malformed for the host. -/
theorem long_filter_malformed : Sql.parse (Sql.chainText 62) = .ok (Sql.chainQuery 62) ∧
    decodeRequest (chainJson 62) (requestBytes (chainJson 62) (chainRequest 62)) = none := by
  refine ⟨Sql.parse_chainText 62, ?_⟩
  apply decodeRequest_too_deep (textOf_carries _)
  have hpredicate : (chainRequest 62).query.predicate = .true ∨
      (chainRequest 62).query.predicate.LeftNested :=
    Sql.parse_predicate (Sql.parse_chainText 62)
  rw [← Nat.not_le, request_depth_iff, predicate_depth_iff hpredicate]
  decide

end CeQuery
