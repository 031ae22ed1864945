import CeQuery.Combine.Groups
import CeQuery.Mesh.Host
import Mathlib.Data.List.Induction

/-!
# The mesh host answers as the local host does

A partial survives the wire exactly if its binary64 numbers are finite: others
are written as null, which is refused or read as the absence of a number. Rows
survive exactly if they are shallow, since a reply nests them deeper by two.

Both conditions are stated on the rows of the shard. A minimum or a maximum is
finite if some finite number of the column is extreme in it, and a sum of floats
is finite if compensated summation of its terms is (`Agg.Portable`). The cells
that a projection returns may nest at most 124 deep (`Query.ShallowCells`).
-/

namespace CeQuery

/-! ## What the wire keeps -/

def KahanSum.Finite (k : KahanSum) : Prop :=
  k.sum.isFinite = true ∧ k.comp.isFinite = true

/-- The binary64 numbers of an accumulator are finite. -/
def Accum.Finite : Accum → Prop
  | .count _ => True
  | .intSum _ => True
  | .sum k => k.Finite
  | .min m => ∀ v, m = some v → v.isFinite = true
  | .max m => ∀ v, m = some v → v.isFinite = true
  | .avg k _ => k.Finite

section Keeps

theorem aggCodec_keeps (agg : Agg) : aggCodec.Keeps agg := by
  cases agg <;> exact Codec.enumeration_keeps_iff.mpr rfl

theorem kahanSumCodec_keeps_iff {k : KahanSum} : kahanSumCodec.Keeps k ↔ k.Finite := by
  rw [kahanSumCodec, Codec.record_keeps_iff (fun _ => rfl) (fun _ => rfl), Fields.cons_keeps_iff,
    Fields.cons_keeps_iff, Codec.float_keeps_iff, Codec.float_keeps_iff]
  simp only [Fields.nil_keeps, and_true]
  rfl

theorem meanCodec_keeps_iff {k : KahanSum} {n : U64} : meanCodec.Keeps (k, n) ↔ k.Finite := by
  rw [meanCodec, Codec.record_keeps_iff (fun _ => rfl) (fun _ => rfl), Fields.cons_keeps_iff,
    Fields.cons_keeps_iff, kahanSumCodec_keeps_iff]
  simp only [Codec.boundedInt_keeps, Fields.nil_keeps, and_true]

theorem optionFloat_keeps_iff {m : Option F64} :
    Codec.float.option.Keeps m ↔ ∀ v, m = some v → v.isFinite = true := by
  cases m with
  | none => simp [Codec.option_keeps_none]
  | some v =>
      rw [Codec.option_keeps_some_iff, Codec.float_encode_ne_null, Codec.float_keeps_iff]
      simp

private theorem map_eq_some_self {α : Type u} {β : Type v} {f : α → β}
    (hf : Function.Injective f) {o : Option α} {a : α} : o.map f = some (f a) ↔ o = some a :=
  (Option.map_injective hf).eq_iff (b := some a)

theorem accumCodec_keeps_iff {acc : Accum} : accumCodec.Keeps acc ↔ acc.Finite := by
  rw [accumCodec, Codec.enumeration_keeps_iff]
  cases acc with
  | count n =>
      refine iff_of_true ?_ trivial
      exact (map_eq_some_self fun _ _ => Accum.count.inj).mpr (Codec.boundedInt_keeps n)
  | intSum n =>
      refine iff_of_true ?_ trivial
      exact (map_eq_some_self fun _ _ => Accum.intSum.inj).mpr (Codec.boundedInt_keeps n)
  | sum k => exact (map_eq_some_self fun _ _ => Accum.sum.inj).trans kahanSumCodec_keeps_iff
  | min m => exact (map_eq_some_self fun _ _ => Accum.min.inj).trans optionFloat_keeps_iff
  | max m => exact (map_eq_some_self fun _ _ => Accum.max.inj).trans optionFloat_keeps_iff
  | avg k n =>
      have hinj : Function.Injective fun m : KahanSum × U64 => Accum.avg m.1 m.2 := by
        rintro ⟨k, n⟩ ⟨k', n'⟩ h
        cases h
        rfl
      exact (map_eq_some_self (a := (k, n)) hinj).trans meanCodec_keeps_iff

theorem partialCodec_keeps_iff {p : Partial} : partialCodec.Keeps p ↔
    ∀ (key : List String) (accs : List Accum), p.groups[key]? = some accs →
      ∀ acc ∈ accs, acc.Finite := by
  have hkey : ∀ key, Codec.string.list.Keeps key := fun key =>
    Codec.list_keeps_iff.mpr fun s _ => Codec.string_keeps s
  have haggs : aggCodec.list.Keeps p.aggregates :=
    Codec.list_keeps_iff.mpr fun agg _ => aggCodec_keeps agg
  rw [partialCodec, Codec.record_keeps_iff (fun _ => rfl) (fun _ => rfl), Fields.cons_keeps_iff,
    Fields.cons_keeps_iff, groupsCodec, Codec.entries_keeps_iff hkey]
  simp only [haggs, Fields.nil_keeps, true_and, and_true, Codec.list_keeps_iff,
    accumCodec_keeps_iff]

theorem replyCodec_keeps_ok_iff {p : Partial} :
    replyCodec.Keeps (.ok p) ↔ partialCodec.Keeps p :=
  Codec.enumeration_keeps_iff.trans (map_eq_some_self fun _ _ => MapReply.ok.inj)

theorem replyCodec_keeps_rows_iff {rows : List Row} :
    replyCodec.Keeps (.rows rows) ↔ rowCodec.list.Keeps rows :=
  Codec.enumeration_keeps_iff.trans (map_eq_some_self fun _ _ => MapReply.rows.inj)

end Keeps

/-! ## Finite columns -/

def Num.toF64 : Num → F64
  | .int n => intToF64 n.val
  | .float x => x

/-- The numbers that a sum which stands at `s` adds as binary64 numbers: none as
long as the integer lane carries it. -/
def floatTerms (s : I128) : List Num → List F64
  | [] => []
  | .int v :: rest =>
      match s.checkedAdd v with
      | some t => floatTerms t rest
      | none => intToF64 s.val :: intToF64 v.val :: rest.map Num.toF64
  | .float v :: rest => intToF64 s.val :: v :: rest.map Num.toF64

/-- The compensated sum of some numbers, in their order. -/
def compensated (xs : List F64) : KahanSum :=
  xs.foldl KahanSum.add .zero

/-- The extremum of the numbers, if there are any, is finite. -/
def FiniteEnd (e : F64.End) (xs : List F64) : Prop :=
  xs = [] ∨ ∃ x, x.isFinite = true ∧ F64.Extremum e xs x

/-- What an aggregate needs of the rows of a group so that its accumulator is
finite. -/
def Agg.Portable (rows : List Row) : Agg → Prop
  | .count => True
  | .sum f => (compensated (floatTerms I128.zero (summands f rows))).Finite
  | .min f => FiniteEnd .least (numericCells f rows)
  | .max f => FiniteEnd .greatest (numericCells f rows)
  | .avg f => (compensated (numericCells f rows)).Finite

/-- Every aggregate finds finite columns in every group. -/
def Query.Portable (serde : SerdeJson) (q : Query) (rows : List Row) : Prop :=
  ∀ key, ∀ agg ∈ q.aggregates, agg.Portable (q.members serde key rows)

section Finite

theorem KahanSum.zero_finite : KahanSum.zero.Finite := by
  constructor <;> decide

private theorem foldl_foldSum (k : KahanSum) (nums : List Num) :
    nums.foldl foldSum (.sum k) = .sum ((nums.map Num.toF64).foldl KahanSum.add k) := by
  induction nums generalizing k with
  | nil => rfl
  | cons num nums ih =>
      cases num with
      | int n => exact ih (k.add (intToF64 n.val))
      | float x => exact ih (k.add x)

/-- A sum is finite exactly if what it adds as floats is. -/
theorem foldSum_finite_iff (s : I128) (nums : List Num) :
    (nums.foldl foldSum (.intSum s)).Finite ↔ (compensated (floatTerms s nums)).Finite := by
  induction nums generalizing s with
  | nil => exact iff_of_true trivial KahanSum.zero_finite
  | cons num nums ih =>
      cases num with
      | float x =>
          change (nums.foldl foldSum (.sum _)).Finite ↔ _
          rw [foldl_foldSum]
          rfl
      | int v =>
          cases hadd : s.checkedAdd v with
          | some t => simpa [foldSum, floatTerms, hadd] using ih t
          | none =>
              simp only [List.foldl_cons, foldSum, floatTerms, hadd, foldl_foldSum]
              rfl

theorem optExtremum_finite_iff {e : F64.End} {xs : List F64} {m : Option F64}
    (h : F64.OptExtremum e xs m) : (∀ v, m = some v → v.isFinite = true) ↔ FiniteEnd e xs := by
  cases m with
  | none => exact iff_of_true (by simp) (.inl h)
  | some v =>
      constructor
      · intro hfinite
        exact .inr ⟨v, hfinite v rfl, h⟩
      · rintro (rfl | ⟨x, hx, hextremum⟩) w hw
        · cases h.mem
        · cases hw
          exact h.isFinite_of_isFinite hextremum hx

/-- The accumulator of a mean is the compensated sum of its column. -/
theorem foldRows_avg (f : String) (rows : List Row) :
    ∃ n, (Agg.avg f).foldRows rows = .avg (compensated (numericCells f rows)) n := by
  have hrun : ∀ (rows : List Row) (k : KahanSum) (n : U64), ∃ n',
      rows.foldl (fun acc row => (Agg.avg f).fold row acc) (.avg k n) =
        .avg ((numericCells f rows).foldl KahanSum.add k) n' := by
    intro rows
    induction rows with
    | nil => exact fun k n => ⟨n, rfl⟩
    | cons row rows ih =>
        intro k n
        rw [List.foldl_cons, Agg.fold, numericCells, List.filterMap_cons]
        cases row[f]?.bind asF64 with
        | none => exact ih k n
        | some v => exact ih (k.add v) (n.saturatingAdd U64.one)
  exact hrun rows _ _

theorem foldRows_finite_iff (agg : Agg) (rows : List Row) :
    (agg.foldRows rows).Finite ↔ agg.Portable rows := by
  cases agg with
  | count =>
      have hcount : Agg.count.Describes rows (Agg.count.foldRows rows) := foldRows_describes trivial
      cases hacc : Agg.count.foldRows rows <;> rw [hacc] at hcount <;> try exact hcount.elim
      exact Iff.rfl
  | sum f =>
      rw [foldRows_sum]
      exact foldSum_finite_iff _ _
  | min f =>
      have hmin : (Agg.min f).Describes rows ((Agg.min f).foldRows rows) :=
        foldRows_describes trivial
      cases hacc : (Agg.min f).foldRows rows <;> rw [hacc] at hmin <;> try exact hmin.elim
      exact optExtremum_finite_iff hmin
  | max f =>
      have hmax : (Agg.max f).Describes rows ((Agg.max f).foldRows rows) :=
        foldRows_describes trivial
      cases hacc : (Agg.max f).foldRows rows <;> rw [hacc] at hmax <;> try exact hmax.elim
      exact optExtremum_finite_iff hmax
  | avg f =>
      obtain ⟨n, hn⟩ := foldRows_avg f rows
      rw [hn]
      rfl

/-- The partial of a shard survives exactly if its columns are finite. -/
theorem mapShard_keeps_iff (serde : SerdeJson) (q : Query) (rows : List Row) :
    partialCodec.Keeps (q.mapShard serde rows) ↔ q.Portable serde rows := by
  rw [partialCodec_keeps_iff]
  apply forall_congr'
  intro key
  rw [Query.getElem?_mapShard]
  cases q.members serde key rows with
  | nil =>
      apply iff_of_true (by simp)
      intro agg _
      rw [← foldRows_finite_iff]
      cases agg <;> simp [Agg.foldRows, Agg.zero, Accum.Finite, KahanSum.zero_finite]
  | cons row group =>
      simp only [Query.foldl_foldRow, Option.some.injEq, forall_eq', List.forall_mem_map]
      exact forall₂_congr fun agg _ => foldRows_finite_iff agg (row :: group)

end Finite

/-! ## Shallow cells -/

/-- The cells that a projection returns nest at most this deep: a reply puts
them into a row, the rows into a list, and the list into an object. -/
def maxCellDepth : Nat := maxDepth - 3

def Query.ShallowCells (q : Query) (rows : List Row) : Prop :=
  ∀ row ∈ rows, q.predicate.eval row = true → ∀ (c : String) (v : Value), q.Selects c →
    row[c]? = some v → v.toDocument.depth ≤ maxCellDepth

section Depth

theorem aggCodec_depth : aggCodec.DepthLe 1 := by
  apply Codec.enumeration_depth
  intro agg d hd
  cases agg <;> cases hd <;> exact Nat.le_refl 0

theorem accumCodec_depth : accumCodec.DepthLe 3 := by
  have hkahan : kahanSumCodec.DepthLe 1 :=
    Codec.record_depth (Fields.cons_depth Codec.float_depth
      (Fields.cons_depth Codec.float_depth Fields.nil_depth))
  have hmean : meanCodec.DepthLe 2 :=
    Codec.record_depth (Fields.cons_depth hkahan
      (Fields.cons_depth (Codec.boundedInt_depth.mono (by omega)) Fields.nil_depth))
  apply Codec.enumeration_depth
  intro acc d hd
  cases acc with
  | count n => cases hd; exact Nat.zero_le 2
  | intSum n => cases hd; exact Nat.zero_le 2
  | sum k => cases hd; exact hkahan.mono (by omega) k
  | min m => cases hd; exact (Codec.option_depth Codec.float_depth).mono (by omega) m
  | max m => cases hd; exact (Codec.option_depth Codec.float_depth).mono (by omega) m
  | avg k n => cases hd; exact hmean (k, n)

theorem partialCodec_depth : partialCodec.DepthLe 7 := by
  refine Codec.record_depth (Fields.cons_depth ?_ (Fields.cons_depth ?_ Fields.nil_depth))
  · exact (Codec.list_depth aggCodec_depth).mono (by omega)
  · exact Codec.entries_depth ((Codec.list_depth Codec.string_depth).mono (by omega))
      (Codec.list_depth accumCodec_depth)

theorem reply_ok_depth (p : Partial) : (replyCodec.encode (.ok p)).depth ≤ 8 := by
  apply Document.depth_object_le_iff.mpr
  intro m hm
  rw [List.mem_singleton.mp hm]
  exact partialCodec_depth p

/-- A reply with rows is read exactly if their cells are shallow. -/
theorem reply_rows_depth_iff (rows : List Row) :
    (replyCodec.encode (.rows rows)).depth ≤ maxDepth ↔
      ∀ row ∈ rows, ∀ (c : String) (v : Value), row[c]? = some v →
        v.toDocument.depth ≤ maxCellDepth := by
  change (Document.object [("Rows", .array (rows.map rowCodec.encode))]).depth ≤
    maxCellDepth + 1 + 1 + 1 ↔ _
  rw [Document.depth_object_le_iff, List.forall_mem_singleton, Document.depth_array_le_iff,
    List.forall_mem_map]
  refine forall₂_congr fun row _ => ?_
  change (Document.object (row.toList.map fun e => (e.1, e.2.toDocument))).depth ≤ _ ↔ _
  rw [Document.depth_object_le_iff, List.forall_mem_map]
  constructor
  · intro h c v hv
    exact h (c, v) (Std.ExtTreeMap.mem_toList_iff_getElem?_eq_some.mpr hv)
  · intro h e he
    exact h e.1 e.2 (Std.ExtTreeMap.mem_toList_iff_getElem?_eq_some.mp he)

end Depth

/-! ## The two hosts -/

section Hosts

variable {serde : SerdeJson} {json : JsonText} {store : BlobStore} {h : MeshMapHost}
  {verify : MapRequest → Except String Unit} {req : MapRequest} {rows : List Row}

/-- When a reply is read from its bytes. -/
theorem decodeReply_eq_ok_iff {reply : MapReply}
    (hcarries : json.Carries json.print (replyCodec.encode reply))
    (hsize : (replyBytes json reply).size ≤ maxMapPayloadBytes) :
    h.decodeReply json (replyBytes json reply) = .ok reply ↔
      (replyCodec.encode reply).depth ≤ maxDepth ∧ replyCodec.Keeps reply := by
  rw [MeshMapHost.decodeReply, if_neg (Nat.not_lt.mpr hsize), replyBytes,
    JsonText.parseBytes_toUTF8, Codec.Keeps]
  by_cases hdepth : (replyCodec.encode reply).depth ≤ maxDepth
  · rw [hcarries.parse_print hdepth, Option.bind_some]
    cases replyCodec.decode (replyCodec.encode reply) <;> simp [hdepth]
  · rw [hcarries.too_deep (Nat.not_le.mp hdepth)]
    simp [hdepth]

/-- The local host succeeds, and the mesh host reads the same from the bytes of
the agent's reply. -/
def HostsAgree (serde : SerdeJson) (json : JsonText) (store : BlobStore) (h : MeshMapHost)
    (verify : MapRequest → Except String Unit) (req : MapRequest) (hostId : String) : Prop :=
  let answer := h.decodeReply json (replyBytes json (serveMap serde json store verify req))
  if req.query.isProjection then
    ∃ rows, (localMapHost serde json store).project hostId req.shard req.query = .ok rows ∧
      answer.bind MeshMapHost.replyRows = .ok rows
  else
    ∃ p, (localMapHost serde json store).map hostId req.shard req.query = .ok p ∧
      answer.bind MeshMapHost.replyPartial = .ok p

/-- What the reply to a query carries unharmed. -/
def Query.Travels (serde : SerdeJson) (q : Query) (rows : List Row) : Prop :=
  if q.isProjection then q.ShallowCells rows else q.Portable serde rows

theorem answerPartial_eq_ok_iff {answer : Except MapError MapReply} {p : Partial} :
    answer.bind MeshMapHost.replyPartial = .ok p ↔ answer = .ok (.ok p) := by
  rcases answer with e | ⟨_ | _ | _⟩ <;> simp [Except.bind, MeshMapHost.replyPartial]

theorem answerRows_eq_ok_iff {answer : Except MapError MapReply}
    (hlimit : rows.length ≤ maxProjectionRows) :
    answer.bind MeshMapHost.replyRows = .ok rows ↔ answer = .ok (.rows rows) := by
  rcases answer with e | ⟨_ | rows' | _⟩ <;> simp only [Except.bind, MeshMapHost.replyRows]
  case ok.rows =>
    split
    · rename_i hlong
      apply iff_of_false (by simp)
      rintro ⟨⟩
      exact absurd hlimit (Nat.not_le.mpr hlong)
    · simp
  all_goals simp

/-- An encoded partial is decoded again, and the mesh host answers as the local
host does, exactly if the numbers or the cells of the answer travel. -/
theorem mesh_agrees_iff (serde : SerdeJson) (json : JsonText) (q : Query) (rows : List Row) :
    (json.Carries json.print (partialCodec.encode (q.mapShard serde rows)) →
      ((json.parse (json.print (partialCodec.encode (q.mapShard serde rows)))).bind
          partialCodec.decode = some (q.mapShard serde rows) ↔ q.Portable serde rows)) ∧
    ∀ (store : BlobStore) (h : MeshMapHost) (verify : MapRequest → Except String Unit)
      (req : MapRequest) (hostId : String) (bytes : ByteArray),
      req.query = q → verify req = .ok () → q.validate = .ok () →
      store req.shard.cid = .ok bytes → bytes.size ≤ maxMapPayloadBytes →
      decodeShard json bytes = .ok rows →
      (q.isProjection = true → (q.projectShard rows).length ≤ maxProjectionRows) →
      json.Carries json.print (replyCodec.encode (serveMap serde json store verify req)) →
      (replyBytes json (serveMap serde json store verify req)).size ≤ maxMapPayloadBytes →
      (HostsAgree serde json store h verify req hostId ↔ q.Travels serde rows) := by
  constructor
  · intro hcarries
    have hshallow := Nat.le_trans (partialCodec_depth (q.mapShard serde rows))
      (show 7 ≤ maxDepth by decide)
    rw [hcarries.parse_print hshallow, Option.bind_some]
    exact mapShard_keeps_iff serde q rows
  · intro store h verify req hostId bytes hquery hverify hvalid hblob hsize hrows hlimit hcarries
      hreply
    subst hquery
    have hserve : serveMap serde json store verify req = _ :=
      serveMap_eq hverify hvalid hblob hsize hrows hlimit
    have hfetch : fetchRows serde json store req.shard = .ok rows := fetchRows_eq hblob hsize hrows
    rw [hserve] at hcarries hreply
    rw [HostsAgree, Query.Travels, hserve]
    simp only [localMapHost, hfetch, Except.map]
    cases hprojection : req.query.isProjection with
    | false =>
        simp only [hprojection, Bool.false_eq_true, if_false] at hcarries hreply ⊢
        simp only [Except.ok.injEq, exists_eq_left', answerPartial_eq_ok_iff,
          decodeReply_eq_ok_iff hcarries hreply]
        have hdepth := Nat.le_trans (reply_ok_depth (req.query.mapShard serde rows))
          (show 8 ≤ maxDepth by decide)
        rw [and_iff_right hdepth]
        exact replyCodec_keeps_ok_iff.trans (mapShard_keeps_iff serde req.query rows)
    | true =>
        simp only [hprojection, if_true] at hcarries hreply ⊢
        simp only [Except.ok.injEq, exists_eq_left', answerRows_eq_ok_iff (hlimit hprojection),
          decodeReply_eq_ok_iff hcarries hreply]
        have hordered : ∀ row ∈ req.query.projectShard rows, Row.Ordered row :=
          Query.projectShard_cells.mpr fun row hrow _ c v _ hv =>
            decodeShard_ordered hrows row hrow c v hv
        have hkeeps : replyCodec.Keeps (.rows (req.query.projectShard rows)) :=
          replyCodec_keeps_rows_iff.mpr (Codec.list_keeps_iff.mpr fun row hrow =>
            rowCodec_keeps (hordered row hrow))
        rw [and_iff_left hkeeps, reply_rows_depth_iff]
        exact Query.projectShard_cells

end Hosts

/-! ## Two groups -/

private def userShard : Shard where
  cid := "s0"
  rows := U64.one
  bytes := U64.zero
  stats := none

private def groupedRequest : MapRequest where
  query :=
    { dataset := "t"
      aggregates := [.count, .sum "v", .max "v"]
      predicate := .true
      groupBy := ["u"]
      orderBy := []
      limit := none
      projection := none }
  shard := userShard
  grant := none

private def userRow (user : String) (n : Nat) : Row :=
  Std.ExtTreeMap.ofList [("u", .string user), ("v", .ofU64 (U64.wrap n))] compare

private def userRows : List Row :=
  [userRow "a" 1, userRow "b" 1, userRow "a" 2]

private def userLine (user n : String) : String :=
  "\x7b\"u\":\"" ++ user ++ "\",\"v\":" ++ n ++ "\x7d"

private def userBlob : ByteArray :=
  (userLine "a" "1" ++ "\n" ++ userLine "b" "1" ++ "\n" ++ userLine "a" "2" ++ "\n").toUTF8

private def groupsText : String :=
  "\x7b\"aggregates\":[\"Count\",\x7b\"Sum\":\"v\"\x7d,\x7b\"Max\":\"v\"\x7d],\"groups\":[" ++
    "[[\"a\"],[\x7b\"Count\":2\x7d,\x7b\"IntSum\":3\x7d,\x7b\"Max\":2.0\x7d]]," ++
    "[[\"b\"],[\x7b\"Count\":1\x7d,\x7b\"IntSum\":1\x7d,\x7b\"Max\":1.0\x7d]]]\x7d"

/-- Printing and parsing of the rows and of what is answered about their groups. -/
private def userTexts : JsonText where
  print
    | .object [("Ok", _)] => "\x7b\"Ok\":" ++ groupsText ++ "\x7d"
    | _ => groupsText
  printPretty _ := ""
  parse text :=
    if text = userLine "a" "1" then some (.object [("u", .string "a"), ("v", .int 1)])
    else if text = userLine "b" "1" then some (.object [("u", .string "b"), ("v", .int 1)])
    else if text = userLine "a" "2" then some (.object [("u", .string "a"), ("v", .int 2)])
    else if text = groupsText then
      some (partialCodec.encode (groupedRequest.query.mapShard .sample userRows))
    else some (replyCodec.encode (.ok (groupedRequest.query.mapShard .sample userRows)))

private theorem decodeShard_users : decodeShard userTexts userBlob = .ok userRows := by
  rw [userBlob, decodeShard_toUTF8]
  rfl

private def silentHost : MeshMapHost where
  client :=
    { request := fun _ _ _ _ => .error "timeout"
      complaint := fun _ => "" }
  grant := none
  timeoutMs := U64.zero

private theorem reply_carries {json : JsonText} {p : Partial}
    (hread : json.parse (json.print (replyCodec.encode (.ok p))) =
      some (replyCodec.encode (.ok p))) :
    json.Carries json.print (replyCodec.encode (.ok p)) :=
  JsonText.carries_of_depth (Nat.le_trans (reply_ok_depth p) (by decide)) hread

set_option maxRecDepth 4000 in
/-- The counts, sums and maxima of two groups travel. -/
theorem mesh_agrees_iff_two_groups :
    (userTexts.parse (userTexts.print (partialCodec.encode
        (groupedRequest.query.mapShard .sample userRows)))).bind partialCodec.decode =
      some (groupedRequest.query.mapShard .sample userRows) ∧
    HostsAgree .sample userTexts (fun _ => .ok userBlob) silentHost (fun _ => .ok ())
      groupedRequest "host0" := by
  have hportable : groupedRequest.query.Portable .sample userRows := by
    rw [← mapShard_keeps_iff]
    rfl
  have hserve : serveMap .sample userTexts (fun _ => .ok userBlob) (fun _ => .ok ())
      groupedRequest = .ok (groupedRequest.query.mapShard .sample userRows) :=
    serveMap_eq rfl rfl rfl (by decide) decodeShard_users (fun h => by cases h)
  obtain ⟨hround, hhosts⟩ := mesh_agrees_iff .sample userTexts groupedRequest.query userRows
  constructor
  · refine (hround (JsonText.carries_of_depth ?_ rfl)).mpr hportable
    exact Nat.le_trans (partialCodec_depth _) (by decide)
  · refine (hhosts (fun _ => .ok userBlob) silentHost (fun _ => .ok ()) groupedRequest "host0" _ rfl
      rfl rfl rfl (by decide) decodeShard_users (fun h => by cases h) ?_ ?_).mpr hportable
    · rw [hserve]
      exact reply_carries rfl
    · rw [hserve]
      decide

/-! ## An infinite maximum -/

private def maxRequest : MapRequest where
  query :=
    { dataset := "t"
      aggregates := [.max "v"]
      predicate := .true
      groupBy := []
      orderBy := []
      limit := none
      projection := none }
  shard := userShard
  grant := none

private def infRow : Row :=
  Std.ExtTreeMap.insert ∅ "v" (.string "inf")

private def infLine : String :=
  "\x7b\"v\":\"inf\"\x7d\n"

private def infBlob : BlobStore :=
  fun _ => .ok infLine.toUTF8

/-- Printing and parsing of the row and of what is answered about its maximum. -/
private def textOfInf : JsonText where
  print
    | .object [("Ok", _)] => "\x7b\"Ok\":" ++ partialText ++ "\x7d"
    | _ => partialText
  printPretty _ := ""
  parse text :=
    if text = "\x7b\"v\":\"inf\"\x7d" then some (.object [("v", .string "inf")])
    else if text = partialText then some partialDoc
    else some (.object [("Ok", partialDoc)])
where
  partialText :=
    "\x7b\"aggregates\":[\x7b\"Max\":\"v\"\x7d],\"groups\":[[[],[\x7b\"Max\":null\x7d]]]\x7d"
  partialDoc := .object
    [("aggregates", .array [.object [("Max", .string "v")]]),
      ("groups", .array [.array [.array [], .array [.object [("Max", .null)]]]])]

/-- The maximum of a row with the text "inf" is answered as if there were none. -/
theorem mesh_loses_infinity :
    decodeShard textOfInf infLine.toUTF8 = .ok [infRow] ∧
      textOfInf.Carries textOfInf.print (replyCodec.encode (serveMap .sample textOfInf
        infBlob (fun _ => .ok ()) maxRequest)) ∧
      ¬HostsAgree .sample textOfInf infBlob silentHost (fun _ => .ok ()) maxRequest "host0" := by
  have hrows : decodeShard textOfInf infLine.toUTF8 = .ok [infRow] := by
    rw [decodeShard_toUTF8]
    rfl
  have hserve : serveMap .sample textOfInf infBlob (fun _ => .ok ()) maxRequest =
      .ok (maxRequest.query.mapShard .sample [infRow]) :=
    serveMap_eq rfl rfl rfl (by decide) hrows (fun h => by cases h)
  have hcarries : textOfInf.Carries textOfInf.print (replyCodec.encode
      (.ok (maxRequest.query.mapShard .sample [infRow]))) := reply_carries rfl
  rw [HostsAgree, hserve]
  refine ⟨hrows, hcarries, ?_⟩
  rintro ⟨p, hlocal, hanswer⟩
  have hfetch : fetchRows .sample textOfInf infBlob maxRequest.shard = .ok _ :=
    fetchRows_eq rfl (by decide) hrows
  simp only [localMapHost, hfetch, Except.map, Except.ok.injEq] at hlocal
  subst hlocal
  have hread := (decodeReply_eq_ok_iff hcarries (by decide)).mp (answerPartial_eq_ok_iff.mp hanswer)
  have hfinite := partialCodec_keeps_iff.mp (replyCodec_keeps_ok_iff.mp hread.2) [] _ rfl
    (.max (some (1 / 0))) (List.mem_singleton.mpr rfl) (1 / 0) rfl
  exact absurd hfinite (by decide)

end CeQuery
