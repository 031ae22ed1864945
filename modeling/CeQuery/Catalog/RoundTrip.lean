import CeQuery.Catalog.Register
import CeQuery.Cells
import CeQuery.Stats

/-!
# Saving and loading a catalog

A saved catalog is loaded again exactly if all its statistics are finite numbers:
an infinite or undefined bound is written as null and then refused, and with it
the whole file. The bounds of a column are finite exactly if the column has a
number and no infinite one (`computeStats_keeps_iff`).
-/

namespace CeQuery

section Keeps

theorem statsCodec_keeps_iff {st : ShardStats} : statsCodec.Keeps st ↔
    ∀ (col : String) (bounds : F64 × F64), st.numeric[col]? = some bounds →
      bounds.1.isFinite = true ∧ bounds.2.isFinite = true := by
  rw [statsCodec, Codec.record_keeps_iff (fun _ => rfl) (fun _ => rfl), Fields.cons_keeps_iff,
    Codec.map_keeps_iff]
  simp only [Codec.pair_keeps_iff, Codec.float_keeps_iff, Fields.nil_keeps, and_true]

theorem shardCodec_keeps_iff {s : Shard} : shardCodec.Keeps s ↔
    ∀ st, s.stats = some st → statsCodec.Keeps st := by
  rw [shardCodec, Codec.record_keeps_iff (fun _ => rfl) (fun _ => rfl), Fields.cons_keeps_iff,
    Fields.cons_keeps_iff, Fields.cons_keeps_iff, Fields.cons_keeps_iff]
  simp only [Codec.string_keeps, Codec.boundedInt_keeps, Fields.nil_keeps, true_and, and_true]
  cases s.stats with
  | none => simp [Codec.option_keeps_none]
  | some st =>
      rw [Codec.option_keeps_some_iff]
      simp [statsCodec, Codec.record_encode_ne_null]

theorem datasetCodec_keeps_iff {d : Dataset} : datasetCodec.Keeps d ↔
    ∀ s ∈ d.shards, shardCodec.Keeps s := by
  rw [datasetCodec, Codec.record_keeps_iff (fun _ => rfl) (fun _ => rfl), Fields.cons_keeps_iff,
    Fields.cons_keeps_iff, Fields.cons_keeps_iff, Codec.list_keeps_iff, Codec.list_keeps_iff]
  simp only [Codec.string_keeps, Fields.nil_keeps, true_and, and_true, implies_true]

theorem catalogCodec_keeps_iff {c : Catalog} : catalogCodec.Keeps c ↔
    ∀ (name : String) (d : Dataset), c.datasets[name]? = some d → datasetCodec.Keeps d := by
  rw [catalogCodec, Codec.record_keeps_iff (fun _ => rfl) (fun _ => rfl), Fields.cons_keeps_iff,
    Fields.cons_keeps_iff, Codec.map_keeps_iff]
  simp only [Codec.boundedInt_keeps, Fields.nil_keeps, true_and, and_true]

/-- The version of a written catalog is always read back. -/
theorem catalogCodec_decode_encode (c : Catalog) :
    catalogCodec.decode (catalogCodec.encode c) =
      (datasetCodec.map.decode (datasetCodec.map.encode c.datasets)).map
        fun datasets => { c with datasets } := by
  rw [catalogCodec, Codec.record_decode_encode, Fields.cons_decode_encode,
    Fields.cons_decode_encode, Fields.nil_keeps, Codec.boundedInt_keeps]
  cases datasetCodec.map.decode (datasetCodec.map.encode c.datasets) <;> rfl

/-- Every catalog nests at most eight deep. -/
theorem shardCodec_depth : shardCodec.DepthLe 4 := by
  have hstats : statsCodec.DepthLe 3 :=
    Codec.record_depth (Fields.cons_depth (Codec.map_depth (Codec.pair_depth Codec.float_depth
      Codec.float_depth)) Fields.nil_depth)
  refine Codec.record_depth (Fields.cons_depth (Codec.string_depth.mono (by omega)) ?_)
  apply Fields.cons_depth (Codec.boundedInt_depth.mono (by omega))
  apply Fields.cons_depth (Codec.boundedInt_depth.mono (by omega))
  exact Fields.cons_depth (Codec.option_depth hstats) Fields.nil_depth

theorem catalogCodec_depth : catalogCodec.DepthLe 8 := by
  have hdataset : datasetCodec.DepthLe 6 := by
    refine Codec.record_depth (Fields.cons_depth (Codec.string_depth.mono (by omega)) ?_)
    apply Fields.cons_depth ((Codec.list_depth Codec.string_depth).mono (by omega))
    exact Fields.cons_depth (Codec.list_depth shardCodec_depth) Fields.nil_depth
  refine Codec.record_depth (Fields.cons_depth (Codec.boundedInt_depth.mono (by omega)) ?_)
  exact Fields.cons_depth (Codec.map_depth hdataset) Fields.nil_depth

end Keeps

/-! ## Statistics that are numbers -/

/-- Every column with numbers only has no infinity and, besides NaN, some number. -/
def FiniteColumns (rows : List Row) : Prop :=
  ∀ col, columnCells col rows ≠ [] → (∀ c ∈ columnCells col rows, (asF64 c).isSome = true) →
    (∀ x ∈ numericCells col rows, x.isInf = false) ∧ ∃ x ∈ numericCells col rows, x.isNaN = false

theorem computeStats_keeps_iff {rows : List Row} :
    statsCodec.Keeps (computeStats rows) ↔ FiniteColumns rows := by
  rw [statsCodec_keeps_iff]
  apply forall_congr'
  intro col
  have hbounds := computeStats_bounds col rows
  rw [numericCells_eq]
  cases hentry : (computeStats rows).numeric[col]? with
  | none =>
      rw [hentry] at hbounds
      apply iff_of_true (by simp)
      intro hpresent hnumeric
      obtain hempty | ⟨c, hc, hnone⟩ := hbounds
      · exact absurd hempty hpresent
      · have hsome := hnumeric c hc
        rw [hnone] at hsome
        cases hsome
  | some bounds =>
      rw [hentry] at hbounds
      obtain ⟨hnumeric, hmin, hmax⟩ := hbounds
      have hpresent : columnCells col rows ≠ [] := by
        intro hempty
        have hmem := hmin.mem
        rw [hempty] at hmem
        cases hmem
      have hfinite := hmin.finite_iff hmax
      constructor
      · intro h _ _
        exact hfinite.mp (h bounds rfl)
      · intro h bounds' heq
        cases heq
        exact hfinite.mpr (h hpresent hnumeric)

/-- Every number of the row, in a string or not, is finite. -/
def Row.Finite (row : Row) : Prop :=
  ∀ (col : String) (v : Value), row[col]? = some v → ∀ x, asF64 v = some x → x.isFinite = true

/-- The statistics of finite numbers are finite. -/
theorem finiteColumns_of_finite {rows : List Row} (h : ∀ row ∈ rows, row.Finite) :
    FiniteColumns rows := by
  intro col hpresent hnumeric
  have hfinite : ∀ c ∈ columnCells col rows, ∀ x, asF64 c = some x → x.isFinite = true := by
    intro c hc x hx
    obtain ⟨row, hrow, hcell⟩ := List.mem_filterMap.mp hc
    exact h row hrow col c hcell x hx
  have hnumbers : ∀ x ∈ numericCells col rows, x.isFinite = true := by
    intro x hx
    rw [numericCells_eq] at hx
    obtain ⟨c, hc, hcell⟩ := List.mem_filterMap.mp hx
    exact hfinite c hc x hcell
  obtain ⟨c, hc⟩ := List.exists_mem_of_ne_nil _ hpresent
  obtain ⟨x, hx⟩ := Option.isSome_iff_exists.mp (hnumeric c hc)
  have hmem : x ∈ numericCells col rows := by
    rw [numericCells_eq]
    exact List.mem_filterMap.mpr ⟨c, hc, hx⟩
  exact ⟨fun y hy => (F64.isFinite_iff.mp (hnumbers y hy)).2, x, hmem,
    (F64.isFinite_iff.mp (hnumbers x hmem)).1⟩

/-! ## The catalog file -/

section File

variable {json : JsonText}

/-- A text is loaded if it can be parsed and read. -/
theorem load_toUTF8 (text : String) : Catalog.load json (.bytes text.toUTF8) =
    match (json.parse text).bind catalogCodec.decode with
    | some c => c.migrate
    | none => .error .parsing := by
  change (match (json.parseBytes text.toUTF8).bind catalogCodec.decode with
    | some c => c.migrate
    | none => .error .parsing) = _
  rw [JsonText.parseBytes_toUTF8]

/-- A catalog that was saved is loaded again exactly if its form keeps it. -/
theorem load_saved_iff {c : Catalog}
    (hcarries : json.Carries json.printPretty (catalogCodec.encode c.stamped)) :
    (∃ c', Catalog.load json (.bytes (c.saved json)) = .ok c' ∧ c'.datasets = c.datasets) ↔
      catalogCodec.Keeps c.stamped := by
  have hshallow : (catalogCodec.encode c.stamped).depth ≤ maxDepth :=
    Nat.le_trans (catalogCodec_depth c.stamped) (by decide)
  rw [Catalog.saved, load_toUTF8, hcarries.parse_print hshallow, Option.bind_some, Codec.Keeps,
    catalogCodec_decode_encode]
  cases datasetCodec.map.decode (datasetCodec.map.encode c.stamped.datasets) with
  | none => simp
  | some datasets =>
      have hload : ({ c.stamped with datasets } : Catalog).migrate =
          .ok { c.stamped with datasets } := rfl
      simp only [Option.map_some, hload, Except.ok.injEq, exists_eq_left', Option.some.injEq]
      constructor
      · intro hdatasets
        subst hdatasets
        rfl
      · intro heq
        exact congrArg Catalog.datasets heq

/-- The catalog after any operations survives saving and loading exactly if the
rows behind its statistics have finite columns only. -/
theorem catalog_survives_iff (ops : List CatalogOp)
    (hcarries : json.Carries json.printPretty
      (catalogCodec.encode (catalogAfter json ops).stamped)) :
    (∃ c, Catalog.load json (.bytes ((catalogAfter json ops).saved json)) = .ok c ∧
        c.datasets = (catalogAfter json ops).datasets) ↔
      ∀ (name : String) (d : SourceDataset), (sourcesAfter json ops)[name]? = some d →
        ∀ s ∈ d.shards, ∀ rows, s.source = some rows → FiniteColumns rows := by
  have hfrom : (catalogAfter json ops).From (sourcesAfter json ops) := catalogAfter_from ops
  rw [load_saved_iff hcarries, catalogCodec_keeps_iff]
  change (∀ (name : String) (d : Dataset), (catalogAfter json ops).datasets[name]? = some d → _) ↔ _
  constructor
  · intro h name d hd s hs rows hrows
    have hshards := datasetCodec_keeps_iff.mp
      (h name d.dataset (by rw [hfrom name, hd, Option.map_some]))
    have hstats := shardCodec_keeps_iff.mp (hshards s.shard (List.mem_map_of_mem hs))
    exact computeStats_keeps_iff.mp
      (hstats (computeStats rows) (by simp [SourceShard.shard, hrows]))
  · intro h name d hd
    rw [hfrom name] at hd
    obtain ⟨d, hget, rfl⟩ := Option.map_eq_some_iff.mp hd
    apply datasetCodec_keeps_iff.mpr
    intro shard hshard
    obtain ⟨s, hs, rfl⟩ := List.mem_map.mp hshard
    apply shardCodec_keeps_iff.mpr
    intro st hst
    obtain ⟨rows, hrows, rfl⟩ := Option.map_eq_some_iff.mp hst
    exact computeStats_keeps_iff.mpr (h name d hget s hs rows hrows)

end File

private def registeredRow (cell : Value) : Row :=
  Std.ExtTreeMap.ofList [("a", cell)] compare

/-- Register a dataset with one column in one shard. -/
private def registerCells (cid name : String) (cells : List Value) : CatalogOp :=
  .register (fun _ => .ok cid) name ["a"] (cells.map registeredRow) 1

private def catalogDocument (datasets : List (String × Document)) : Document :=
  .object [("version", .int 1), ("datasets", .object datasets)]

/-- The entry of such a dataset in the document of a catalog. -/
private def datasetMember (cid name : String) (rows bytes : Int)
    (numeric : List (String × Document)) : String × Document :=
  (name, .object [("name", .string name), ("schema", .array [.string "a"]),
    ("shards", .array [.object [("cid", .string cid), ("rows", .int rows), ("bytes", .int bytes),
      ("stats", .object [("numeric", .object numeric)])]])])

private def catalogText (datasets : List String) : String :=
  "\x7b\n  \"version\": 1,\n  \"datasets\": \x7b\n" ++ ",\n".intercalate datasets ++
    "\n  \x7d\n\x7d"

/-- Its entry in the text. -/
private def datasetText (cid name rows bytes numeric : String) : String :=
  "    \"" ++ name ++ "\": \x7b\n      \"name\": \"" ++ name ++
    "\",\n      \"schema\": [\n        \"a\"\n      ],\n      \"shards\": [\n" ++
    "        \x7b\n          \"cid\": \"" ++ cid ++ "\",\n          \"rows\": " ++ rows ++
    ",\n          \"bytes\": " ++ bytes ++ ",\n          \"stats\": \x7b\n" ++
    "            \"numeric\": \x7b" ++ numeric ++
    "\x7d\n          \x7d\n        \x7d\n      ]\n    \x7d"

private def boundsText (bound : String) : String :=
  "\n              \"a\": [\n                " ++ bound ++ ",\n                " ++ bound ++
    "\n              ]\n            "

/-- Two datasets that stay and one that is removed. -/
private def threeDatasets : List CatalogOp :=
  [registerCells "s0" "d" [.ofU64 U64.one, .string "1"], registerCells "s1" "e" [.string "x"],
    registerCells "s2" "f" [.null], .remove "f"]

/-- What printing and parsing do to the rows and to the catalog with two datasets. -/
private def textOfTwo : JsonText where
  print
    | .object [(_, .int _)] => "\x7b\"a\":1\x7d"
    | .object [(_, .string text)] => "\x7b\"a\":\"" ++ text ++ "\"\x7d"
    | _ => "\x7b\"a\":null\x7d"
  printPretty _ :=
    catalogText [datasetText "s0" "d" "2" "18" (boundsText "1.0"), datasetText "s1" "e" "1" "10" ""]
  parse _ := some (catalogDocument
    [datasetMember "s0" "d" 2 18 [("a", .array [.float .one, .float .one])],
      datasetMember "s1" "e" 1 10 []])

private def textOfInfinity : JsonText where
  print _ := "\x7b\"a\":\"inf\"\x7d"
  printPretty _ := catalogText [datasetText "s0" "d" "1" "12" (boundsText "null")]
  parse _ := some (catalogDocument [datasetMember "s0" "d" 1 12 [("a", .array [.null, .null])]])

private theorem ops_carry {json : JsonText} {ops : List CatalogOp}
    (h : ∀ text, json.parse text = some (catalogCodec.encode (catalogAfter json ops).stamped)) :
    json.Carries json.printPretty (catalogCodec.encode (catalogAfter json ops).stamped) :=
  JsonText.carries_of_depth (Nat.le_trans (catalogCodec_depth _) (by decide)) (h _)

private theorem finite_cells {cells : List Value}
    (h : ∀ cell ∈ cells, (asF64 cell).all (fun x => x.isFinite) = true) :
    ∀ row ∈ cells.map registeredRow, row.Finite := by
  intro row hrow col v hcell x hx
  obtain ⟨cell, hmem, rfl⟩ := List.mem_map.mp hrow
  have hmember := BTreeMap.mem_of_getElem?_ofList hcell
  obtain ⟨rfl, rfl⟩ := Prod.mk.inj (List.mem_singleton.mp hmember)
  have hfinite := h _ hmem
  rwa [hx] at hfinite

set_option maxRecDepth 4000 in
/-- A catalog of two datasets survives, after a third one was removed. -/
theorem catalog_survives_iff_three_datasets :
    ∃ c, Catalog.load textOfTwo (.bytes ((catalogAfter textOfTwo threeDatasets).saved textOfTwo)) =
        .ok c ∧
      c.datasets = (catalogAfter textOfTwo threeDatasets).datasets := by
  apply (catalog_survives_iff _ (ops_carry fun _ => rfl)).mpr
  intro name d hd s hs rows hrows
  have hsources : sourcesAfter textOfTwo threeDatasets =
      ((((∅ : BTreeMap String SourceDataset).insert "d"
        { name := "d"
          schema := ["a"]
          shards :=
            [{ cid := "s0"
               rows := U64.wrap 2
               bytes := U64.wrap 18
               source := some ([.ofU64 U64.one, .string "1"].map registeredRow) }] }).insert "e"
        { name := "e"
          schema := ["a"]
          shards :=
            [{ cid := "s1"
               rows := U64.one
               bytes := U64.wrap 10
               source := some ([.string "x"].map registeredRow) }] }).insert "f"
        { name := "f"
          schema := ["a"]
          shards :=
            [{ cid := "s2"
               rows := U64.one
               bytes := U64.wrap 11
               source := some ([.null].map registeredRow) }] }).erase "f" := rfl
  rw [hsources, Std.ExtTreeMap.getElem?_erase, Std.ExtTreeMap.getElem?_insert,
    Std.ExtTreeMap.getElem?_insert, Std.ExtTreeMap.getElem?_insert] at hd
  split at hd
  · cases hd
  · split at hd
    · cases hd
      cases List.mem_singleton.mp hs
      cases hrows
      exact finiteColumns_of_finite (finite_cells (by decide))
    · split at hd
      · cases hd
        cases List.mem_singleton.mp hs
        cases hrows
        exact finiteColumns_of_finite (finite_cells (by decide))
      · cases hd

set_option maxRecDepth 2000 in
/-- A row with the text "inf" makes the whole catalog unreadable. -/
theorem catalog_lost :
    ¬(textOfInfinity.Carries textOfInfinity.printPretty (catalogCodec.encode
        (catalogAfter textOfInfinity [registerCells "s0" "d" [.string "inf"]]).stamped) →
      ∃ c, Catalog.load textOfInfinity (.bytes
          ((catalogAfter textOfInfinity [registerCells "s0" "d" [.string "inf"]]).saved
            textOfInfinity)) = .ok c ∧
        c.datasets =
          (catalogAfter textOfInfinity [registerCells "s0" "d" [.string "inf"]]).datasets) := by
  intro h
  obtain ⟨c, hload, _⟩ := h (ops_carry fun _ => rfl)
  rw [Catalog.saved, load_toUTF8] at hload
  cases hload

end CeQuery
