import CeQuery.Combine.Shape
import CeQuery.Combine.Definite
import CeQuery.Command
import CeQuery.Engine.Believed
import CeQuery.Engine.Truncation
import CeQuery.Foundation.Distinct
import CeQuery.Mesh.AgentRuns
import CeQuery.Mesh.Distributed

/-!
# What a query answers

A query is answered from the shards of a dataset, and these stand for a table. The
groups that are printed are those of the table (`Query.AggregatedAs`), the rows that are
printed are rows of the table, and unless there are more than may be held they are
all of them, ordered and limited (`Query.ProjectedAs`). Between the two lie parsing, the
catalog file, the fan-out over hosts with failures and retries, pruning and merging
(`runCmd_answers`).
-/

namespace CeQuery

/-- A cell with a text is compared with a number in quotes. Here the planner may read
numbers where the filter reads texts. -/
def ComparesText (row : Row) : Predicate → Prop
  | .true => False
  | .not _ => False
  | .or a b => ComparesText row a ∨ ComparesText row b
  | .and a b => ComparesText row a ∨ ComparesText row b
  | .cmp field _ value => ∃ s t, row[field]? = some (.string s) ∧ value = .string t ∧
      (asF64 (.string t)).isSome = true

/-- The output rows of an aggregate query on a table. -/
def Query.AggregatedAs (serde : SerdeJson) (q : Query) (rows : List Row)
    (results : List GroupResult) : Prop :=
  ∃ p groups, q.Reference serde rows p ∧ p.finalize serde = some groups ∧
    q.Lists serde rows groups ∧ results = q.shape groups

/-- The rows of a projection of a table, of which `ceiling` may be held at once. -/
def Query.ProjectedAs (q : Query) (rows : List Row) (ceiling : Nat) (results : List Row) : Prop :=
  results.Subperm (q.projectShard rows) ∧
    ((q.projectShard rows).length ≤ ceiling →
      ∃ arrived : List Row, arrived.Perm (q.projectShard rows) ∧ results = finishRows q arrived)

/-- What a query prints that is answered from these rows. -/
def Query.AnsweredAs (serde : SerdeJson) (q : Query) (rows : List Row) (out : List Value) : Prop :=
  (q.isProjection = true →
    ∃ results, q.ProjectedAs rows 1000000 results ∧ out = results.map rowObject) ∧
  (q.isProjection = false →
    ∃ results, q.AggregatedAs serde rows results ∧ out = results.map (groupObject q.groupBy))

/-- No two groups of a list have the same key. -/
theorem Query.Lists.nodup {serde : SerdeJson} {q : Query} {rows : List Row}
    {groups : List GroupResult} (h : q.Lists serde rows groups) : (groups.map (·.key)).Nodup := by
  refine h.sorted.imp ?_
  rintro a b hlt rfl
  rw [Std.ReflOrd.compare_self] at hlt
  cases hlt

/-! ## Shards and their table -/

section Table

variable {serde : SerdeJson} {json : JsonText} {content : String → ByteArray} {q : Query}
  {d : Dataset} {rows : List Row}

theorem localMapHost_computes {blobs : BlobStore} (hblobs : blobs.Holds content)
    (shards : List Shard) (hosts : List String) :
    (localMapHost serde json blobs).Computes serde (blobTable json content) q shards hosts := by
  constructor
  · intro s _ hostId _ p hmap
    exact localMap_eq_mapShard hblobs hmap
  · intro s _ hostId _ rows hproject
    change (fetchRows serde json blobs s).map q.projectShard = .ok rows at hproject
    cases hrows : fetchRows serde json blobs s with
    | error e =>
        rw [hrows] at hproject
        cases hproject
    | ok rows =>
        rw [hrows] at hproject
        cases hproject
        rw [fetchRows_table hblobs hrows]

/-- A filter that compares no text misleads no row, whatever else is in its shard. -/
theorem comparesText_of_misled {shard : List Row} {row : Row} {predicate : Predicate}
    (h : Misled shard row predicate) : ComparesText row predicate := by
  induction predicate with
  | true => exact h
  | not a _ => exact h
  | or a b iha ihb => exact h.imp (fun h => iha h.1) fun h => ihb h.2
  | and a b iha ihb => exact h.imp (fun h => iha h.1) fun h => ihb h.2
  | cmp field op value =>
      obtain ⟨s, t, hcell, rfl, _, v, hv, _⟩ := h
      exact ⟨s, t, hcell, rfl, Option.isSome_iff_exists.mpr ⟨v, hv⟩⟩

theorem Dataset.Stores.mem (hd : d.Stores json content rows) {s : Shard} (hs : s ∈ d.shards)
    {row : Row} (hrow : row ∈ blobTable json content s.cid) : row ∈ rows :=
  hd.table.mem_iff.mp (List.mem_flatMap.mpr ⟨s, hs, hrow⟩)

theorem Dataset.Stores.noneMisled (hd : d.Stores json content rows)
    (htext : ∀ row ∈ rows, ¬ComparesText row q.predicate) :
    ∀ s ∈ d.shards, s.NoneMisled (blobTable json content) q :=
  fun _ hs row hrow hmisled => htext row (hd.mem hs hrow) (comparesText_of_misled hmisled)

/-- The matching rows of the shards that are read are those of the table. -/
theorem Dataset.Stores.matchingRows_perm (hd : d.Stores json content rows)
    (htext : ∀ row ∈ rows, ¬ComparesText row q.predicate) :
    (matchingRows (blobTable json content) q (liveShards q d.shards)).Perm
      (rows.filter fun row => q.predicate.eval row) := by
  have hlive : ∀ shards : List Shard, (∀ s ∈ shards, s.StatsOf (blobTable json content)) →
      (∀ s ∈ shards, s.NoneMisled (blobTable json content) q) →
      matchingRows (blobTable json content) q (liveShards q shards) =
        matchingRows (blobTable json content) q shards := by
    intro shards hstats hnone
    induction shards with
    | nil => rfl
    | cons s shards ih =>
        have hrest := ih (fun s' hs' => hstats s' (List.mem_cons_of_mem _ hs'))
          fun s' hs' => hnone s' (List.mem_cons_of_mem _ hs')
        cases hmatch : shardCanMatch s.stats q.predicate with
        | true =>
            rw [liveShards_cons_of_pos hmatch, matchingRows, List.flatMap_cons,
              matchingRows, List.flatMap_cons]
            exact congrArg _ hrest
        | false =>
            have hskipped : (blobTable json content s.cid).filter
                (fun row => q.predicate.eval row) = [] := by
              rw [List.filter_eq_nil_iff]
              intro row hrow
              rw [eval_eq_false_of_pruned (hstats s List.mem_cons_self)
                (hnone s List.mem_cons_self) hmatch row hrow]
              exact Bool.false_ne_true
            rw [liveShards_cons_of_neg hmatch, hrest, matchingRows,
              matchingRows, List.flatMap_cons, hskipped, List.nil_append]
  rw [hlive d.shards hd.stats (hd.noneMisled htext), matchingRows, ← List.filter_flatMap]
  exact hd.table.filter _

end Table

/-! ## Runs -/

section Run

variable {env : Externals} {host : MapHost} {config : RunConfig} {json : JsonText}
  {content : String → ByteArray} {q : Query} {d : Dataset} {rows : List Row} {hosts : List String}
  {clock : Nat → Nat → Nat} {order : List Nat}

/-- The map outputs of the live shards reduce to a merge over the whole table. -/
theorem exists_reduce_mapOutputs (serde : SerdeJson) (hd : d.Stores json content rows)
    (htext : ∀ row ∈ rows, ¬ComparesText row q.predicate) :
    ∃ tree, tree.parts.flatten.Perm rows ∧
      reduce q.aggregates (q.mapOutputs serde (blobTable json content) d.shards) =
        q.evalTree serde tree := by
  have htables : (d.shards.map fun s => q.mapShard serde (blobTable json content s.cid)) =
      (d.shards.map fun s => blobTable json content s.cid).map (q.mapShard serde) := by
    rw [List.map_map]
    rfl
  refine ⟨.leftFold (d.shards.map fun s => blobTable json content s.cid), ?_, ?_⟩
  · rw [MergeTree.parts_leftFold, ← List.flatMap_def]
    exact hd.table
  · rw [Query.mapOutputs, reduce_liveShards hd.stats (hd.noneMisled htext), htables,
      reduce_mapShard]
    rfl

/-- The map outputs of the live shards are finalised as a merge over the whole table. -/
theorem reducedRows_finalizes {serde : SerdeJson} (hd : d.Stores json content rows)
    (htext : ∀ row ∈ rows, ¬ComparesText row q.predicate) {results : List GroupResult}
    (h : reducedRows serde q (q.mapOutputs serde (blobTable json content) d.shards) =
      some results) :
    ∃ tree groups, tree.parts.flatten.Perm rows ∧
      (q.evalTree serde tree).finalize serde = some groups ∧ results = q.shape groups := by
  obtain ⟨groups, hgroups, hresults⟩ := Option.map_eq_some_iff.mp h
  obtain ⟨tree, hdist, hreduce⟩ := exists_reduce_mapOutputs serde hd htext
  exact ⟨tree, groups, hdist, hreduce ▸ hgroups, hresults.symm⟩

/-- What the map outputs of the live shards reduce to is the answer of the table. -/
theorem reducedRows_aggregatedAs {serde : SerdeJson} (hd : d.Stores json content rows)
    (hexact : q.ExactSums rows) (htext : ∀ row ∈ rows, ¬ComparesText row q.predicate)
    {results : List GroupResult}
    (h : reducedRows serde q (q.mapOutputs serde (blobTable json content) d.shards) =
      some results) :
    q.AggregatedAs serde rows results := by
  obtain ⟨tree, groups, hdist, hgroups, hresults⟩ := reducedRows_finalizes hd htext h
  have hreference : q.Reference serde rows (q.evalTree serde tree) :=
    Query.reference_eval hexact tree hdist
  exact ⟨_, groups, hreference, hgroups, hreference.lists hgroups, hresults⟩

theorem run_reducesTables
    (hhost : host.Computes env.toSerdeJson (blobTable json content) q (liveShards q d.shards) hosts)
    {report : RunReport}
    (hrun : run env host config q clock d.shards hosts order = some (.ok report)) :
    reducedRows env.toSerdeJson q
      (q.mapOutputs env.toSerdeJson (blobTable json content) d.shards) = some report.results := by
  refine run_reduces ?_ hrun
  intro s hs clock o ho
  obtain ⟨hostId, hranked, hmap⟩ := mapOneShard_answered ho
  exact hhost.map s hs hostId (mem_rankHosts hranked) _ hmap

/-- An aggregate run finalises the merged partials of the tables of all shards. -/
theorem run_finalizes (hd : d.Stores json content rows)
    (hhost : host.Computes env.toSerdeJson (blobTable json content) q (liveShards q d.shards) hosts)
    (htext : ∀ row ∈ rows, ¬ComparesText row q.predicate) {report : RunReport}
    (hrun : run env host config q clock d.shards hosts order = some (.ok report)) :
    ∃ tree groups, tree.parts.flatten.Perm rows ∧
      (q.evalTree env.toSerdeJson tree).finalize env.toSerdeJson = some groups ∧
      report.results = q.shape groups :=
  reducedRows_finalizes hd htext (run_reducesTables hhost hrun)

/-- What an aggregate run reports is the answer of the table. -/
theorem run_aggregatedAs (hd : d.Stores json content rows)
    (hhost : host.Computes env.toSerdeJson (blobTable json content) q (liveShards q d.shards) hosts)
    (hexact : q.ExactSums rows) (htext : ∀ row ∈ rows, ¬ComparesText row q.predicate)
    {report : RunReport}
    (hrun : run env host config q clock d.shards hosts order = some (.ok report)) :
    q.AggregatedAs env.toSerdeJson rows report.results :=
  reducedRows_aggregatedAs hd hexact htext (run_reducesTables hhost hrun)

theorem finishRows_subperm (q : Query) (rows : List Row) : (finishRows q rows).Subperm rows := by
  have hsorted := (orderRawRows_perm rows q.orderBy).subperm
  rw [finishRows]
  split
  · exact (List.take_sublist _ _).subperm.trans hsorted
  · exact hsorted

/-- A projection that may stop early needs no more rows than its limit. -/
theorem finishRows_capped {n : Nat} (hearly : canEarlyStop q = true)
    (hcap : collectCap config q = some n) (rows : List Row) :
    finishRows q (rows.take n) = rows.take n ∧ finishRows q rows = rows.take n := by
  rw [canEarlyStop, Bool.and_eq_true, List.isEmpty_iff] at hearly
  obtain ⟨hlimit, horder⟩ := hearly
  obtain ⟨limit, hlimit⟩ := Option.isSome_iff_exists.mp hlimit
  have hn : n = limit.val.toNat := by
    simp only [collectCap, canEarlyStop, hlimit, horder, Option.isSome_some, List.isEmpty_nil,
      Bool.and_self, if_true, Option.map_some, Option.some_or, Option.some.injEq] at hcap
    exact hcap.symm
  have hunsorted : ∀ xs : List Row, orderRawRows xs q.orderBy = xs := by
    intro xs
    rw [orderRawRows, horder, List.isEmpty_nil, if_pos rfl]
  simp only [finishRows, hlimit, hunsorted, hn, List.take_take, Nat.min_self, and_self]

/-- What a projection run reports is rows of the table, and the answer if they may all be
held at once, if the first answer for each shard that is read is from its table. -/
theorem runProjection_projectedAs (hd : d.Stores json content rows)
    (hfirst : ∀ s ∈ liveShards q d.shards, ∀ hostId projected,
      firstAnswer env host config q hosts s = some hostId →
      host.project hostId s q = .ok projected →
      projected = q.projectShard (blobTable json content s.cid))
    (htext : ∀ row ∈ rows, ¬ComparesText row q.predicate)
    (hceiling : config.limits.maxResultGroups ≠ 0) {report : ProjectionReport}
    (hrun : runProjection env host config q clock d.shards hosts order = some (.ok report)) :
    q.ProjectedAs rows config.limits.maxResultGroups report.rows := by
  classical
  let believed (hostId : String) (s : Shard) : Bool :=
    decide (s ∈ liveShards q d.shards ∧ firstAnswer env host config q hosts s = some hostId)
  have hbelieving : (host.believing believed).Projects (blobTable json content) q := by
    refine believing_projects fun hostId s hbelieved projected hproject => ?_
    obtain ⟨hs, hanswer⟩ := of_decide_eq_true hbelieved
    exact hfirst s hs hostId projected hanswer hproject
  rw [← runProjection_believing believed
    fun s hs hostId hanswer => decide_eq_true ⟨hs, hanswer⟩] at hrun
  obtain ⟨seen, unseen, hperm, hrows, hstopped⟩ := runProjection_seen hbelieving hrun
  have hall : ((seen ++ unseen).map q.cut).Perm (q.projectShard rows) :=
    (hperm.trans (hd.matchingRows_perm htext)).map q.cut
  constructor
  · rw [hrows]
    have hseen : (seen.map q.cut).Subperm (q.projectShard rows) :=
      ((List.sublist_append_left seen unseen).map q.cut).subperm.trans hall.subperm
    exact (finishRows_subperm q _).trans (capped_sublist.subperm.trans hseen)
  · intro hfits
    refine ⟨(seen ++ unseen).map q.cut, hall, ?_⟩
    rw [hrows]
    cases hearly : canEarlyStop q with
    | false =>
        obtain ⟨rfl, _⟩ | ⟨hsome, _⟩ := hstopped
        · have hcap : collectCap config q = some config.limits.maxResultGroups := by
            simp [collectCap, hearly, hceiling]
          rw [hcap, capped_some, List.append_nil, List.take_of_length_le]
          rw [List.append_nil] at hall
          exact hall.length_eq.trans_le hfits
        · rw [hearly] at hsome
          cases hsome
    | true =>
        obtain ⟨n, hcap⟩ : ∃ n, collectCap config q = some n := by
          simp [collectCap, hearly, hceiling]
        rw [hcap, capped_some, (finishRows_capped hearly hcap _).1,
          (finishRows_capped hearly hcap _).2, List.map_append]
        obtain ⟨rfl, _⟩ | ⟨_, cap, hcap', hfull⟩ := hstopped
        · rw [List.map_nil, List.append_nil]
        · rw [hcap] at hcap'
          cases hcap'
          rw [List.take_append_of_le_length (by rwa [List.length_map])]

/-- Two runs over shards of the same rows report the same, if the aggregates of the query
are definite, whatever the shards, the hosts, the configurations and the orders in which
the shards are answered. -/
theorem runs_agree {host' : MapHost} {config' : RunConfig} {json' : JsonText}
    {content' : String → ByteArray} {d' : Dataset} {rows' : List Row} {hosts' : List String}
    {clock' : Nat → Nat → Nat} {order' : List Nat} (hd : d.Stores json content rows)
    (hd' : d'.Stores json' content' rows') (hperm : rows.Perm rows')
    (hhost : host.Computes env.toSerdeJson (blobTable json content) q (liveShards q d.shards) hosts)
    (hhost' : host'.Computes env.toSerdeJson (blobTable json' content') q
      (liveShards q d'.shards) hosts')
    (htext : ∀ row ∈ rows, ¬ComparesText row q.predicate)
    (hdefinite : q.Definite env.toSerdeJson rows) {report report' : RunReport}
    (hrun : run env host config q clock d.shards hosts order = some (.ok report))
    (hrun' : run env host' config' q clock' d'.shards hosts' order' = some (.ok report')) :
    report.results = report'.results := by
  obtain ⟨tree, groups, hdist, hgroups, hresults⟩ := run_finalizes hd hhost htext hrun
  have htext' : ∀ row ∈ rows', ¬ComparesText row q.predicate :=
    fun row hrow => htext row (hperm.mem_iff.mpr hrow)
  obtain ⟨tree', groups', hdist', hgroups', hresults'⟩ := run_finalizes hd' hhost' htext' hrun'
  rw [Query.finalize_definite hdist (hdist'.trans hperm.symm) hdefinite, hgroups'] at hgroups
  rw [hresults, hresults', Option.some.inj hgroups]

end Run

private def measured : Query where
  dataset := "a"
  aggregates := [.sum "v", .avg "v"]
  predicate := .true
  groupBy := []
  orderBy := []
  limit := none
  projection := none

private def onceConfig : RunConfig where
  maxAttemptsPerShard := 1
  maxInFlight := 1
  redundancy := 1
  quorum := 0
  deadline := none
  limits := CostLimits.standard

private def lines (n : Nat) : String :=
  String.join (List.replicate n (lineText ++ "\n"))

/-- A shard with one row, or with two. -/
private def linesShard (n : Nat) : Shard where
  cid := lines n
  rows := U64.wrap n
  bytes := U64.wrap (8 * n)
  stats := some (computeStats (List.replicate n countedRow))

/-- It has these two shards. -/
private def measuringHost : MapHost where
  map _ shard q :=
    if shard.cid = lines 1 then .ok (q.mapShard .sample [countedRow])
    else if shard.cid = lines 2 then .ok (q.mapShard .sample [countedRow, countedRow])
    else .error .timeout
  project _ _ _ := .error .timeout

private theorem blobTable_lines {n : Nat} (hn : n = 1 ∨ n = 2) :
    blobTable countedTexts ownContent (lines n) = List.replicate n countedRow := by
  have hencoded : (lines n).toUTF8 = encodeShard countedTexts (List.replicate n countedRow) := by
    obtain rfl | rfl := hn <;> rfl
  rw [blobTable, ownContent, hencoded, decodeShard_encodeShard]
  · rfl
  · exact fun row hrow => List.eq_of_mem_replicate hrow ▸ countedRow_prints

private theorem measuringHost_computes {shards : List Shard} {hosts : List String} :
    measuringHost.Computes .sample (blobTable countedTexts ownContent) measured shards hosts where
  map s _ hostId _ p hmap := by
    simp only [measuringHost] at hmap
    split at hmap
    · rename_i hcid
      cases hmap
      rw [hcid, blobTable_lines (.inl rfl)]
      rfl
    · split at hmap
      · rename_i hcid
        cases hmap
        rw [hcid, blobTable_lines (.inr rfl)]
        rfl
      · cases hmap
  project _ _ _ _ _ hproject := by
    cases hproject

private theorem lines_stores {d : Dataset} (hd : d.shards = [linesShard 1, linesShard 1] ∨
    d.shards = [linesShard 2]) : d.Stores countedTexts ownContent [countedRow, countedRow] where
  table := by
    obtain hd | hd := hd
    · rw [hd]
      change (blobTable countedTexts ownContent (lines 1) ++
        (blobTable countedTexts ownContent (lines 1) ++ [])).Perm _
      rw [blobTable_lines (.inl rfl)]
      rfl
    · rw [hd]
      change (blobTable countedTexts ownContent (lines 2) ++ []).Perm _
      rw [blobTable_lines (.inr rfl)]
      rfl
  stats s hs st hst := by
    have hlines : s = linesShard 1 ∨ s = linesShard 2 := by
      obtain hd | hd := hd <;> rw [hd] at hs <;> simp at hs <;> simp [hs]
    obtain rfl | rfl := hlines
    · change st = computeStats (blobTable countedTexts ownContent (lines 1))
      rw [blobTable_lines (.inl rfl)]
      exact (Option.some.inj hst).symm
    · change st = computeStats (blobTable countedTexts ownContent (lines 2))
      rw [blobTable_lines (.inr rfl)]
      exact (Option.some.inj hst).symm

private def linesDataset (shards : List Shard) : Dataset where
  name := "a"
  schema := []
  shards := shards

private theorem smallWhole_two : SmallWhole (meanCells "v" [countedRow, countedRow]) where
  whole := by
    intro num hnum
    have hcells : meanCells "v" [countedRow, countedRow] =
        [.float (intToF64 1), .float (intToF64 1)] := rfl
    rw [hcells] at hnum
    have heq : num = .float (intToF64 1) := by simpa using hnum
    rw [heq]
    exact isInteger_intToF64 (by decide)
  small := by decide

private theorem smallWhole_measured (key : List String) :
    SmallWhole (meanCells "v" (measured.members .sample key [countedRow, countedRow])) :=
  smallWhole_two.sublist ((List.filter_sublist.filterMap _).map _)

private theorem measured_definite :
    measured.Definite Externals.sample.toSerdeJson [countedRow, countedRow] := by
  have hexact : ExactSum "v" [countedRow, countedRow] := by decide
  intro agg hagg key
  obtain rfl | rfl : agg = .sum "v" ∨ agg = .avg "v" := by simpa [measured] using hagg
  · exact .inl (hexact.sublist List.filter_sublist)
  · exact smallWhole_measured key

/-- Two rows in two shards and in one shard. -/
theorem runs_agree_two_rows : ∃ report report',
    run .sample measuringHost onceConfig measured (fun _ _ => 0) [linesShard 1, linesShard 1]
        ["host0"] [0, 0] = some (.ok report) ∧
      run .sample measuringHost onceConfig measured (fun _ _ => 0) [linesShard 2] ["host0"] [0] =
        some (.ok report') ∧
      report.results = report'.results := by
  obtain ⟨report, hrun⟩ : ∃ report, run .sample measuringHost onceConfig measured (fun _ _ => 0)
      (linesDataset [linesShard 1, linesShard 1]).shards ["host0"] [0, 0] = some (.ok report) :=
    ⟨_, rfl⟩
  obtain ⟨report', hrun'⟩ : ∃ report, run .sample measuringHost onceConfig measured (fun _ _ => 0)
      (linesDataset [linesShard 2]).shards ["host0"] [0] = some (.ok report) := ⟨_, rfl⟩
  exact ⟨report, report', hrun, hrun', runs_agree (lines_stores (.inl rfl))
    (lines_stores (.inr rfl)) (.refl _) measuringHost_computes measuringHost_computes
    (fun _ _ => id) measured_definite hrun hrun'⟩

section Run

variable {env : Externals} {host : MapHost} {config : RunConfig} {json : JsonText}
  {content : String → ByteArray} {q : Query} {d : Dataset} {rows : List Row} {hosts : List String}
  {clock : Nat → Nat → Nat} {order : List Nat}

/-- Where the cells of a group are whole numbers with less than 53 bits together, its sum
in every run is exact and its mean is one division, whatever the shards, the hosts and
the order in which they answer. -/
theorem run_whole_numbers (hd : d.Stores json content rows)
    (hhost : host.Computes env.toSerdeJson (blobTable json content) q (liveShards q d.shards) hosts)
    (htext : ∀ row ∈ rows, ¬ComparesText row q.predicate) {report : RunReport}
    (hrun : run env host config q clock d.shards hosts order = some (.ok report)) :
    (∀ f, .sum f ∈ q.aggregates → ∀ row ∈ report.results,
      SmallWhole (summands f (q.members env.toSerdeJson row.key rows)) →
      ∃ v, row.values["sum_" ++ f]? = some v ∧
        SumValue env.toSerdeJson (summands f (q.members env.toSerdeJson row.key rows)) v) ∧
    ∀ f, .avg f ∈ q.aggregates → ∀ row ∈ report.results,
      SmallWhole (meanCells f (q.members env.toSerdeJson row.key rows)) →
      row.values["avg_" ++ f]? =
        some (meanValue (meanCells f (q.members env.toSerdeJson row.key rows))) := by
  obtain ⟨tree, groups, hdist, hgroups, hresults⟩ := run_finalizes hd hhost htext hrun
  rw [hresults]
  constructor
  · intro f hf row hrow hsmall
    exact Query.sum_whole hdist hf hgroups (mem_of_mem_shape hrow) hsmall
  · intro f hf row hrow hsmall
    exact Query.mean_whole hdist hf hgroups (mem_of_mem_shape hrow) hsmall

end Run

/-- The mean of one and one is two divided by two. -/
theorem run_whole_numbers_two_rows : ∃ report,
    run .sample measuringHost onceConfig measured (fun _ _ => 0) [linesShard 1, linesShard 1]
        ["host0"] [0, 0] = some (.ok report) ∧
      ∀ row ∈ report.results, row.values["avg_v"]? = some (meanValue (meanCells "v"
        (measured.members .sample row.key [countedRow, countedRow]))) := by
  obtain ⟨report, hrun⟩ : ∃ report, run .sample measuringHost onceConfig measured (fun _ _ => 0)
      (linesDataset [linesShard 1, linesShard 1]).shards ["host0"] [0, 0] = some (.ok report) :=
    ⟨_, rfl⟩
  have hmeans := (run_whole_numbers (lines_stores (.inl rfl)) measuringHost_computes
    (fun _ _ => id) hrun).2 "v" (by decide)
  exact ⟨report, hrun, fun row hrow => hmeans row hrow (smallWhole_measured row.key)⟩

/-! ## The command -/

section Command

variable {Cap : Type} {iam : IamCore Cap} {env : Externals} {json : JsonText} {node : Node}
  {file : FileRead} {sql : String} {opts : RunOpts} {clock : Nat → Nat → Nat} {order : List Nat}
  {q : Query} {c : Catalog}

/-- The hosts that the node knows: its peers, or those that serve. -/
def Node.known (node : Node) (serviceOnly : Bool) : List String :=
  if serviceOnly then node.services.toOption.getD [] else node.atlas.toOption.getD []

/-- The hosts that a command runs on. -/
def Node.candidates (node : Node) (serviceOnly : Bool) : List String :=
  ranked compare (node.known serviceOnly).dedup

theorem Node.mem_candidates {serviceOnly : Bool} {hostId : String} :
    hostId ∈ node.candidates serviceOnly ↔ hostId ∈ node.known serviceOnly := by
  rw [Node.candidates, (ranked_perm compare _).mem_iff, List.mem_dedup]

theorem discoverHosts_getD (node : Node) (serviceOnly : Bool) :
    (discoverHosts node serviceOnly).toOption.getD [] =
      node.candidates serviceOnly := by
  have hordered : ∀ hosts : List String, dedup (ranked compare hosts) =
      ranked compare hosts.dedup := fun _ => destutter_ranked
  rw [discoverHosts, Node.candidates, Node.known]
  cases serviceOnly with
  | true => exact hordered _
  | false =>
      cases node.atlas with
      | ok hosts => exact hordered hosts
      | error e => rfl

/-- A query that is run is one of a dataset of the catalog, on the candidate hosts. -/
theorem runInputs_eq_ok (hparse : Sql.parse sql = .ok q) (hload : Catalog.load json file = .ok c)
    {q' : Query} {d : Dataset} {hosts : List String}
    (h : runInputs node file json sql opts = .ok (q', d, hosts)) :
    q' = q ∧ c.datasets[q.dataset]? = some d ∧ hosts = node.candidates opts.distributed := by
  rw [runInputs, hparse, hload, discoverHosts_getD] at h
  cases hget : c.datasets[q.dataset]? with
  | none =>
      have hrequire : c.require q.dataset = .error ("no such dataset `" ++ q.dataset ++ "`") := by
        rw [Catalog.require, Catalog.get, hget]
      simp only [Except.mapError, bind, Except.bind, hrequire] at h
      cases h
  | some ds =>
      have hrequire : c.require q.dataset = .ok ds := by
        rw [Catalog.require, Catalog.get, hget]
      simp only [Except.mapError, bind, Except.bind, hrequire] at h
      split at h
      · cases h
      · cases h
        exact ⟨rfl, rfl, rfl⟩

theorem Catalog.Holds.stores {content : String → ByteArray} {tables : Tables}
    (h : c.Holds json content tables) {name : String} {d : Dataset} {rows : List Row}
    (hget : c.datasets[name]? = some d) (htable : tables[name]? = some rows) :
    d.Stores json content rows := by
  have hdataset := h name
  rw [hget, htable] at hdataset
  cases hdataset with
  | some hd => exact hd

/-- What is printed comes from a run over the shards of a dataset that stores the table
under the query's name. -/
theorem runCmd_printed {content : String → ByteArray} {tables : Tables}
    (hparse : Sql.parse sql = .ok q) (hload : Catalog.load json file = .ok c)
    (hholds : c.Holds json content tables) {out : List Value} {diagnostics : String}
    (hrun : runCmd env json node file sql opts clock order = some (.printed out diagnostics)) :
    ∃ d rows hosts, c.datasets[q.dataset]? = some d ∧ tables[q.dataset]? = some rows ∧
      d.Stores json content rows ∧ hosts = node.candidates opts.distributed ∧
      (q.isProjection = true → ∃ report, runProjection env
        (opts.mapHost env.toSerdeJson json node) opts.config q clock d.shards hosts order =
          some (.ok report) ∧ out = report.rows.map rowObject) ∧
      (q.isProjection = false → ∃ report, run env (opts.mapHost env.toSerdeJson json node)
        opts.config q clock d.shards hosts order = some (.ok report) ∧
          out = report.results.map (groupObject q.groupBy)) := by
  rw [runCmd] at hrun
  cases hinputs : runInputs node file json sql opts with
  | error e =>
      rw [hinputs] at hrun
      cases hrun
  | ok inputs =>
      obtain ⟨q', d, hosts⟩ := inputs
      obtain ⟨rfl, hget, hhosts⟩ := runInputs_eq_ok hparse hload hinputs
      have hdataset := hholds q'.dataset
      rw [hget] at hdataset
      cases htable : tables[q'.dataset]? with
      | none =>
          rw [htable] at hdataset
          cases hdataset
      | some rows =>
          rw [htable] at hdataset
          cases hdataset with
          | some hd =>
              refine ⟨d, rows, hosts, hget, rfl, hd, hhosts, ?_, ?_⟩
              · intro hprojection
                simp only [hinputs, hprojection, if_true] at hrun
                obtain ⟨r, hr, hprinted⟩ := Option.map_eq_some_iff.mp hrun
                cases r with
                | ok report =>
                    cases hprinted
                    exact ⟨report, hr, rfl⟩
                | error e => cases hprinted
                | panic => cases hprinted
              · intro haggregate
                simp only [hinputs, haggregate, Bool.false_eq_true, if_false] at hrun
                obtain ⟨r, hr, hprinted⟩ := Option.map_eq_some_iff.mp hrun
                cases r with
                | ok report =>
                    cases hprinted
                    exact ⟨report, hr, rfl⟩
                | error e => cases hprinted
                | panic => cases hprinted

/-- If the query is run over the mesh, the hosts that the node knows reply as agents for
each shard of the dataset that is read, and the map outputs of these shards can be
written. -/
structure RunOpts.Served (opts : RunOpts) (node : Node) (serde : SerdeJson) (json : JsonText)
    (iam : IamCore Cap) (setup : String → Agent.Setup) (content : String → ByteArray) (q : Query)
    (d : Dataset) : Prop where
  agents : opts.distributed = true → ∀ s ∈ liveShards q d.shards, ∀ hostId ∈ node.known true,
    (opts.meshHost node).RepliesAs serde json iam (setup hostId) content q s hostId
  portable : opts.distributed = true → q.isProjection = false → ∀ s ∈ liveShards q d.shards,
    q.Portable serde (blobTable json content s.cid)

/-- The process itself computes from the blobs, and so do the agents of the mesh. -/
theorem mapHost_computes {content : String → ByteArray} {setup : String → Agent.Setup}
    {d : Dataset} (hblobs : node.blobs.Holds content)
    (hserved : opts.Served node env.toSerdeJson json iam setup content q d) :
    (opts.mapHost env.toSerdeJson json node).Computes env.toSerdeJson (blobTable json content) q
      (liveShards q d.shards) (node.candidates opts.distributed) := by
  rw [RunOpts.mapHost]
  split
  · rename_i hmode
    have hagents : ∀ s ∈ liveShards q d.shards, ∀ hostId ∈ node.candidates opts.distributed,
        (opts.meshHost node).RepliesAs env.toSerdeJson json iam (setup hostId) content q s
          hostId := by
      intro s hs hostId hmem
      rw [hmode, Node.mem_candidates] at hmem
      exact hserved.agents hmode s hs hostId hmem
    exact mesh_computes hagents (hserved.portable hmode)
  · exact localMapHost_computes hblobs _ _

/-- A query that is run by a host that computes from the blobs is answered from the table
under the name of its dataset. -/
theorem runCmd_answeredAs {content : String → ByteArray} {tables : Tables}
    (hparse : Sql.parse sql = .ok q) (hload : Catalog.load json file = .ok c)
    (hholds : c.Holds json content tables)
    (hhost : ∀ d, c.datasets[q.dataset]? = some d →
      (opts.mapHost env.toSerdeJson json node).Computes env.toSerdeJson (blobTable json content) q
        (liveShards q d.shards) (node.candidates opts.distributed))
    (hexact : ∀ rows, tables[q.dataset]? = some rows → q.ExactSums rows)
    (htext : ∀ rows, tables[q.dataset]? = some rows → ∀ row ∈ rows, ¬ComparesText row q.predicate)
    {out : List Value} {diagnostics : String}
    (hrun : runCmd env json node file sql opts clock order = some (.printed out diagnostics)) :
    ∃ rows, tables[q.dataset]? = some rows ∧ q.AnsweredAs env.toSerdeJson rows out := by
  obtain ⟨d, rows, hosts, hget, htable, hd, rfl, hprojection, haggregate⟩ :=
    runCmd_printed hparse hload hholds hrun
  have hcomputes := hhost d hget
  refine ⟨rows, htable, fun hmode => ?_, fun hmode => ?_⟩
  · obtain ⟨report, hr, rfl⟩ := hprojection hmode
    refine ⟨report.rows, ?_, rfl⟩
    refine runProjection_projectedAs hd ?_ (htext rows htable) (by decide : (1000000 : Nat) ≠ 0) hr
    intro s hs hostId projected hanswer hproject
    exact hcomputes.project s hs hostId (firstAnswer_mem hanswer) projected hproject
  · obtain ⟨report, hr, rfl⟩ := haggregate hmode
    exact ⟨report.results,
      run_aggregatedAs hd hcomputes (hexact rows htable) (htext rows htable) hr, rfl⟩

/-- Whatever a query prints, over the mesh or in the process, is the answer of the table
under the name of its dataset. -/
theorem runCmd_answers (iam : IamCore Cap) (setup : String → Agent.Setup)
    {content : String → ByteArray} {tables : Tables}
    (hparse : Sql.parse sql = .ok q) (hload : Catalog.load json file = .ok c)
    (hholds : c.Holds json content tables) (hblobs : node.blobs.Holds content)
    (hserved : ∀ d, c.datasets[q.dataset]? = some d →
      opts.Served node env.toSerdeJson json iam setup content q d)
    (hexact : ∀ rows, tables[q.dataset]? = some rows → q.ExactSums rows)
    (htext : ∀ rows, tables[q.dataset]? = some rows → ∀ row ∈ rows, ¬ComparesText row q.predicate)
    {out : List Value} {diagnostics : String}
    (hrun : runCmd env json node file sql opts clock order = some (.printed out diagnostics)) :
    ∃ rows, tables[q.dataset]? = some rows ∧
      (q.isProjection = true →
        ∃ results, q.ProjectedAs rows 1000000 results ∧ out = results.map rowObject) ∧
      (q.isProjection = false →
        ∃ results, q.AggregatedAs env.toSerdeJson rows results ∧
          out = results.map (groupObject q.groupBy)) := by
  obtain ⟨rows, htable, hprojection, haggregate⟩ := runCmd_answeredAs hparse hload hholds
    (fun d hget => mapHost_computes hblobs (hserved d hget)) hexact htext hrun
  exact ⟨rows, htable, hprojection, haggregate⟩

end Command

/-! ## A count of one row -/

def oneCount : Query where
  dataset := "a"
  aggregates := [.count]
  predicate := .true
  groupBy := []
  orderBy := []
  limit := none
  projection := none

def oneCountText : String := "SELECT COUNT ( * ) FROM a"

theorem parse_oneCount : Sql.parse oneCountText = .ok oneCount := by
  have hvalid : oneCount.validate = .ok () := rfl
  have hnamed : Sql.Named oneCount :=
    { dataset := (by decide : Sql.IsName "a")
      aggregates := fun _ h => .inl (List.mem_singleton.mp h)
      predicate := trivial
      groupBy := nofun
      orderBy := nofun
      projection := nofun }
  have htoks : Sql.QueryToks oneCount
      (.word "SELECT" :: ([.word "COUNT", .word "(", .word "*", .word ")"] ++
        .word "FROM" :: .word "a" :: ([] ++ ([] ++ ([] ++ []))))) := by
    refine .query (by decide) ?_ (by decide) .absent .absent .absent .absent
    exact .aggregates rfl (.last (.call (by decide)))
  have htexts : oneCountText.toList = [' '].intercalate
      (["SELECT", "COUNT", "(", "*", ")", "FROM", "a"].map String.toList) := by decide
  refine Sql.parse_toks hvalid hnamed htoks ?_
  rw [htexts]
  apply Sql.spaced_intercalate
  repeat' constructor

/-- A node that knows one peer and has every blob. -/
def oneHost : Node where
  atlas := .ok ["host0"]
  services := .ok []
  blobs cid := .ok (ownContent cid)
  mesh :=
    { request := fun _ _ _ _ => .error ""
      complaint := fun _ => "" }

def plainOpts : RunOpts where
  distributed := false
  grant := none
  maxAttempts := 4
  concurrency := 16
  redundancy := 1
  quorum := 0
  deadlineMs := U64.zero
  maxScanBytes := U64.zero
  maxScanRows := U64.zero

theorem blobTable_counted :
    blobTable countedTexts ownContent (lineText ++ "\n") = [countedRow] := by
  rw [blobTable, ownContent, decodeShard_counted]
  rfl

/-- What the catalog of the one dataset stands for. -/
theorem counted_holds :
    counted.Holds countedTexts ownContent (Change.apply ∅ (.put "a" [countedRow])) :=
  counted_update.holds (fun _ => .none) rfl

theorem counted_rows : (Change.apply ∅ (.put "a" [countedRow]))["a"]? = some [countedRow] :=
  Std.ExtTreeMap.getElem?_insert_self

theorem counted_get : counted.datasets["a"]? = some countedDataset :=
  Std.ExtTreeMap.getElem?_insert_self

theorem oneCount_exactSums (rows : List Row) : oneCount.ExactSums rows := by
  intro f hf
  cases List.mem_singleton.mp hf

/-! ## Two shards on a mesh -/

/-- Two shards with two rows each. The first host of one of them is `host0`, that of the
other one `host2`. -/
def salesShards : List Shard :=
  ["s0", "s1"].map fun cid => { cid, rows := U64.wrap 2, bytes := U64.wrap 16, stats := none }

def salesDataset : Dataset where
  name := "a"
  schema := []
  shards := salesShards

def salesCatalog : Catalog :=
  Catalog.new.put salesDataset

def saleCount : Partial where
  aggregates := [.count]
  groups := Std.ExtTreeMap.insert ∅ [] [.count (U64.wrap 2)]

/-- Texts of the rows, of the replies with them and with their number, and of the catalog. -/
def salesTexts : JsonText where
  print
    | .object [(_, .array _)] => "rows"
    | _ => "count"
  printPretty _ := "catalog"
  parse text :=
    if text = "\x7b\"v\":1\x7d" then some (.object [("v", .int 1)])
    else if text = "\x7b\"v\":2\x7d" then some (.object [("v", .int 2)])
    else if text = "rows" then some (replyCodec.encode (.rows Agent.saleRows))
    else if text = "count" then some (replyCodec.encode (.ok saleCount))
    else some (catalogCodec.encode salesCatalog)

def salesFile : FileRead :=
  .bytes "catalog".toUTF8

def salesContent : String → ByteArray :=
  fun _ => Agent.salesBlob

/-- A node of a mesh with two hosts that give this reply and one that is down. -/
def salesNode (reply : MapReply) : Node where
  atlas := .error ""
  services := .ok ["host0", "host1", "host2"]
  blobs cid := .ok (salesContent cid)
  mesh :=
    { request := fun hostId _ _ _ =>
        if hostId = "host2" then .error "" else .ok (replyBytes salesTexts reply)
      complaint := fun _ => "" }

def salesOpts : RunOpts :=
  { plainOpts with distributed := true }

theorem load_sales : Catalog.load salesTexts salesFile = .ok salesCatalog := by
  rw [salesFile, load_toUTF8]
  rfl

theorem salesCatalog_get : salesCatalog.datasets["a"]? = some salesDataset :=
  Std.ExtTreeMap.getElem?_insert_self

theorem decodeShard_sales : decodeShard salesTexts Agent.salesBlob = .ok Agent.saleRows := by
  rw [Agent.salesBlob, decodeShard_toUTF8]
  rfl

theorem blobTable_sales (cid : String) :
    blobTable salesTexts salesContent cid = Agent.saleRows := by
  rw [blobTable, salesContent, decodeShard_sales]
  rfl

theorem sales_mapped : oneCount.mapShard .sample Agent.saleRows = saleCount := by
  rfl

def salesTables : Tables :=
  Std.ExtTreeMap.insert ∅ "a" (Agent.saleRows ++ Agent.saleRows)

theorem salesTables_get : salesTables["a"]? = some (Agent.saleRows ++ Agent.saleRows) :=
  Std.ExtTreeMap.getElem?_insert_self

theorem sales_holds : salesCatalog.Holds salesTexts salesContent salesTables := by
  have hnone : Catalog.new.Holds salesTexts salesContent ∅ := fun _ => .none
  refine hnone.put (d := salesDataset) ⟨?_, ?_⟩
  · change (blobTable salesTexts salesContent "s0" ++ (blobTable salesTexts salesContent "s1" ++
      [])).Perm _
    rw [blobTable_sales, blobTable_sales, List.append_nil]
  · intro s hs
    obtain rfl | rfl : s = salesShards[0] ∨ s = salesShards[1] := by
      simpa [salesDataset, salesShards] using hs
    · exact fun _ => nofun
    · exact fun _ => nofun

/-- A host that is not down says what its reply is read as. -/
theorem salesNode_send {reply reply' : MapReply} {hostId : String} (s : Shard) (q : Query)
    (hup : hostId ≠ "host2") (hsize : ¬(replyBytes salesTexts reply).size > maxMapPayloadBytes)
    (hread : (salesTexts.parse (salesTexts.print (replyCodec.encode reply))).bind
      replyCodec.decode = some reply') :
    (salesOpts.meshHost (salesNode reply)).send salesTexts hostId s q = .ok reply' := by
  have hsmall : ¬"count".toUTF8.size > maxMapPayloadBytes := by decide
  exact mesh_send_reply hsmall (if_neg hup) hsize hread

/-- What the mesh amounts to that counts the rows. -/
def salesHost : MapHost where
  map hostId _ _ :=
    if hostId = "host2" then .error (classifyRequestError "") else .ok saleCount
  project := ((salesOpts.meshHost (salesNode (.ok saleCount))).mapHost salesTexts).project

theorem mapHost_sales : salesOpts.mapHost Externals.sample.toSerdeJson salesTexts
    (salesNode (.ok saleCount)) = salesHost := by
  have hmap : (salesOpts.mapHost .sample salesTexts (salesNode (.ok saleCount))).map =
      salesHost.map := by
    funext hostId s q
    change ((salesOpts.meshHost (salesNode (.ok saleCount))).send salesTexts hostId s q).bind
      MeshMapHost.replyPartial = salesHost.map hostId s q
    rw [salesHost]
    dsimp only
    split
    · rename_i hdown
      rw [hdown]
      rfl
    · rename_i hup
      have hsend : (salesOpts.meshHost (salesNode (.ok saleCount))).send salesTexts hostId s q =
          .ok (.ok saleCount) := salesNode_send s q hup (by decide) rfl
      rw [hsend]
      rfl
  exact congrArg (fun m => MapHost.mk m salesHost.project) hmap

/-- The hosts that are up are agents. -/
theorem salesNode_repliesAs {s : Shard} {hostId : String} :
    (salesOpts.meshHost (salesNode (.ok saleCount))).RepliesAs .sample salesTexts noIam openSetup
      salesContent oneCount s hostId := by
  intro bytes hbytes
  change (if hostId = "host2" then Except.error ""
    else .ok (replyBytes salesTexts (.ok saleCount))) = .ok bytes at hbytes
  split at hbytes
  · cases hbytes
  · have hsize : Agent.salesBlob.size ≤ maxMapPayloadBytes := by decide
    have hvalid : oneCount.validate = .ok () := rfl
    have hanswer : Agent.answer .sample salesTexts noIam openSetup none [] U64.one
        (fun cid => .ok (salesContent cid))
        { query := oneCount, shard := s, grant := salesOpts.grant } = .ok saleCount := by
      rw [← sales_mapped]
      exact serveMap_eq rfl hvalid rfl hsize decodeShard_sales nofun
    refine ⟨.ok saleCount, .inr ⟨none, [], U64.one, fun cid => .ok (salesContent cid), ?_, ?_⟩,
      (Except.ok.inj hbytes).symm, ?_⟩
    · exact fun _ _ hblob => (Except.ok.inj hblob).symm
    · exact hanswer.symm
    · exact JsonText.carries_of_depth (Nat.le_trans (reply_ok_depth _) (by decide)) rfl

theorem sales_portable (cid : String) :
    oneCount.Portable .sample (blobTable salesTexts salesContent cid) := by
  rw [← mapShard_keeps_iff, blobTable_sales, sales_mapped]
  rfl

theorem sales_served : salesOpts.Served (salesNode (.ok saleCount)) .sample salesTexts noIam
    (fun _ => openSetup) salesContent oneCount salesDataset where
  agents _ _ _ _ _ := salesNode_repliesAs
  portable _ _ s _ := sales_portable s.cid

theorem salesNode_holds (reply : MapReply) : (salesNode reply).blobs.Holds salesContent :=
  fun _ _ hblob => (Except.ok.inj hblob).symm

/-- Two shards are counted over the mesh, one of them not by its first host. -/
theorem runCmd_answers_two_shards : ∃ out diagnostics,
    runCmd .sample salesTexts (salesNode (.ok saleCount)) salesFile oneCountText salesOpts
        (fun _ _ => 0) [1, 0] = some (.printed out diagnostics) ∧
      ∃ results, oneCount.AggregatedAs .sample (Agent.saleRows ++ Agent.saleRows) results ∧
        out = results.map (groupObject []) := by
  obtain ⟨report, hreport⟩ : ∃ report, run .sample salesHost salesOpts.config oneCount
      (fun _ _ => 0) salesDataset.shards ["host0", "host1", "host2"] [1, 0] = some (.ok report) :=
    ⟨_, rfl⟩
  have hinputs : runInputs (salesNode (.ok saleCount)) salesFile salesTexts oneCountText salesOpts =
      .ok (oneCount, salesDataset, ["host0", "host1", "host2"]) := by
    rw [runInputs, parse_oneCount, load_sales]
    rfl
  have hprinted : runCmd .sample salesTexts (salesNode (.ok saleCount)) salesFile oneCountText
      salesOpts (fun _ _ => 0) [1, 0] = some (printGroups oneCount salesDataset (.ok report)) := by
    rw [runCmd, hinputs]
    simp only [mapHost_sales, hreport]
    rfl
  have hserved : ∀ d, salesCatalog.datasets[oneCount.dataset]? = some d → salesOpts.Served
      (salesNode (.ok saleCount)) Externals.sample.toSerdeJson salesTexts noIam
        (fun _ => openSetup) salesContent oneCount d := by
    intro d hget
    cases salesCatalog_get.symm.trans hget
    exact sales_served
  obtain ⟨rows, htable, _, hanswer⟩ := runCmd_answers noIam (fun _ => openSetup) parse_oneCount
    load_sales sales_holds (salesNode_holds _) hserved (fun rows _ => oneCount_exactSums rows)
    (fun _ _ _ _ => id) hprinted
  cases salesTables_get.symm.trans htable
  exact ⟨_, _, hprinted, hanswer rfl⟩

end CeQuery
