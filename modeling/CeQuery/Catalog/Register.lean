import CeQuery.Catalog.Basic

/-!
# Registering datasets

A dataset is registered from rows: they are spread over shards, every shard that
has rows is uploaded, and its descriptor records the counts and the statistics of
its rows. `CatalogOp` are the operations an owner performs on a catalog with
datasets that were made in this way.

A `SourceDataset` is a dataset together with the rows its statistics come from.
The sources of a catalog are traced through the operations by `sources`.
-/

namespace CeQuery

/-- Append a shard with statistics. -/
def Dataset.addShardWithStats (d : Dataset) (cid : String) (rows bytes : U64)
    (stats : ShardStats) : Dataset :=
  { d with shards := d.shards ++ [{ cid, rows, bytes, stats := some stats }] }

/-- Register a dataset from rows. `putObject` uploads a blob and returns its
content identifier. -/
def registerDataset (json : JsonText) (putObject : ByteArray → Except String String)
    (name : String) (schema : List String) (rows : List Row) (shardCount : Nat) :
    Except String Dataset := do
  let name ← validateDatasetName name
  let parts ← shardRows json rows shardCount
  parts.foldlM (fun ds (part : List Row × ByteArray) =>
    if part.1.isEmpty then .ok ds
    else do
      let cid ← (putObject part.2).mapError fun _ =>
        "uploading a shard of dataset `" ++ name ++ "`"
      .ok (ds.addShardWithStats cid (U64.wrap part.1.length) (U64.wrap part.2.size)
        (computeStats part.1))) { name, schema, shards := [] }

/-- A shard descriptor and the rows its statistics were computed from, if it has
statistics. -/
structure SourceShard where
  cid : String
  rows : U64
  bytes : U64
  source : Option (List Row)

def SourceShard.shard (s : SourceShard) : Shard where
  cid := s.cid
  rows := s.rows
  bytes := s.bytes
  stats := s.source.map computeStats

/-- A dataset whose statistics come from rows. -/
structure SourceDataset where
  name : String
  schema : List String
  shards : List SourceShard

def SourceDataset.dataset (d : SourceDataset) : Dataset where
  name := d.name
  schema := d.schema
  shards := d.shards.map SourceShard.shard

/-- The source of what `registerDataset` returns. -/
def registerSource (json : JsonText) (putObject : ByteArray → Except String String)
    (name : String) (schema : List String) (rows : List Row) (shardCount : Nat) :
    Except String SourceDataset := do
  let name ← validateDatasetName name
  let parts ← shardRows json rows shardCount
  parts.foldlM (fun ds (part : List Row × ByteArray) =>
    if part.1.isEmpty then .ok ds
    else do
      let cid ← (putObject part.2).mapError fun _ =>
        "uploading a shard of dataset `" ++ name ++ "`"
      .ok { ds with
        shards := ds.shards ++
          [{ cid
             rows := U64.wrap part.1.length
             bytes := U64.wrap part.2.size
             source := some part.1 }] }) { name, schema, shards := [] }

/-- An operation on a catalog. -/
inductive CatalogOp where
  /-- Register a dataset from rows and put it. -/
  | register (putObject : ByteArray → Except String String) (name : String)
      (schema : List String) (rows : List Row) (shardCount : Nat)
  /-- Put a dataset that was made before. -/
  | put (d : SourceDataset)
  | remove (name : String)

/-- Perform an operation; one that fails leaves the catalog as it is. -/
def CatalogOp.run (json : JsonText) (c : Catalog) : CatalogOp → Catalog
  | register putObject name schema rows shardCount =>
      match registerDataset json putObject name schema rows shardCount with
      | .ok d => c.put d
      | .error _ => c
  | put d => c.put d.dataset
  | remove name =>
      match c.remove name with
      | .ok (_, c) => c
      | .error _ => c

/-- The datasets that are in the catalog, with their rows. -/
def CatalogOp.trace (json : JsonText) (sources : BTreeMap String SourceDataset) :
    CatalogOp → BTreeMap String SourceDataset
  | register putObject name schema rows shardCount =>
      match registerSource json putObject name schema rows shardCount with
      | .ok d => sources.insert d.name d
      | .error _ => sources
  | put d => sources.insert d.name d
  | remove name => sources.erase name

/-- The catalog after a sequence of operations on the empty one. -/
def catalogAfter (json : JsonText) (ops : List CatalogOp) : Catalog :=
  ops.foldl (CatalogOp.run json) Catalog.new

/-- The sources of the datasets in that catalog. -/
def sourcesAfter (json : JsonText) (ops : List CatalogOp) : BTreeMap String SourceDataset :=
  ops.foldl (CatalogOp.trace json) ∅

section Sources

variable {json : JsonText}

/-- A loop whose step commutes with a map of its states does so as a whole. -/
private theorem foldlM_map {α : Type u} {σ σ' : Type v} {ρ : Type w} {f : σ → α → Except ρ σ}
    {f' : σ' → α → Except ρ σ'} {g : σ → σ'} (h : ∀ s a, f' (g s) a = (f s a).map g)
    (as : List α) (s : σ) : as.foldlM f' (g s) = (as.foldlM f s).map g := by
  induction as generalizing s with
  | nil => rfl
  | cons a as ih =>
      rw [List.foldlM_cons, List.foldlM_cons, h]
      cases f s a with
      | error e => rfl
      | ok s' => exact ih s'

theorem registerDataset_eq (putObject : ByteArray → Except String String) (name : String)
    (schema : List String) (rows : List Row) (shardCount : Nat) :
    registerDataset json putObject name schema rows shardCount =
      (registerSource json putObject name schema rows shardCount).map SourceDataset.dataset := by
  rw [registerDataset, registerSource]
  cases validateDatasetName name with
  | error e => rfl
  | ok name =>
      cases shardRows json rows shardCount with
      | error e => rfl
      | ok parts =>
          refine foldlM_map (g := SourceDataset.dataset) ?_ parts { name, schema, shards := [] }
          rintro ds ⟨rows, bytes⟩
          cases hempty : rows.isEmpty with
          | true => simp [Except.map]
          | false =>
              simp only
              cases putObject bytes with
              | error e => rfl
              | ok cid =>
                  simp [Except.mapError, Except.map, bind, Except.bind, SourceDataset.dataset,
                    Dataset.addShardWithStats, SourceShard.shard]

/-- The datasets of a catalog are those of its sources, under their names. -/
def Catalog.From (c : Catalog) (sources : BTreeMap String SourceDataset) : Prop :=
  ∀ name : String, c.datasets[name]? = (sources[name]?).map SourceDataset.dataset

theorem Catalog.From.put {c : Catalog} {sources : BTreeMap String SourceDataset}
    (h : c.From sources) (d : SourceDataset) :
    (c.put d.dataset).From (sources.insert d.name d) := by
  intro name
  show (c.datasets.insert d.name d.dataset)[name]? = _
  rw [Std.ExtTreeMap.getElem?_insert, Std.ExtTreeMap.getElem?_insert]
  split
  · rfl
  · exact h name

theorem CatalogOp.run_from (op : CatalogOp) {c : Catalog}
    {sources : BTreeMap String SourceDataset} (h : c.From sources) :
    (op.run json c).From (op.trace json sources) := by
  cases op with
  | register putObject name schema rows shardCount =>
      rw [run, trace, registerDataset_eq]
      cases registerSource json putObject name schema rows shardCount with
      | error e => exact h
      | ok d => exact h.put d
  | put d => exact h.put d
  | remove name =>
      intro name'
      have hname := h name
      rw [run, trace, Catalog.remove, Std.ExtTreeMap.getElem?_erase]
      cases hget : c.datasets[name]? with
      | none =>
          rw [hget] at hname
          simp only
          split
          · rename_i heq
            rw [← Std.LawfulEqOrd.eq_of_compare heq, hget]
            rfl
          · exact h name'
      | some d =>
          show (c.datasets.erase name)[name']? = _
          rw [Std.ExtTreeMap.getElem?_erase]
          split
          · rfl
          · exact h name'

theorem catalogAfter_from (ops : List CatalogOp) :
    (catalogAfter json ops).From (sourcesAfter json ops) := by
  have hrun : ∀ (ops : List CatalogOp) (c : Catalog) (sources : BTreeMap String SourceDataset),
      c.From sources →
        (ops.foldl (CatalogOp.run json) c).From (ops.foldl (CatalogOp.trace json) sources) := by
    intro ops
    induction ops with
    | nil => exact fun _ _ h => h
    | cons op ops ih => exact fun c sources h => ih _ _ (op.run_from h)
  apply hrun ops _ _
  intro name
  simp [Catalog.new]

end Sources

end CeQuery
