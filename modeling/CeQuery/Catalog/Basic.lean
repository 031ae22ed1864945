import CeQuery.Shards

/-!
# The dataset catalog

A catalog maps names to datasets and is kept in one JSON file. A missing file is
the empty catalog, a file that cannot be read is an error, and a file of a newer
schema version is refused.
-/

namespace CeQuery

/-- The current version of the persisted form. -/
def catalogSchemaVersion : U32 := ⟨1, Int.one_nonneg, by decide⟩

structure Catalog where
  version : U32
  datasets : BTreeMap String Dataset

/-! ## The persisted form -/

def statsCodec : Codec ShardStats :=
  .record (.cons "numeric" (some ∅) (Codec.float.pair .float).map .nil)
    (fun s => (s.numeric, ⟨⟩)) fun f => { numeric := f.1 }

def shardCodec : Codec Shard :=
  .record
    (.cons "cid" none .string <| .cons "rows" (some U64.zero) (.boundedInt ..) <|
      .cons "bytes" (some U64.zero) (.boundedInt ..) <|
      .cons "stats" (some none) statsCodec.option .nil)
    (fun s => (s.cid, s.rows, s.bytes, s.stats, ⟨⟩))
    fun f => { cid := f.1, rows := f.2.1, bytes := f.2.2.1, stats := f.2.2.2.1 }

def datasetCodec : Codec Dataset :=
  .record
    (.cons "name" none .string <| .cons "schema" (some []) Codec.string.list <|
      .cons "shards" (some []) shardCodec.list .nil)
    (fun d => (d.name, d.schema, d.shards, ⟨⟩))
    fun f => { name := f.1, schema := f.2.1, shards := f.2.2.1 }

def catalogCodec : Codec Catalog :=
  .record
    (.cons "version" (some ⟨0, U64.zero.lo_le, by decide⟩) (.boundedInt ..) <|
      .cons "datasets" (some ∅) datasetCodec.map .nil)
    (fun c => (c.version, c.datasets, ⟨⟩))
    fun f => { version := f.1, datasets := f.2.1 }

namespace Catalog

/-- An empty catalog. -/
def new : Catalog :=
  { version := catalogSchemaVersion, datasets := ∅ }

/-- Insert or replace a dataset. -/
def put (c : Catalog) (d : Dataset) : Catalog :=
  { c with datasets := c.datasets.insert d.name d }

def get (c : Catalog) (name : String) : Option Dataset :=
  c.datasets[name]?

/-- Remove a dataset by name; an error if it does not exist. -/
def remove (c : Catalog) (name : String) : Except String (Dataset × Catalog) :=
  match c.datasets[name]? with
  | some d => .ok (d, { c with datasets := c.datasets.erase name })
  | none => .error ("no such dataset `" ++ name ++ "`")

end Catalog

/-- What reading a file gives. -/
inductive FileRead where
  | bytes (contents : ByteArray)
  | notFound
  | failed

/-- Why a catalog cannot be loaded. -/
inductive LoadError where
  | reading
  | parsing
  /-- The file has a newer schema version. -/
  | newer (version : U32)
  deriving DecidableEq

namespace Catalog

/-- Migrate a loaded catalog to the current schema version. -/
def migrate (c : Catalog) : Except LoadError Catalog :=
  if c.version.val > catalogSchemaVersion.val then .error (.newer c.version)
  else .ok { c with version := catalogSchemaVersion }

/-- Load the catalog from what its file holds. -/
def load (json : JsonText) (file : FileRead) : Except LoadError Catalog :=
  match file with
  | .bytes contents =>
      match (json.parseBytes contents).bind catalogCodec.decode with
      | some c => c.migrate
      | none => .error .parsing
  | .notFound => .ok new
  | .failed => .error .reading

/-- The catalog as it is written: stamped with the current schema version. -/
def stamped (c : Catalog) : Catalog :=
  { c with version := catalogSchemaVersion }

/-- The bytes that saving the catalog writes. -/
def saved (json : JsonText) (c : Catalog) : ByteArray :=
  (json.printPretty (catalogCodec.encode c.stamped)).toUTF8

end Catalog

end CeQuery
