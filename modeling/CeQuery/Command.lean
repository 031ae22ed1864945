import CeQuery.Engine.Projection
import CeQuery.Mesh.Host
import CeQuery.Catalog.Basic
import CeQuery.Sql.Parser
import CeQuery.Foundation.Ranking
import Mathlib.Data.List.Destutter

/-!
# The commands

A query comes as a text. It is parsed, its dataset is looked up in the catalog file, the
candidate hosts are asked of the node, and the run's rows or groups are printed as an
array of JSON objects. A plan is made of the same dataset for hosts that are made up, and
says how many shards each of them is tried for first.
-/

namespace CeQuery

/-- What a command uses of the node. -/
structure Node where
  /-- The peers that the node knows. -/
  atlas : Except String (List String)
  /-- Those that say they serve map requests. -/
  services : Except String (List String)
  blobs : BlobStore
  mesh : MeshClient

/-- Remove an element that equals the one before it. -/
def dedup (xs : List String) : List String :=
  xs.destutter (· ≠ ·)

/-- The candidate hosts, sorted and each of them once. -/
def discoverHosts (node : Node) (serviceOnly : Bool) : Except String (List String) := do
  let hosts ←
    if serviceOnly then .ok (node.services.toOption.getD [])
    else node.atlas.mapError fun _ => "reading atlas"
  .ok (dedup (ranked compare hosts))

def Catalog.require (c : Catalog) (name : String) : Except String Dataset :=
  match c.get name with
  | some d => .ok d
  | none => .error ("no such dataset `" ++ name ++ "`")

/-- The ceilings that hold if nothing else is asked for. -/
def CostLimits.standard : CostLimits where
  maxScanBytes := ⟨16 * 1024 * 1024 * 1024, by decide, by decide⟩
  maxScanRows := ⟨1000000000, by decide, by decide⟩
  maxShards := 4096
  maxResultGroups := 1000000

/-- The options of a run. -/
structure RunOpts where
  distributed : Bool
  grant : Option String
  maxAttempts : Nat
  concurrency : Nat
  redundancy : Nat
  quorum : Nat
  deadlineMs : U64
  maxScanBytes : U64
  maxScanRows : U64

namespace RunOpts

def limits (opts : RunOpts) : CostLimits :=
  { CostLimits.standard with
    maxScanBytes :=
      if opts.maxScanBytes.val ≠ 0 then opts.maxScanBytes else CostLimits.standard.maxScanBytes
    maxScanRows :=
      if opts.maxScanRows.val ≠ 0 then opts.maxScanRows else CostLimits.standard.maxScanRows }

def config (opts : RunOpts) : RunConfig where
  maxAttemptsPerShard := opts.maxAttempts
  maxInFlight := opts.concurrency
  redundancy := opts.redundancy
  quorum := opts.quorum
  deadline :=
    if opts.deadlineMs.val = 0 then none else some (opts.deadlineMs.val.toNat * 1000000)
  limits := opts.limits

/-- The mesh, asked with the grant of the run. -/
def meshHost (opts : RunOpts) (node : Node) : MeshMapHost where
  client := node.mesh
  grant := opts.grant
  timeoutMs := ⟨30000, by decide, by decide⟩

/-- The host of the run: the mesh, or the process itself. -/
def mapHost (opts : RunOpts) (serde : SerdeJson) (json : JsonText) (node : Node) : MapHost :=
  if opts.distributed then (opts.meshHost node).mapHost json
  else localMapHost serde json node.blobs

end RunOpts

/-- Why a command fails. -/
inductive CommandError where
  | sql (e : Sql.SqlError)
  | catalog (e : LoadError)
  | noDataset (reason : String)
  | noHosts (reason : String)
  | run (e : RunError)

/-- How a command ends: with a JSON array and a line of diagnostics, or without. -/
inductive CommandExit where
  | printed (out : List Value) (diagnostics : String)
  | failed (e : CommandError)
  | panic

/-! ## Running a query -/

/-- The object of a projected row. -/
def rowObject (row : Row) : Value :=
  .object row.toList

/-- The members of the object of a group: its key columns, then its values, which replace
a key column of their name. -/
def groupMembers (groupBy : List String) (g : GroupResult) : BTreeMap String Value :=
  g.values.foldl (fun members name v => members.insert name v)
    (groupBy.zipIdx.foldl (fun members column =>
      members.insert column.1 (.string (g.key[column.2]?.getD ""))) ∅)

/-- The object of a group. -/
def groupObject (groupBy : List String) (g : GroupResult) : Value :=
  .object (groupMembers groupBy g).toList

/-- The query, its dataset and the candidate hosts. -/
def runInputs (node : Node) (file : FileRead) (json : JsonText) (sql : String) (opts : RunOpts) :
    Except CommandError (Query × Dataset × List String) := do
  let query ← (Sql.parse sql).mapError .sql
  let catalog ← (Catalog.load json file).mapError .catalog
  let ds ← (catalog.require query.dataset).mapError .noDataset
  let hosts := (discoverHosts node opts.distributed).toOption.getD []
  if hosts.isEmpty then
    let service := if opts.distributed then " for the ce-query service" else ""
    .error (.noHosts ("no candidate hosts found (atlas empty" ++ service ++
      "). Is the node running and mining?"))
  else .ok (query, ds, hosts)

/-- How the command ends when its projection run does. -/
def printProjection (ds : Dataset) : Exit ProjectionReport → CommandExit
  | .ok report =>
      let truncated := if report.truncated then ", truncated" else ""
      .printed (report.rows.map rowObject)
        (s!"[{ds.shards.length} shard(s), {report.totalAttempts} attempt(s), " ++
          s!"{report.rows.length} row(s){truncated}]")
  | .error e => .failed (.run e)
  | .panic => .panic

/-- How the command ends when its aggregate run does. -/
def printGroups (query : Query) (ds : Dataset) : Exit RunReport → CommandExit
  | .ok report =>
      .printed (report.results.map (groupObject query.groupBy))
        (s!"[{ds.shards.length} shard(s), {report.totalAttempts} attempt(s), " ++
          s!"{report.redistributed} redistributed, {report.verified} verified]")
  | .error e => .failed (.run e)
  | .panic => .panic

/-- Run a query, its tasks completing in the given order. -/
def runCmd (env : Externals) (json : JsonText) (node : Node) (file : FileRead) (sql : String)
    (opts : RunOpts) (clock : Nat → Nat → Nat) (order : List Nat) : Option CommandExit :=
  match runInputs node file json sql opts with
  | .error e => some (.failed e)
  | .ok (query, ds, hosts) =>
      let host := opts.mapHost env.toSerdeJson json node
      if query.isProjection then
        (runProjection env host opts.config query clock ds.shards hosts order).map
          (printProjection ds)
      else (run env host opts.config query clock ds.shards hosts order).map (printGroups query ds)

/-! ## Planning -/

/-- The number of shards that each host is tried for first. -/
def loadSummary (tasks : List ShardTask) : BTreeMap String Nat :=
  tasks.foldl (fun load task =>
    match task.rankedHosts.head? with
    | some h => load.upsert h 0 (· + 1)
    | none => load) ∅

/-- The hosts that a plan is shown for. -/
def sampleHosts : List String :=
  ["host00", "host01", "host02", "host03"]

/-- The lines that show the plan of a query's dataset. -/
def planCmd (score : String → String → U64) (json : JsonText) (file : FileRead) (sql : String) :
    Except CommandError (List String) := do
  let query ← (Sql.parse sql).mapError .sql
  let catalog ← (Catalog.load json file).mapError .catalog
  let ds ← (catalog.require query.dataset).mapError .noDataset
  let tasks := plan score ds.shards sampleHosts
  let header := s!"query plan for `{query.dataset}` ({ds.shards.length} shards over " ++
    s!"{sampleHosts.length} sample hosts):"
  let assigned := tasks.zipIdx.map fun (task, i) =>
    s!"  shard[{i}] {task.shard.cid} -> " ++ task.rankedHosts.head?.getD "<none>" ++
      " (fallbacks: " ++ ", ".intercalate (task.rankedHosts.drop 1) ++ ")"
  let load := (loadSummary tasks).toList.map fun entry =>
    s!"  {entry.1}: {entry.2} primary shard(s)"
  .ok (header :: assigned ++ load)

end CeQuery
