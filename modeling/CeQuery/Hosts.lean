import CeQuery.Answers
import CeQuery.Mesh.Fleet

/-!
# The hosts of a command

The candidate hosts of a command are those that its node knows, in order and each of them
once (`discoverHosts_getD`). So nothing depends on how the node lists them
(`runCmd_known_hosts`), and the copies of a shard's answer come from different hosts.
Then a few liars among them cannot make a command print what the table does not hold
(`runCmd_outvotes_liars`).
-/

namespace CeQuery

/-- The candidates do not depend on how often and in which order the hosts are listed. -/
theorem discoverHosts_congr {node node' : Node} {serviceOnly : Bool}
    (h : ∀ hostId, hostId ∈ node.known serviceOnly ↔ hostId ∈ node'.known serviceOnly) :
    (discoverHosts node serviceOnly).toOption.getD [] =
      (discoverHosts node' serviceOnly).toOption.getD [] := by
  rw [discoverHosts_getD, discoverHosts_getD, Node.candidates, Node.candidates]
  apply ranked_eq_of_perm
  rw [List.perm_ext_iff_of_nodup (List.nodup_dedup _) (List.nodup_dedup _)]
  intro hostId
  rw [List.mem_dedup, List.mem_dedup, h]

section Command

variable {Cap Token : Type} {iam : IamCore Cap} {env : Externals} {json : JsonText}
  {node node' : Node} {file : FileRead} {sql : String} {opts : RunOpts}
  {clock : Nat → Nat → Nat} {order : List Nat} {q : Query} {c : Catalog} {d : Dataset}

/-- A command ends alike on two nodes with the same blobs and the same mesh that know the
same hosts, however they list them. -/
theorem runCmd_known_hosts (hknown : ∀ hostId,
      hostId ∈ node.known opts.distributed ↔ hostId ∈ node'.known opts.distributed)
    (hblobs : node.blobs = node'.blobs) (hmesh : node.mesh = node'.mesh) :
    runCmd env json node file sql opts clock order =
      runCmd env json node' file sql opts clock order := by
  have hinputs : runInputs node file json sql opts = runInputs node' file json sql opts := by
    rw [runInputs, runInputs, discoverHosts_congr hknown]
  have hhost : opts.mapHost env.toSerdeJson json node =
      opts.mapHost env.toSerdeJson json node' := by
    rw [RunOpts.mapHost, RunOpts.mapHost, RunOpts.meshHost, RunOpts.meshHost, hblobs, hmesh]
  rw [runCmd, runCmd, hinputs, hhost]

end Command

/-- A peer may be listed twice. -/
theorem runCmd_known_hosts_listed_twice :
    runCmd .sample countedTexts oneHost (.bytes (counted.saved countedTexts)) oneCountText plainOpts
        (fun _ _ => 0) [0] =
      runCmd .sample countedTexts { oneHost with atlas := .ok ["host0", "host0"] }
        (.bytes (counted.saved countedTexts)) oneCountText plainOpts (fun _ _ => 0) [0] := by
  apply runCmd_known_hosts
  · intro hostId
    change hostId ∈ ["host0"] ↔ hostId ∈ ["host0", "host0"]
    simp
  · rfl
  · rfl

section Mesh

variable {Cap Token : Type} {iam : IamCore Cap} {env : Externals} {json : JsonText}
  {node : Node} {file : FileRead} {sql : String} {opts : RunOpts}
  {clock : Nat → Nat → Nat} {order : List Nat} {q : Query} {c : Catalog} {d : Dataset}

/-- The statistics in a loaded catalog are finite. -/
theorem finiteStats_of_load (hload : Catalog.load json file = .ok c)
    (hget : c.datasets[q.dataset]? = some d) {s : Shard} (hs : s ∈ d.shards) : s.FiniteStats := by
  have hdataset := catalogCodec_keeps_iff.mp (load_keeps hload).2 q.dataset d hget
  have hshard := shardCodec_keeps_iff.mp (datasetCodec_keeps_iff.mp hdataset s hs)
  exact fun st hst => statsCodec_keeps_iff.mp (hshard st hst)

/-- An aggregate query over a mesh prints the answer of the table, although some hosts lie,
if they are fewer than the copies, than have to agree and than answer for each live
shard. -/
theorem runCmd_outvotes_liars {setup : String → Agent.Setup} {content : String → ByteArray}
    {tables : Tables} {liars : List String}
    (hcanonical : ∀ p, env.canonical p = some (json.print (partialCodec.encode p)))
    (hprint : env.PrintsObjects) (hparse : Sql.parse sql = .ok q)
    (haggregate : q.isProjection = false) (hload : Catalog.load json file = .ok c)
    (hholds : c.Holds json content tables) (hget : c.datasets[q.dataset]? = some d)
    (hmode : opts.distributed = true)
    (hrequests : ∀ s ∈ liveShards q d.shards, json.Carries json.print
      (requestCodec.encode { query := q, shard := s, grant := opts.grant }))
    (hagents : ∀ s ∈ liveShards q d.shards, ∀ hostId ∈ node.known true, hostId ∉ liars →
      (opts.meshHost node).RunsAgent Token env.toSerdeJson json iam (setup hostId) content q s
        hostId)
    (hportable : ∀ s ∈ liveShards q d.shards,
      q.Portable env.toSerdeJson (blobTable json content s.cid))
    (htexts : ∀ s ∈ liveShards q d.shards, ∀ p,
      p = q.mapShard env.toSerdeJson (blobTable json content s.cid) ∨
        (∃ hostId ∈ node.known true, ((opts.meshHost node).mapHost json).map hostId s q = .ok p) →
      json.Carries json.print (partialCodec.encode p))
    (hfew : liars.length < max opts.redundancy 1)
    (hquorum : opts.quorum = 0 ∨ liars.length < opts.quorum)
    (henough : liars ≠ [] → ∀ s ∈ liveShards q d.shards, liars.length <
      (askedHosts env opts.config (ranked compare (node.known true).dedup) s).countP
        (mapAnswers ((opts.meshHost node).mapHost json) q s))
    (hexact : ∀ rows, tables[q.dataset]? = some rows → q.ExactSums rows)
    (htext : ∀ rows, tables[q.dataset]? = some rows → ∀ row ∈ rows, ¬ComparesText row q.predicate)
    {out : List Value} {diagnostics : String}
    (hrun : runCmd env json node file sql opts clock order = some (.printed out diagnostics)) :
    ∃ rows, tables[q.dataset]? = some rows ∧ q.AnsweredAs env.toSerdeJson rows out := by
  have hknown : ∀ hostId, hostId ∈ ranked compare (node.known true).dedup ↔
      hostId ∈ node.known true := fun _ => Node.mem_candidates
  have hdistinct : (ranked compare (node.known true).dedup).Nodup :=
    (ranked_perm compare _).nodup_iff.mpr (List.nodup_dedup _)
  have hreplies : ∀ s ∈ liveShards q d.shards,
      ∀ hostId ∈ ranked compare (node.known true).dedup, hostId ∉ liars →
        (opts.meshHost node).RepliesAs env.toSerdeJson json iam (setup hostId) content q s
          hostId := by
    intro s hs hostId hmem hnot
    exact (hagents s hs hostId ((hknown hostId).mp hmem) hnot).repliesAs
      (Sql.parse_predicate hparse)
      (finiteStats_of_load hload hget (List.mem_of_mem_filter hs)) (hrequests s hs)
  have htexts' : ∀ s ∈ liveShards q d.shards, ∀ p,
      p = q.mapShard env.toSerdeJson (blobTable json content s.cid) ∨
        (∃ hostId ∈ ranked compare (node.known true).dedup,
          ((opts.meshHost node).mapHost json).map hostId s q = .ok p) →
      json.Carries json.print (partialCodec.encode p) := by
    rintro s hs p (hp | ⟨hostId, hmem, hmap⟩)
    · exact htexts s hs p (.inl hp)
    · exact htexts s hs p (.inr ⟨hostId, (hknown hostId).mp hmem, hmap⟩)
  obtain ⟨d', rows, hosts, hget', htable, hd, hhosts, _, hruns⟩ :=
    runCmd_printed hparse hload hholds hrun
  cases hget.symm.trans hget'
  obtain ⟨report, hr, rfl⟩ := hruns haggregate
  have hhost : opts.mapHost env.toSerdeJson json node = (opts.meshHost node).mapHost json :=
    if_pos hmode
  rw [hhosts, hmode, hhost] at hr
  have hreduced := (mesh_run_eq_local hcanonical hprint hdistinct hreplies hportable htexts' hfew
    hquorum henough hr).1
  refine ⟨rows, htable, fun hprojection => ?_, fun _ => ⟨report.results, ?_, rfl⟩⟩
  · rw [haggregate] at hprojection
    cases hprojection
  · exact reducedRows_aggregatedAs hd (hexact rows htable) (htext rows htable) hreduced

end Mesh

/-! ## A mesh with a liar -/

/-- The hosts are listed out of order, and one of them twice. -/
private def listingNode : Node where
  atlas := .error ""
  services := .ok ["host2", "host0", "host1", "host0"]
  blobs cid := .ok (lonelyBlob cid)
  mesh := meshWithLiar.client

private def copyingOpts : RunOpts :=
  { plainOpts with
    distributed := true
    redundancy := 3
    quorum := 2 }

private def lonelyFile : FileRead :=
  .bytes "\x7b1\x7d".toUTF8

private theorem load_lonely : Catalog.load replyTexts lonelyFile = .ok lonelyCatalog := by
  rw [lonelyFile, load_toUTF8]
  rfl

private theorem inputs_lonely : runInputs listingNode lonelyFile replyTexts oneCountText
    copyingOpts = .ok (oneCount, lonelyDataset, threeNames) := by
  rw [runInputs, parse_oneCount, load_lonely]
  rfl

private theorem mapHost_lonely :
    copyingOpts.mapHost meshExternals.toSerdeJson replyTexts listingNode = liarFirst :=
  meshWithLiar_eq

private theorem runCmd_lonely : ∃ out diagnostics,
    runCmd meshExternals replyTexts listingNode lonelyFile oneCountText copyingOpts (fun _ _ => 0)
      [0] = some (.printed out diagnostics) := by
  obtain ⟨report, hrun⟩ : ∃ report, run meshExternals liarFirst copyingOpts.config oneCount
      (fun _ _ => 0) lonelyDataset.shards threeNames [0] = some (.ok report) := ⟨_, rfl⟩
  have hprinted : runCmd meshExternals replyTexts listingNode lonelyFile oneCountText copyingOpts
      (fun _ _ => 0) [0] = some (printGroups oneCount lonelyDataset (.ok report)) := by
    rw [runCmd, inputs_lonely]
    simp only [mapHost_lonely, hrun]
    rfl
  exact ⟨_, _, hprinted⟩

private def lonelyTables : Tables :=
  Std.ExtTreeMap.insert ∅ "a" Agent.saleRows

private theorem lonely_holds : lonelyCatalog.Holds replyTexts lonelyBlob lonelyTables := by
  have hnone : Catalog.new.Holds replyTexts lonelyBlob ∅ := fun _ => .none
  refine hnone.put (d := lonelyDataset) ⟨?_, ?_⟩
  · change (blobTable replyTexts lonelyBlob "s0" ++ []).Perm _
    rw [blobTable_lonely, List.append_nil]
  · intro s hs
    cases List.mem_singleton.mp hs
    exact fun _ => nofun

/-- One of three hosts sees none of two rows, and what is printed is still the count of the
table. -/
theorem runCmd_outvotes_liars_one_liar : ∃ out diagnostics,
    runCmd meshExternals replyTexts listingNode lonelyFile oneCountText copyingOpts (fun _ _ => 0)
        [0] = some (.printed out diagnostics) ∧
      ∃ rows, lonelyTables["a"]? = some rows ∧ oneCount.AnsweredAs .sample rows out := by
  obtain ⟨out, diagnostics, hrun⟩ := runCmd_lonely
  have hlisted : ∀ hostId ∈ listingNode.known true, hostId ∉ ["host0"] → hostId ≠ "host0" :=
    fun _ _ hnot heq => hnot (heq ▸ List.mem_singleton_self _)
  have hget : lonelyCatalog.datasets["a"]? = some lonelyDataset :=
    Std.ExtTreeMap.getElem?_insert_self
  refine ⟨out, diagnostics, hrun, @runCmd_outvotes_liars Unit Unit noIam meshExternals replyTexts
    listingNode lonelyFile oneCountText copyingOpts (fun _ _ => 0) [0] oneCount lonelyCatalog
    lonelyDataset (fun _ => openSetup) lonelyBlob lonelyTables ["host0"] (fun _ => rfl)
    meshExternals_printsObjects parse_oneCount rfl load_lonely lonely_holds hget rfl ?_ ?_
    (fun s _ => lonely_portable s.cid) ?_ (by decide) (.inr (by decide)) ?_
    (fun rows _ => oneCount_exactSums rows) (fun _ _ _ _ => id) out diagnostics hrun⟩
  · exact fun s hs => lonelyRequests_carry (List.mem_of_mem_filter hs)
  · exact fun s hs hostId hmem hnot =>
      meshWithLiar_runsAgent (List.mem_of_mem_filter hs) (hlisted hostId hmem hnot)
  · exact fun _ _ _ hp => lonelyPartials_carry (hp.imp id fun ⟨hostId, _, hmap⟩ => ⟨hostId, hmap⟩)
  · have hmesh : (copyingOpts.meshHost listingNode).mapHost replyTexts = liarFirst :=
      meshWithLiar_eq
    have hordered : ranked compare (listingNode.known true).dedup = threeNames := rfl
    rw [hmesh, hordered]
    intro _
    decide +kernel

end CeQuery
