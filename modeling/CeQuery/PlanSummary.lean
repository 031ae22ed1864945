import CeQuery.Answers
import CeQuery.Rendezvous
import Mathlib.Algebra.BigOperators.Group.List.Lemmas

/-!
# What a plan shows

A plan names for each shard the sample host that outranks the others, and counts for each
of these hosts the shards that it is tried for first. Every shard is counted once
(`planCmd_shows`).
-/

namespace CeQuery

section Plan

variable {score : String → String → U64} {json : JsonText} {file : FileRead} {sql : String}
  {q : Query} {c : Catalog} {d : Dataset}

/-- The sample host that outranks the others for a shard stands first. -/
theorem exists_primary (score : String → String → U64) (s : Shard) :
    ∃ h ∈ sampleHosts, (rankHosts score s.cid sampleHosts).head? = some h ∧
      ∀ h' ∈ sampleHosts, h' ≠ h → Outranks score s.cid h h' := by
  have hranks := rankHosts_canonical score s.cid sampleHosts (by decide)
  cases hranked : rankHosts score s.cid sampleHosts with
  | nil =>
      have hlength := hranks.perm.length_eq
      rw [hranked] at hlength
      cases hlength
  | cons h rest =>
      have hmem : ∀ h', h' ∈ sampleHosts ↔ h' = h ∨ h' ∈ rest := fun h' => by
        rw [← hranks.perm.mem_iff, hranked, List.mem_cons]
      refine ⟨h, (hmem h).mpr (.inl rfl), rfl, ?_⟩
      intro h' hh' hne
      have hsorted := hranks.sorted
      rw [hranked] at hsorted
      exact (List.pairwise_cons.mp hsorted).1 h' (((hmem h').mp hh').resolve_left hne)

/-- The summary counts the shards by the host that stands first. -/
theorem loadSummary_plan {primary : Shard → String} {shards : List Shard}
    (hmem : ∀ s, primary s ∈ sampleHosts)
    (hprimary : ∀ s, (rankHosts score s.cid sampleHosts).head? = some (primary s)) :
    (loadSummary (plan score shards sampleHosts)).toList =
      (sampleHosts.filter (· ∈ shards.map primary)).map fun h =>
        (h, (shards.map primary).count h) := by
  have hcounters : loadSummary (plan score shards sampleHosts) =
      (shards.map primary).foldl (fun (m : BTreeMap String Nat) h => m.upsert h 0 (· + 1)) ∅ := by
    rw [loadSummary, plan, List.foldl_map, List.foldl_map]
    simp only [hprimary]
  rw [hcounters]
  refine BTreeMap.toList_counters (by decide) fun h hh => ?_
  obtain ⟨s, _, rfl⟩ := List.mem_map.mp hh
  exact hmem s

/-- A plan shows each shard with the sample host that outranks the others, and then how
many shards each of these hosts has. Every shard is counted once. -/
theorem planCmd_shows (hparse : Sql.parse sql = .ok q) (hload : Catalog.load json file = .ok c)
    (hget : c.datasets[q.dataset]? = some d) :
    ∃ primary : Shard → String,
      (∀ s, primary s ∈ sampleHosts ∧
        ∀ h ∈ sampleHosts, h ≠ primary s → Outranks score s.cid (primary s) h) ∧
      planCmd score json file sql = .ok
        ((s!"query plan for `{q.dataset}` ({d.shards.length} shards over " ++
            s!"{sampleHosts.length} sample hosts):") ::
          (d.shards.zipIdx.map (fun entry => s!"  shard[{entry.2}] {entry.1.cid} -> " ++
              primary entry.1 ++ " (fallbacks: " ++ ", ".intercalate
                ((rankHosts score entry.1.cid sampleHosts).drop 1) ++ ")") ++
            ((sampleHosts.filter (· ∈ d.shards.map primary)).map fun h =>
              (h, (d.shards.map primary).count h)).map fun entry =>
                s!"  {entry.1}: {entry.2} primary shard(s)")) ∧
      ((sampleHosts.filter (· ∈ d.shards.map primary)).map fun h =>
        (d.shards.map primary).count h).sum = d.shards.length := by
  choose primary hmem hprimary hgreatest using exists_primary score
  refine ⟨primary, fun s => ⟨hmem s, hgreatest s⟩, ?_, ?_⟩
  · have hrequire : c.require q.dataset = .ok d := by
      rw [Catalog.require, Catalog.get, hget]
    rw [planCmd, hparse, hload]
    simp only [Except.mapError, bind, Except.bind, hrequire, loadSummary_plan hmem hprimary]
    rw [plan, List.zipIdx_map, List.map_map]
    simp only [Function.comp_def, hprimary, Prod.map, Option.getD_some, id]
    rfl
  · have hdistinct : (sampleHosts.filter (· ∈ d.shards.map primary)).Perm
        (d.shards.map primary).dedup := by
      rw [List.perm_ext_iff_of_nodup ((by decide : sampleHosts.Nodup).filter _)
        (List.nodup_dedup _)]
      intro h
      rw [List.mem_filter, List.mem_dedup, decide_eq_true_iff, and_iff_right_iff_imp]
      intro hh
      obtain ⟨s, _, rfl⟩ := List.mem_map.mp hh
      exact hmem s
    rw [(hdistinct.map _).sum_nat, List.sum_map_count_dedup_eq_length, List.length_map]

end Plan

private def plannedDataset : Dataset where
  name := "a"
  schema := []
  shards := ["s0", "s1", "s2"].map fun cid =>
    { cid, rows := U64.one, bytes := U64.zero, stats := none }

private def plannedCatalog : Catalog :=
  Catalog.new.put plannedDataset

/-- Every text is that of the catalog. -/
private def plannedTexts : JsonText where
  print _ := "catalog"
  printPretty _ := "catalog"
  parse _ := some (catalogCodec.encode plannedCatalog)

/-- The third host scores for the first two shards, and for the last one all score alike. -/
private def plannedScore : String → String → U64
  | "s0", "host02" => U64.one
  | "s1", "host02" => U64.one
  | _, _ => U64.zero

/-- Two shards are shown for the third host, the last one for the first host. -/
theorem planCmd_shows_three_shards : ∃ primary : Shard → String, ∃ lines,
    planCmd plannedScore plannedTexts (.bytes "catalog".toUTF8) oneCountText = .ok lines ∧
      plannedDataset.shards.map primary = ["host02", "host02", "host00"] ∧
      ((sampleHosts.filter (· ∈ plannedDataset.shards.map primary)).map fun h =>
        (plannedDataset.shards.map primary).count h).sum = 3 := by
  have hload : Catalog.load plannedTexts (.bytes "catalog".toUTF8) = .ok plannedCatalog := by
    rw [load_toUTF8]
    rfl
  obtain ⟨primary, hprimary, hlines, hsum⟩ := @planCmd_shows plannedScore plannedTexts
    (.bytes "catalog".toUTF8) oneCountText oneCount plannedCatalog plannedDataset parse_oneCount
    hload Std.ExtTreeMap.getElem?_insert_self
  refine ⟨primary, _, hlines, ?_, hsum⟩
  have hfirst : ∀ cid ∈ ["s0", "s1", "s2"], ∀ p ∈ sampleHosts,
      (∀ h ∈ sampleHosts, h ≠ p → Outranks plannedScore cid p h) →
        p = if cid = "s2" then "host00" else "host02" := by
    simp only [Outranks]
    decide
  simp only [plannedDataset, List.map_cons, List.map_nil]
  rw [hfirst "s0" (by decide) _ (hprimary _).1 (hprimary _).2,
    hfirst "s1" (by decide) _ (hprimary _).1 (hprimary _).2,
    hfirst "s2" (by decide) _ (hprimary _).1 (hprimary _).2]
  rfl

end CeQuery
