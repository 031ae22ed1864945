import CeQuery.Answers

/-!
# The first answer

A projection is answered from the table if the first answers for its shards are, and
neither what the hosts behind them would say nor how many copies or equal answers are
asked for makes a difference (`runProjection_first_answers`).
-/

namespace CeQuery

section FirstAnswers

variable {env : Externals} {host : MapHost} {config : RunConfig} {json : JsonText}
  {content : String → ByteArray} {q : Query} {d : Dataset} {rows : List Row} {hosts : List String}
  {clock : Nat → Nat → Nat} {order : List Nat}

/-- If the first host that answers for a shard says what its blob holds, for each shard
that is read, a projection reports rows of the table, and the answer if they may all be
held at once. The other hosts may say anything. More copies or a quorum change nothing. -/
theorem runProjection_first_answers (hd : d.Stores json content rows)
    (hfirst : ∀ s ∈ liveShards q d.shards, ∀ hostId projected,
      firstAnswer env host config q hosts s = some hostId →
      host.project hostId s q = .ok projected →
      projected = q.projectShard (blobTable json content s.cid))
    (htext : ∀ row ∈ rows, ¬ComparesText row q.predicate)
    (hceiling : config.limits.maxResultGroups ≠ 0) {report : ProjectionReport}
    (hrun : runProjection env host config q clock d.shards hosts order = some (.ok report)) :
    q.ProjectedAs rows config.limits.maxResultGroups report.rows ∧
      ∀ redundancy quorum, runProjection env host { config with redundancy, quorum } q clock
        d.shards hosts order = some (.ok report) := by
  refine ⟨runProjection_projectedAs hd hfirst htext hceiling hrun, ?_⟩
  exact fun redundancy quorum => (runProjection_copies redundancy quorum).trans hrun

end FirstAnswers

def everyRow : Query where
  dataset := "a"
  aggregates := []
  predicate := .true
  groupBy := []
  orderBy := []
  limit := none
  projection := some []

/-- The first choice is down, the second has the row, and the third says that there are
two others. -/
private def lyingLast : MapHost where
  map _ _ _ := .error .timeout
  project hostId _ q :=
    if hostId = "host0" then .error .timeout
    else if hostId = "host1" then .ok (q.projectShard [countedRow])
    else .ok [∅, ∅]

/-- What the third host says of the shard does not show. -/
theorem runProjection_first_answers_lying_last : ∃ report,
    runProjection .sample lyingLast plainOpts.config everyRow (fun _ _ => 0) countedDataset.shards
        ["host0", "host1", "host2"] [0] = some (.ok report) ∧
      everyRow.ProjectedAs [countedRow] plainOpts.config.limits.maxResultGroups report.rows := by
  obtain ⟨report, hrun⟩ : ∃ report, runProjection .sample lyingLast plainOpts.config everyRow
      (fun _ _ => 0) countedDataset.shards ["host0", "host1", "host2"] [0] = some (.ok report) :=
    ⟨_, rfl⟩
  have hd : countedDataset.Stores countedTexts ownContent [countedRow] :=
    counted_holds.stores counted_get counted_rows
  refine ⟨report, hrun, (runProjection_first_answers hd ?_ (fun _ _ => id) (by decide) hrun).1⟩
  intro s hs hostId projected hanswer hproject
  cases List.mem_singleton.mp (List.mem_of_mem_filter hs)
  have hsecond : some "host1" = some hostId := hanswer
  cases hsecond
  rw [blobTable_counted]
  exact (Except.ok.inj hproject).symm

end CeQuery
