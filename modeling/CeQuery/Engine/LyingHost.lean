import CeQuery.Engine.Quorum

/-!
# Redundancy against one lying host

With at most one host that lies, two agreeing copies from different hosts have
the honest partial among them, so a verified outcome is honest up to its
canonical form. Redundancy is best effort: when a single host answers, its copy
is accepted unverified, and `mapOneShard_one_liar` says when that can happen.
-/

namespace CeQuery

/-- Every host but `liar` answers with the honest partial, if it answers. -/
def OneLiar (host : MapHost) (q : Query) (shard : Shard) (honest : Partial) (liar : String)
    (hosts : List String) : Prop :=
  ∀ hostId ∈ hosts, hostId ≠ liar → ∀ p, host.map hostId shard q = .ok p → p = honest

/-- The canonical text of a partial is that of a JSON object. -/
def Externals.PrintsObjects (env : Externals) : Prop :=
  ∀ p text, env.canonical p = some text → text.toList.head? = some '\x7b'

section Agreement

variable {env : Externals}

/-- Copies at different positions are grouped together only if both can be printed
and their canonical texts are the same. -/
theorem canonical_of_copyKey_eq (hprint : env.PrintsObjects) {c c' : (String × Partial) × Nat}
    (hne : c.2 ≠ c'.2) (h : copyKey env.canonical c = copyKey env.canonical c') :
    ∃ text, env.canonical c.1.2 = some text ∧ env.canonical c'.1.2 = some text := by
  have hplaceholder : ∀ i : Nat,
      ("<unserializable " ++ toString i ++ ">").toList.head? = some '<' := by
    intro i
    simp [String.toList_append]
  unfold copyKey at h
  cases hc : env.canonical c.1.2 with
  | none =>
      rw [hc, Option.getD_none] at h
      cases hc' : env.canonical c'.1.2 with
      | none =>
          rw [hc', Option.getD_none, String.append_left_inj, String.append_right_inj] at h
          exact absurd (Text.toString_inj h) hne
      | some text =>
          rw [hc', Option.getD_some] at h
          have hhead := hprint _ _ hc'
          rw [← h, hplaceholder] at hhead
          cases hhead
  | some text =>
      rw [hc, Option.getD_some] at h
      cases hc' : env.canonical c'.1.2 with
      | none =>
          rw [hc', Option.getD_none] at h
          have hhead := hprint _ _ hc
          rw [h, hplaceholder] at hhead
          cases hhead
      | some text' =>
          rw [hc', Option.getD_some] at h
          exact ⟨text, rfl, congrArg some h.symm⟩

/-- Copies at different positions come from different hosts. -/
theorem hosts_ne {copies : List (String × Partial)} (hhosts : (copies.map (·.1)).Nodup)
    {i j : Nat} {c c' : String × Partial} (hi : copies[i]? = some c) (hj : copies[j]? = some c')
    (hne : i ≠ j) : c.1 ≠ c'.1 := by
  have hfirst : (copies.map (·.1))[i]? = some c.1 := by rw [List.getElem?_map, hi, Option.map_some]
  have hsecond : (copies.map (·.1))[j]? = some c'.1 := by
    rw [List.getElem?_map, hj, Option.map_some]
  obtain ⟨hlt, _⟩ := List.getElem?_eq_some_iff.mp hfirst
  intro heq
  exact hne ((List.getElem?_inj hlt hhosts).mp (by rw [hfirst, hsecond, heq]))

/-- Of two agreeing copies from different hosts one is honest, so the first one
prints like the honest partial. -/
theorem selectQuorum_one_liar {copies : List (String × Partial)} {quorum : Nat}
    {p honest : Partial} (liar : String) (hprint : env.PrintsObjects)
    (hhosts : (copies.map (·.1)).Nodup) (hseveral : 2 ≤ quorumNeed copies.length quorum)
    (hhonest : ∀ c ∈ copies, c.1 ≠ liar → c.2 = honest)
    (h : selectQuorum env.canonical copies quorum = .ok p) :
    ∃ text, env.canonical honest = some text ∧ env.canonical p = some text := by
  obtain ⟨key, first, rest, hgroup, rfl, hneed⟩ := selectQuorum_ok h
  cases rest with
  | nil =>
      rw [List.length_nil] at hneed
      omega
  | cons second rest =>
      have hmem : ∀ c ∈ first :: second :: rest,
          copies[c.2]? = some c.1 ∧ copyKey env.canonical c = key :=
        fun c hc => mem_copyGroup.mp (hgroup ▸ hc)
      obtain ⟨hfirst, hfirstKey⟩ := hmem first (by simp)
      obtain ⟨hsecond, hsecondKey⟩ := hmem second (by simp)
      have hne : first.2 ≠ second.2 := by
        have hpositions : ((copyGroup env.canonical copies key).map (·.2)).Nodup :=
          nodup_copyGroup key
        rw [hgroup] at hpositions
        intro heq
        simp [heq] at hpositions
      obtain ⟨text, htext, htext'⟩ :=
        canonical_of_copyKey_eq hprint hne (hfirstKey.trans hsecondKey.symm)
      by_cases hliar : first.1.1 = liar
      · have hsecondHonest := hhonest second.1 (List.mem_of_getElem? hsecond)
          fun heq => hosts_ne hhosts hfirst hsecond hne (hliar.trans heq.symm)
        exact ⟨text, hsecondHonest ▸ htext', htext⟩
      · have hfirstHonest := hhonest first.1 (List.mem_of_getElem? hfirst) hliar
        exact ⟨text, hfirstHonest ▸ htext, htext⟩

end Agreement

/-- Under redundancy with at most one lying host, an outcome is either verified,
and prints like the honest partial, or it is the unverified copy of the only
host that answered before the ranking or the attempts were used up. -/
theorem mapOneShard_one_liar {env : Externals} {host : MapHost} {config : RunConfig} {q : Query}
    {clock : Nat → Nat} {task : ShardTask} {honest : Partial} {liar : String} {o : ShardOutcome}
    (hprint : env.PrintsObjects) (hdistinct : task.rankedHosts.Nodup)
    (hredundancy : 2 ≤ config.redundancy) (hquorum : config.quorum = 0 ∨ 2 ≤ config.quorum)
    (hhosts : OneLiar host q task.shard honest liar task.rankedHosts)
    (h : mapOneShard env host config q clock task = .ok o) :
    (o.verified = true ∧ ∃ text, env.canonical honest = some text ∧
        env.canonical o.shardPartial = some text) ∨
      (o.verified = false ∧ ∃ tried rest, task.rankedHosts = tried ++ rest ∧
        o.attempts = tried.length ∧ (rest = [] ∨ max config.maxAttemptsPerShard 1 ≤ o.attempts) ∧
        o.servedBy ∈ tried ∧
        ∀ hostId ∈ tried, ∀ p, host.map hostId task.shard q = .ok p ↔
          hostId = o.servedBy ∧ p = o.shardPartial) := by
  obtain ⟨tried, rest, first, others, htrace⟩ := mapOneShard_ok h
  cases hverified : o.verified with
  | true =>
      obtain ⟨_, hothers⟩ := htrace.verified.mp hverified
      have hchosen := htrace.chosen
      rw [if_pos hverified] at hchosen
      refine .inl ⟨rfl, selectQuorum_one_liar liar hprint ?_ ?_ ?_ hchosen⟩
      · rw [← htrace.copies]
        have htried := (answers_hosts host q task.shard tried).trans htrace.tried_sublist
        exact hdistinct.sublist htried
      · have hmany := List.length_pos_iff.mpr hothers
        rw [quorumNeed, List.length_cons]
        split <;> omega
      · intro c hc hne
        rw [← htrace.copies, mem_answers] at hc
        exact hhosts c.1 (htrace.tried_sublist.subset hc.1) hne c.2 hc.2
  | false =>
      have hsingle := htrace.single_copy hredundancy hverified
      exact .inr ⟨rfl, tried, rest, htrace.ranking, htrace.attempts, hsingle⟩

private def countPartial (n : U64) : Partial where
  aggregates := [.count]
  groups := Std.ExtTreeMap.insert ∅ [] [.count n]

private def maxPartial (x : F64) : Partial where
  aggregates := [.max "v"]
  groups := Std.ExtTreeMap.insert ∅ [] [.max (some x)]

/-- The first host lies, the second one is honest or is down. -/
private def mixedHosts (lie honest : Partial) (up : Bool) : MapHost where
  map hostId _ _ :=
    if hostId = "host0" then .ok lie
    else if up then .ok honest
    else .error .timeout
  project _ _ _ := .error .timeout

private def redundantly (redundancy quorum : Nat) : RunConfig where
  maxAttemptsPerShard := 4
  maxInFlight := 4
  redundancy
  quorum
  deadline := none
  limits :=
    { maxScanBytes := U64.zero
      maxScanRows := U64.zero
      maxShards := 0
      maxResultGroups := 0 }

private def aggregateQuery (agg : Agg) : Query where
  dataset := "t"
  aggregates := [agg]
  predicate := .true
  groupBy := []
  orderBy := []
  limit := none
  projection := none

private def rankedTask (rankedHosts : List String) : ShardTask where
  shard := { cid := "s0", rows := U64.one, bytes := U64.zero, stats := none }
  rankedHosts := rankedHosts

private theorem oneLiar_mixedHosts (lie honest : Partial) (up : Bool) (q : Query) (shard : Shard)
    (hosts : List String) : OneLiar (mixedHosts lie honest up) q shard honest "host0" hosts := by
  intro hostId _ hne p hmap
  rw [mixedHosts] at hmap
  simp only [if_neg hne] at hmap
  split at hmap
  · exact (Except.ok.inj hmap).symm
  · cases hmap

theorem sample_printsObjects : Externals.sample.PrintsObjects := by
  intro p text h
  simp only [Externals.sample] at h
  split at h
  · cases h
    simp [String.toList_append]
  · split at h
    · cases h
    · cases h
      simp [String.toList_append]
  · cases h

/-- A lie is returned when the liar is the only host that answers, and when it
prints like the honest partial: a maximum of minus infinity for one of plus
infinity. -/
theorem mapOneShard_lie_returned :
    (OneLiar (mixedHosts (countPartial (U64.wrap 9)) (countPartial U64.one) false)
        (aggregateQuery .count) (rankedTask ["host0", "host1"]).shard (countPartial U64.one) "host0"
        ["host0", "host1"] ∧
      ∃ o, mapOneShard .sample
          (mixedHosts (countPartial (U64.wrap 9)) (countPartial U64.one) false) (redundantly 2 0)
          (aggregateQuery .count) (fun _ => 0) (rankedTask ["host0", "host1"]) = .ok o ∧
        o.shardPartial ≠ countPartial U64.one) ∧
    OneLiar (mixedHosts (maxPartial (-1 / 0)) (maxPartial (1 / 0)) true)
        (aggregateQuery (.max "v")) (rankedTask ["host0", "host1"]).shard (maxPartial (1 / 0))
        "host0" ["host0", "host1"] ∧
      ∃ o, mapOneShard .sample (mixedHosts (maxPartial (-1 / 0)) (maxPartial (1 / 0)) true)
          (redundantly 2 0) (aggregateQuery (.max "v")) (fun _ => 0)
          (rankedTask ["host0", "host1"]) = .ok o ∧
        o.shardPartial ≠ maxPartial (1 / 0) := by
  refine ⟨⟨oneLiar_mixedHosts _ _ _ _ _ _, _, rfl, ?_⟩, oneLiar_mixedHosts _ _ _ _ _ _,
    { shardCid := "s0"
      servedBy := "host0"
      shardPartial := maxPartial (-1 / 0)
      attempts := 2
      redistributed := false
      verified := true }, rfl, ?_⟩
  · intro heq
    have hgroup := congrArg (fun p : Partial => p.groups[([] : List String)]?) heq
    change some [Accum.count (U64.wrap 9)] = some [Accum.count U64.one] at hgroup
    simp [U64.wrap, U64.one] at hgroup
  · intro heq
    have hgroup := congrArg (fun p : Partial => p.groups[([] : List String)]?) heq
    change some [Accum.max (some (-1 / 0))] = some [Accum.max (some (1 / 0))] at hgroup
    simp only [Option.some.injEq, List.cons.injEq, Accum.max.injEq, and_true] at hgroup
    exact absurd hgroup (by decide)

/-- Two honest copies outvote the liar. -/
theorem mapOneShard_one_liar_three_hosts : ∃ o,
    mapOneShard .sample (mixedHosts (countPartial (U64.wrap 9)) (countPartial U64.one) true)
        (redundantly 3 2) (aggregateQuery .count) (fun _ => 0)
        (rankedTask ["host0", "host1", "host2"]) = .ok o ∧
      o.verified = true ∧ ∃ text, Externals.sample.canonical (countPartial U64.one) = some text ∧
        Externals.sample.canonical o.shardPartial = some text := by
  refine ⟨{ shardCid := "s0"
            servedBy := "host0"
            shardPartial := countPartial U64.one
            attempts := 3
            redistributed := false
            verified := true }, rfl, ?_⟩
  have houtcome := mapOneShard_one_liar sample_printsObjects (by decide) (by decide)
    (.inr (by decide))
    (oneLiar_mixedHosts (countPartial (U64.wrap 9)) (countPartial U64.one) true
      (aggregateQuery .count) _ _)
    (show mapOneShard _ _ (redundantly 3 2) _ (fun _ => 0)
      (rankedTask ["host0", "host1", "host2"]) = _ from rfl)
  exact houtcome.resolve_right fun hunverified => by cases hunverified.1

end CeQuery
