import CeQuery.Engine.Walk

/-!
# What a walk collects and what a quorum chooses

The copies of a walk are the answers of the hosts it tried, a prefix of the
ranking (`mapWalk_tried`). Copies are grouped by their canonical form, and the
chosen partial is the first of a group that is large enough
(`selectQuorum_ok`). `MapTrace` puts the two together for a shard.
-/

namespace CeQuery

section Walk

variable {host : MapHost} {config : RunConfig} {q : Query} {shard : Shard} {clock : Nat → Nat}

/-- The copy a host contributes when it is tried. -/
def answer (host : MapHost) (q : Query) (shard : Shard) (hostId : String) :
    Option (String × Partial) :=
  match host.map hostId shard q with
  | .ok p => some (hostId, p)
  | .error _ => none

theorem answer_eq_some {hostId : String} {c : String × Partial} :
    answer host q shard hostId = some c ↔ c.1 = hostId ∧ host.map hostId shard q = .ok c.2 := by
  rw [answer]
  obtain ⟨id, p⟩ := c
  cases host.map hostId shard q with
  | ok p' => simp [eq_comm]
  | error e => simp

theorem mem_answers {tried : List String} {c : String × Partial} :
    c ∈ tried.filterMap (answer host q shard) ↔
      c.1 ∈ tried ∧ host.map c.1 shard q = .ok c.2 := by
  rw [List.mem_filterMap]
  constructor
  · rintro ⟨hostId, hmem, hanswer⟩
    obtain ⟨rfl, hmap⟩ := answer_eq_some.mp hanswer
    exact ⟨hmem, hmap⟩
  · rintro ⟨hmem, hmap⟩
    exact ⟨c.1, hmem, answer_eq_some.mpr ⟨rfl, hmap⟩⟩

/-- Every host contributes one copy at most. -/
theorem answers_hosts (host : MapHost) (q : Query) (shard : Shard) (tried : List String) :
    ((tried.filterMap (answer host q shard)).map (·.1)).Sublist tried := by
  induction tried with
  | nil => exact .slnil
  | cons hostId tried ih =>
      cases hanswer : answer host q shard hostId with
      | none =>
          rw [List.filterMap_cons_none hanswer]
          exact ih.cons _
      | some c =>
          obtain ⟨hid, _⟩ := answer_eq_some.mp hanswer
          rw [List.filterMap_cons_some hanswer, List.map_cons, hid]
          exact ih.cons_cons _

/-- The walk tries a prefix of the ranking and keeps the answers. It stops at the
end of the ranking, at the attempt cap, or with enough copies. -/
theorem mapWalk_tried {ranked : List String} {w w' : Walk}
    (h : mapWalk host config q shard clock ranked w = .ok w') :
    ∃ tried rest, ranked = tried ++ rest ∧ w'.attempts = w.attempts + tried.length ∧
      w'.copies = w.copies ++ tried.filterMap (answer host q shard) ∧
      w'.firstHost = w.firstHost.or ((tried.filterMap (answer host q shard)).head?.map (·.1)) ∧
      (rest = [] ∨ max config.maxAttemptsPerShard 1 ≤ w'.attempts ∨
        max config.redundancy 1 ≤ w'.copies.length) := by
  induction ranked generalizing w with
  | nil =>
      rw [mapWalk] at h
      split at h
      · cases h
      · cases h
        exact ⟨[], [], by simp⟩
  | cons hostId rest ih =>
      rw [mapWalk] at h
      split at h
      · cases h
      · split at h
        · rename_i hcap
          cases h
          exact ⟨[], hostId :: rest, rfl, rfl, by simp, by simp, .inr (.inl hcap)⟩
        · split at h
          · rename_i p hmap
            have hanswer : answer host q shard hostId = some (hostId, p) :=
              answer_eq_some.mpr ⟨rfl, hmap⟩
            split at h
            · rename_i hstop
              cases h
              refine ⟨[hostId], rest, rfl, rfl, ?_, ?_, ?_⟩
              · simp [hanswer]
              · simp [hanswer]
              · rw [List.isEmpty_iff] at hstop
                rw [Walk.accept_copies, List.length_append]
                exact hstop.elim (fun henough => .inr (.inr henough)) .inl
            · obtain ⟨tried, later, hranked, hattempts, hcopies, hfirst, hstop⟩ := ih h
              refine ⟨hostId :: tried, later, by rw [hranked, List.cons_append], ?_, ?_, ?_, hstop⟩
              · rw [hattempts, Walk.accept_attempts, List.length_cons]
                omega
              · rw [hcopies, Walk.accept_copies, List.filterMap_cons_some hanswer]
                simp
              · rw [hfirst, Walk.accept_firstHost, List.filterMap_cons_some hanswer]
                cases w.firstHost <;> simp
          · rename_i e hmap
            have hanswer : answer host q shard hostId = none := by simp [answer, hmap]
            obtain ⟨tried, later, hranked, hattempts, hcopies, hfirst, hstop⟩ := ih h
            refine ⟨hostId :: tried, later, by rw [hranked, List.cons_append], ?_, ?_, ?_, hstop⟩
            · rw [hattempts, Walk.fail_attempts, List.length_cons]
              omega
            · rw [hcopies, Walk.fail_copies, List.filterMap_cons_none hanswer]
            · rw [hfirst, Walk.fail_firstHost, List.filterMap_cons_none hanswer]

end Walk

section Quorum

variable {canonical : Partial → Option String} {copies : List (String × Partial)}

theorem maxBy_mem {cmp : α → α → Ordering} {as : List α} {a : α} (h : maxBy cmp as = some a) :
    a ∈ as := by
  cases as with
  | nil => cases h
  | cons first rest =>
      have hfold : ∀ (rest : List α) (best : α),
          rest.foldl (fun best x => if cmp best x = .gt then best else x) best ∈ best :: rest := by
        intro rest
        induction rest with
        | nil => simp
        | cons x rest ih =>
            intro best
            rw [List.foldl_cons]
            have hmem := ih (if cmp best x = .gt then best else x)
            grind
      cases h
      exact hfold rest first

/-- The key under which a copy is grouped. -/
def copyKey (canonical : Partial → Option String) (copy : (String × Partial) × Nat) : String :=
  (canonical copy.1.2).getD ("<unserializable " ++ toString copy.2 ++ ">")

/-- The copies of one group, with their positions. -/
def copyGroup (canonical : Partial → Option String) (copies : List (String × Partial))
    (key : String) : List ((String × Partial) × Nat) :=
  copies.zipIdx.filter fun copy => copyKey canonical copy = key

theorem mem_copyGroup {key : String} {c : (String × Partial) × Nat} :
    c ∈ copyGroup canonical copies key ↔ copies[c.2]? = some c.1 ∧ copyKey canonical c = key := by
  rw [copyGroup, List.mem_filter, List.mem_zipIdx_iff_getElem?, decide_eq_true_iff]

/-- The copies of a group stand at different positions. -/
theorem nodup_copyGroup (key : String) :
    ((copyGroup canonical copies key).map (·.2)).Nodup := by
  have hall : (copies.zipIdx.map (·.2)).Nodup := by
    rw [List.zipIdx_map_snd]
    exact List.nodup_range'
  exact hall.sublist (List.filter_sublist.map _)

/-- The entry of a group counts its copies and keeps the first of them. -/
theorem getElem?_groupCopies (key : String) :
    (groupCopies canonical copies)[key]? =
      match copyGroup canonical copies key with
      | [] => none
      | first :: rest => some
          { count := rest.length + 1, firstSeen := first.2, copy := first.1.2 } := by
  have hcount : ∀ (group : List ((String × Partial) × Nat)) (entry : Agreement),
      group.foldl (fun b _ => { b with count := b.count + 1 }) entry =
        { entry with count := entry.count + group.length } := by
    intro group
    induction group with
    | nil => simp
    | cons _ group ih =>
        intro entry
        rw [List.foldl_cons, ih]
        simp only [List.length_cons]
        congr 1
        omega
  have hread := BTreeMap.getElem?_foldl_upsert (copyKey canonical)
    (fun copy => ({ count := 0, firstSeen := copy.2, copy := copy.1.2 } : Agreement))
    (fun _ entry => { entry with count := entry.count + 1 }) key copies.zipIdx ∅
  have hgroups : (groupCopies canonical copies)[key]? = _ := hread
  rw [hgroups, copyGroup]
  split
  · rename_i hnil
    simp [hnil]
  · rename_i first rest hcons
    simp only [hcons, hcount, Std.ExtTreeMap.getElem?_empty, Option.getD_none]
    simp

/-- The chosen partial is the first copy of a group that meets the quorum. -/
theorem selectQuorum_ok {quorum : Nat} {p : Partial}
    (h : selectQuorum canonical copies quorum = .ok p) :
    ∃ key first rest, copyGroup canonical copies key = first :: rest ∧ p = first.1.2 ∧
      quorumNeed copies.length quorum ≤ rest.length + 1 := by
  rw [selectQuorum] at h
  split at h
  · cases h
  · split at h
    · rename_i group hbest
      split at h
      · rename_i hneed
        cases h
        obtain ⟨⟨key, entry⟩, hentry, rfl⟩ := List.mem_map.mp (maxBy_mem hbest)
        have hget := Std.ExtTreeMap.mem_toList_iff_getElem?_eq_some.mp hentry
        rw [getElem?_groupCopies] at hget
        split at hget
        · cases hget
        · rename_i first rest hgroup
          cases hget
          exact ⟨key, first, rest, hgroup, rfl, hneed⟩
      · cases h
    · cases h

/-- A chosen partial is one of the copies. -/
theorem selectQuorum_mem {quorum : Nat} {p : Partial}
    (h : selectQuorum canonical copies quorum = .ok p) : ∃ c ∈ copies, c.2 = p := by
  obtain ⟨key, first, rest, hgroup, rfl, _⟩ := selectQuorum_ok h
  have hmem : first ∈ copyGroup canonical copies key := hgroup ▸ List.mem_cons_self
  exact ⟨first.1, List.mem_of_getElem? (mem_copyGroup.mp hmem).1, rfl⟩

end Quorum

section MapOneShard

variable {env : Externals} {host : MapHost} {config : RunConfig} {q : Query}
variable {clock : Nat → Nat} {task : ShardTask} {o : ShardOutcome}

/-- How an outcome came about: the hosts that were tried answered with the copies
`first :: others`, and the partial is the first copy or, when there are several
and redundancy is asked for, the one the quorum chose. -/
structure MapTrace (env : Externals) (host : MapHost) (config : RunConfig) (q : Query)
    (task : ShardTask) (o : ShardOutcome) (tried rest : List String) (first : String × Partial)
    (others : List (String × Partial)) : Prop where
  ranking : task.rankedHosts = tried ++ rest
  attempts : o.attempts = tried.length
  copies : tried.filterMap (answer host q task.shard) = first :: others
  servedBy : o.servedBy = first.1
  stopped : rest = [] ∨ max config.maxAttemptsPerShard 1 ≤ tried.length ∨
    max config.redundancy 1 ≤ (first :: others).length
  verified : o.verified = true ↔ 1 < max config.redundancy 1 ∧ others ≠ []
  chosen : if o.verified = true then
      selectQuorum env.canonical (first :: others) config.quorum = .ok o.shardPartial
    else o.shardPartial = first.2

section MapTrace

variable {tried rest : List String} {first : String × Partial} {others : List (String × Partial)}

theorem MapTrace.tried_sublist (h : MapTrace env host config q task o tried rest first others) :
    tried.Sublist task.rankedHosts := by
  rw [h.ranking]
  exact List.sublist_append_left _ _

/-- Under redundancy an unverified outcome is the only copy that could be had. -/
theorem MapTrace.single_copy (h : MapTrace env host config q task o tried rest first others)
    (hredundancy : 2 ≤ config.redundancy) (hverified : o.verified = false) :
    (rest = [] ∨ max config.maxAttemptsPerShard 1 ≤ o.attempts) ∧ o.servedBy ∈ tried ∧
      ∀ hostId ∈ tried, ∀ p, host.map hostId task.shard q = .ok p ↔
        hostId = o.servedBy ∧ p = o.shardPartial := by
  have hothers : others = [] := by
    by_contra hne
    have hseveral := h.verified.mpr ⟨by omega, hne⟩
    rw [hverified] at hseveral
    cases hseveral
  have hchosen := h.chosen
  rw [if_neg (by simp [hverified])] at hchosen
  have hcopies := h.copies
  rw [hothers] at hcopies
  have hanswers : ∀ c, c ∈ tried.filterMap (answer host q task.shard) ↔ c = first := by
    intro c
    rw [hcopies, List.mem_singleton]
  obtain ⟨hserved, hmap⟩ := mem_answers.mp ((hanswers first).mpr rfl)
  refine ⟨?_, ?_, ?_⟩
  · have hstopped := h.stopped
    rw [hothers, List.length_singleton, ← h.attempts] at hstopped
    exact hstopped.imp_right fun hcap => hcap.resolve_right (by omega)
  · rw [h.servedBy]
    exact hserved
  · intro hostId hmem p
    rw [h.servedBy, hchosen]
    constructor
    · intro hanswer
      have hcopy := (hanswers (hostId, p)).mp (mem_answers.mpr ⟨hmem, hanswer⟩)
      exact ⟨congrArg Prod.fst hcopy, congrArg Prod.snd hcopy⟩
    · rintro ⟨rfl, rfl⟩
      exact hmap

end MapTrace

theorem mapOneShard_ok (h : mapOneShard env host config q clock task = .ok o) :
    ∃ tried rest first others, MapTrace env host config q task o tried rest first others := by
  rw [mapOneShard] at h
  cases hwalk : mapWalk host config q task.shard clock task.rankedHosts .init with
  | error e =>
      rw [hwalk] at h
      cases h
  | ok w =>
      rw [hwalk] at h
      dsimp only [bind, Except.bind] at h
      obtain ⟨tried, rest, hranking, hattempts, hcopies, hfirst, hstop⟩ := mapWalk_tried hwalk
      rw [Walk.init, List.nil_append] at hcopies
      rw [Walk.init, Nat.zero_add] at hattempts
      split at h
      · cases h
      · rename_i first others hsplit
        have hanswers : tried.filterMap (answer host q task.shard) = first :: others :=
          hcopies.symm.trans hsplit
        have hhost : w.firstHost = some first.1 := by simp [hfirst, hanswers, Walk.init]
        refine ⟨tried, rest, first, others, ?_⟩
        cases hverified :
          (decide (max config.redundancy 1 > 1) && decide (w.copies.length > 1)) with
        | false =>
            simp only [hverified] at h
            cases h
            have hsingle : 1 < max config.redundancy 1 → others = [] := by
              simpa [hsplit] using hverified
            refine ⟨hranking, hattempts, hanswers, by simp [hhost], ?_, ?_, rfl⟩
            · rwa [hattempts, hsplit] at hstop
            · simpa using hsingle
        | true =>
            simp only [hverified] at h
            have hseveral : 1 < max config.redundancy 1 ∧ others ≠ [] := by
              simpa [hsplit, List.length_pos_iff] using hverified
            cases hchosen : selectQuorum env.canonical w.copies config.quorum with
            | error e =>
                rw [hchosen] at h
                cases h
            | ok p =>
                rw [hchosen] at h
                cases h
                refine ⟨hranking, hattempts, hanswers, by simp [hhost], ?_,
                  by simpa using hseveral, ?_⟩
                · rwa [hattempts, hsplit] at hstop
                · rw [hsplit] at hchosen
                  exact hchosen

end MapOneShard

end CeQuery
