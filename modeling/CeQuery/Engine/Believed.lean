import CeQuery.Engine.Collection
import CeQuery.Engine.Faults

/-!
# Believed answers

No copies of projected rows are compared: a shard has the rows of the first host that
answers, whatever they are, and the redundancy and the quorum are not looked at
(`runProjection_copies`). On the other hand no host behind the first one that answers is
asked, so what it would say does not show (`runProjection_believing`). So it is enough to
know what the first answers are, and a run is one of hosts of which only these answer
(`MapHost.believing`).
-/

namespace CeQuery

/-- The first host that answers, of those that the shard may be asked of. -/
def firstAnswer (env : Externals) (host : MapHost) (config : RunConfig) (q : Query)
    (hosts : List String) (s : Shard) : Option String :=
  (askedHosts env config hosts s).find? (projectAnswers host q s)

/-- The hosts, with an error in place of rows that are not believed. -/
def MapHost.believing (host : MapHost) (believed : String → Shard → Bool) : MapHost where
  map := host.map
  project hostId s q :=
    if believed hostId s then host.project hostId s q
    else (host.project hostId s q).bind fun _ => .error .timeout

section Projection

variable {env : Externals} {host : MapHost} {config : RunConfig} {q : Query}
  {believed : String → Shard → Bool} {s : Shard} {shards : List Shard} {hosts : List String}

/-- Hosts that project the same for each live shard make the same runs. -/
theorem runProjection_congr {host' : MapHost} {config' : RunConfig} {clock : Nat → Nat → Nat}
    {order : List Nat} (hwidth : config.maxInFlight = config'.maxInFlight)
    (hlimits : config.limits = config'.limits)
    (h : ∀ s ∈ liveShards q shards, ∀ clock,
      projectOneShard host config q clock (rankedTo env hosts s) =
        projectOneShard host' config' q clock (rankedTo env hosts s)) :
    runProjection env host config q clock shards hosts order =
      runProjection env host' config' q clock shards hosts order := by
  have hentry : projectionEntry env config q shards hosts =
      projectionEntry env config' q shards hosts := by
    rw [projectionEntry, projectionEntry, hlimits]
  have hcap : collectCap config q = collectCap config' q := by
    rw [collectCap, collectCap, hlimits]
  rw [runProjection, runProjection, hentry]
  cases hlive : projectionEntry env config' q shards hosts with
  | error exit => rfl
  | ok live =>
      have hshards : live = liveShards q shards := by
        obtain ⟨e, he⟩ | he | ⟨_, he⟩ | he := projectionEntry_cases hlive
        · cases he
        · cases he
        · cases he
        · exact Except.ok.inj he
      have hsame : ∀ task ∈ runTasks env live hosts, ∀ acc,
          collect host config q clock acc task = collect host' config' q clock acc task := by
        intro task htask acc
        obtain ⟨s, hs, hranked⟩ := mem_runTasks htask
        rw [collect, collect, hranked, h s (hshards ▸ hs), hcap]
      have hwindow : projectionWindow env config live hosts =
          projectionWindow env config' live hosts := by
        rw [projectionWindow, projectionWindow, hwidth]
      dsimp only
      rw [hwindow, projectionWindow, Window.follow_prime_congr hsame]

/-- A walk is not changed by hosts behind the first that answers. -/
theorem projectWalk_believing {candidates attempts : Nat} {clock : Nat → Nat}
    {ranked : List String} {lastErr : Option MapError}
    (h : ∀ hostId, (ranked.take (max config.maxAttemptsPerShard 1 - attempts)).find?
      (projectAnswers host q s) = some hostId → believed hostId s = true) :
    projectWalk (host.believing believed) config q s candidates clock ranked attempts lastErr =
      projectWalk host config q s candidates clock ranked attempts lastErr := by
  induction ranked generalizing attempts lastErr with
  | nil => rfl
  | cons hostId rest ih =>
      rw [projectWalk, projectWalk]
      split
      · rfl
      · split
        · rfl
        · rename_i hcap
          have hleft : max config.maxAttemptsPerShard 1 - attempts =
              max config.maxAttemptsPerShard 1 - (attempts + 1) + 1 := by omega
          rw [hleft, List.take_succ_cons] at h
          cases hproject : host.project hostId s q with
          | error e =>
              have hsilent : projectAnswers host q s hostId = false := by
                rw [projectAnswers, hproject]
                rfl
              have hsame : (host.believing believed).project hostId s q = .error e := by
                simp only [MapHost.believing, hproject]
                split <;> rfl
              rw [hsame]
              refine ih fun next hnext => h next ?_
              rw [List.find?_cons, hsilent]
              exact hnext
          | ok rows =>
              have hanswers : projectAnswers host q s hostId = true := by
                rw [projectAnswers, hproject]
                rfl
              have hbelieved : believed hostId s = true :=
                h hostId (by rw [List.find?_cons, hanswers])
              have hsame : (host.believing believed).project hostId s q = .ok rows := by
                simp only [MapHost.believing, hbelieved, if_true, hproject]
              rw [hsame]

variable (believed) in
/-- A run in which the first answers are believed is one in which only these hosts
answer. -/
theorem runProjection_believing {clock : Nat → Nat → Nat} {order : List Nat}
    (h : ∀ s ∈ liveShards q shards, ∀ hostId,
      firstAnswer env host config q hosts s = some hostId → believed hostId s = true) :
    runProjection env (host.believing believed) config q clock shards hosts order =
      runProjection env host config q clock shards hosts order :=
  runProjection_congr rfl rfl fun s hs _ => projectWalk_believing (h s hs)

/-- The first host that answers is one of those asked. -/
theorem firstAnswer_mem {hostId : String}
    (h : firstAnswer env host config q hosts s = some hostId) : hostId ∈ hosts :=
  mem_rankHosts (List.mem_of_mem_take (List.mem_of_find?_eq_some h))

/-- Hosts of which only the first answers are believed project the tables, if these answers
do. -/
theorem believing_projects {store : String → List Row}
    (hfirst : ∀ hostId s, believed hostId s = true → ∀ rows,
      host.project hostId s q = .ok rows → rows = q.projectShard (store s.cid)) :
    (host.believing believed).Projects store q := by
  intro hostId s rows hproject
  change (if believed hostId s then host.project hostId s q
    else (host.project hostId s q).bind fun _ => .error .timeout) = .ok rows at hproject
  split at hproject
  · rename_i hbelieved
    exact hfirst hostId s hbelieved rows hproject
  · cases hsaid : host.project hostId s q with
    | error e =>
        rw [hsaid] at hproject
        cases hproject
    | ok said =>
        rw [hsaid] at hproject
        cases hproject

theorem projectWalk_copies {candidates attempts redundancy quorum : Nat} {clock : Nat → Nat}
    {ranked : List String} {lastErr : Option MapError} :
    projectWalk host { config with redundancy, quorum } q s candidates clock ranked attempts
        lastErr =
      projectWalk host config q s candidates clock ranked attempts lastErr := by
  induction ranked generalizing attempts lastErr with
  | nil => rfl
  | cons hostId rest ih =>
      rw [projectWalk, projectWalk]
      cases host.project hostId s q with
      | ok rows => rfl
      | error e => exact if_congr Iff.rfl rfl (if_congr Iff.rfl rfl ih)

/-- A projection is run alike whatever the redundancy and the quorum are. -/
theorem runProjection_copies {clock : Nat → Nat → Nat} {order : List Nat}
    (redundancy quorum : Nat) :
    runProjection env host { config with redundancy, quorum } q clock shards hosts order =
      runProjection env host config q clock shards hosts order :=
  runProjection_congr rfl rfl fun _ _ _ => projectWalk_copies

end Projection

end CeQuery
