import CeQuery.Plan
import CeQuery.Foundation.Ranking

/-!
# Rendezvous ranking

The hosts of a shard are ranked by their scores for it, equal scores by their ids. This
orders distinct hosts strictly, so the ranking depends on which hosts there are and not
on the order they are listed in, and hosts that go away are only deleted from it
(`RanksCanonically`). The scores are arbitrary; they may collide.
-/

namespace CeQuery

section Rendezvous

variable (score : String → String → U64) (shardCid : String) (hosts : List String)

/-- The first host has the greater score for the shard or, at equal scores, the
smaller id. -/
def Outranks (a b : String) : Prop :=
  (score shardCid b).val < (score shardCid a).val ∨
    (score shardCid a).val = (score shardCid b).val ∧ a < b

/-- The host that a shard is mapped on if no host fails. -/
def primaryHost : Option String :=
  fallbackHost score shardCid hosts 0

/-- What the ranking of the hosts depends on. -/
structure RanksCanonically : Prop where
  perm : (rankHosts score shardCid hosts).Perm hosts
  sorted : (rankHosts score shardCid hosts).Pairwise (Outranks score shardCid)
  /-- No other arrangement of the hosts is sorted. -/
  unique : ∀ others : List String, others.Perm hosts →
    others.Pairwise (Outranks score shardCid) → others = rankHosts score shardCid hosts
  /-- The order of the host list does not count. -/
  unordered : ∀ others : List String, others.Perm hosts →
    rankHosts score shardCid others = rankHosts score shardCid hosts
  /-- Hosts that go away are deleted from the ranking. -/
  removed : ∀ remains : String → Bool,
    rankHosts score shardCid (hosts.filter remains) =
      (rankHosts score shardCid hosts).filter remains
  kept : ∀ (remains : String → Bool) (host : String),
    primaryHost score shardCid hosts = some host → remains host = true →
      primaryHost score shardCid (hosts.filter remains) = some host
  /-- The next host in the ranking that remains takes over. -/
  rehomed : ∀ remains : String → Bool,
    primaryHost score shardCid (hosts.filter remains) =
      (rankHosts score shardCid hosts).find? remains
  added : ∀ (host : String) (others : List String), others.Perm (host :: hosts) →
    primaryHost score shardCid others = some host ∨
      primaryHost score shardCid others = primaryHost score shardCid hosts
  /-- The plan tries the hosts of a shard in the order of the ranking. -/
  planned : ∀ (shards : List Shard), ∀ task ∈ plan score shards hosts,
    task.shard.cid = shardCid →
      ∀ attempt, task.rankedHosts[attempt]? = fallbackHost score shardCid hosts attempt

/-- The comparison of hosts behind the ranking. -/
def hostCmp (a b : String) : Ordering :=
  (compare (score shardCid b).val (score shardCid a).val).then (compare a b)

instance : Std.TransCmp (hostCmp score shardCid) := by
  have hscore : Std.TransCmp fun a b => compareOn (fun h => (score shardCid h).val) b a :=
    .opposite
  exact inferInstanceAs (Std.TransCmp (compareLex
    (fun a b => compareOn (fun h => (score shardCid h).val) b a) compare))

instance : Std.LawfulEqCmp (hostCmp score shardCid) where
  eq_of_compare h := Std.LawfulEqOrd.eq_of_compare (Ordering.then_eq_eq.mp h).2

theorem hostCmp_eq_lt {a b : String} :
    hostCmp score shardCid a b = .lt ↔ Outranks score shardCid a b := by
  have hid : compare a b = .lt ↔ a < b := compareOfLessAndEq_eq_lt
  rw [hostCmp, Outranks, Ordering.then_eq_lt, hid, compare_lt_iff_lt, compare_eq_iff_eq]
  exact or_congr_right (and_congr_left fun _ => eq_comm)

theorem rankHosts_eq_ranked :
    rankHosts score shardCid hosts = ranked (hostCmp score shardCid) hosts := by
  have hscored := List.map_insertionSort (NotAfter (hostCmp score shardCid))
    (NotAfter fun a b : Int × String => (compare b.1 a.1).then (compare a.2 b.2))
    (fun h => ((score shardCid h).val, h)) hosts fun _ _ _ _ => Iff.rfl
  rw [ranked, ← List.map_id (List.insertionSort _ hosts)]
  change List.map Prod.snd (List.insertionSort _ (hosts.map _)) = _
  rw [← hscored, List.map_map]
  rfl

variable {score shardCid hosts}

theorem primaryHost_eq_head? :
    primaryHost score shardCid hosts = (ranked (hostCmp score shardCid) hosts).head? := by
  rw [primaryHost, fallbackHost, rankHosts_eq_ranked, List.head?_eq_getElem?]

/-- The comparison puts two hosts in order as the scores and the ids do. -/
theorem pairwise_notAfter_of_outranks {ranking : List String}
    (h : ranking.Pairwise (Outranks score shardCid)) :
    ranking.Pairwise (NotAfter (hostCmp score shardCid)) := by
  refine h.imp fun {a b} hab hgt => ?_
  rw [← hostCmp_eq_lt, hgt] at hab
  cases hab

theorem rehomed_filter (remains : String → Bool) :
    primaryHost score shardCid (hosts.filter remains) =
      (rankHosts score shardCid hosts).find? remains := by
  rw [primaryHost_eq_head?, ranked_filter, rankHosts_eq_ranked, List.head?_filter]

theorem kept_filter {remains : String → Bool} {host : String}
    (hprimary : primaryHost score shardCid hosts = some host) (hremains : remains host = true) :
    primaryHost score shardCid (hosts.filter remains) = some host := by
  rw [rehomed_filter, rankHosts_eq_ranked]
  rw [primaryHost_eq_head?] at hprimary
  obtain ⟨rest, hrest⟩ := List.head?_eq_some_iff.mp hprimary
  rw [hrest, List.find?_cons_of_pos hremains]

/-- Another host takes over a shard or leaves it where it is. -/
theorem primaryHost_added {host : String} {others : List String}
    (h : others.Perm (host :: hosts)) :
    primaryHost score shardCid others = some host ∨
      primaryHost score shardCid others = primaryHost score shardCid hosts := by
  rw [primaryHost_eq_head?, primaryHost_eq_head?, ranked_eq_of_perm h]
  exact head?_ranked_cons _ host hosts

theorem planned_fallback {shards : List Shard} {task : ShardTask}
    (htask : task ∈ plan score shards hosts) (hcid : task.shard.cid = shardCid) (attempt : Nat) :
    task.rankedHosts[attempt]? = fallbackHost score shardCid hosts attempt := by
  obtain ⟨shard, _, rfl⟩ := List.mem_map.mp htask
  rw [fallbackHost, ← hcid]

end Rendezvous

/-- Distinct hosts have one ranking, and it changes with the hosts no more than it must. -/
theorem rankHosts_canonical (score : String → String → U64) (shardCid : String)
    (hosts : List String) (hdistinct : hosts.Nodup) : RanksCanonically score shardCid hosts where
  perm := rankHosts_eq_ranked score shardCid hosts ▸ ranked_perm _ hosts
  sorted := by
    rw [rankHosts_eq_ranked]
    exact (ranked_strict hdistinct).imp (hostCmp_eq_lt score shardCid).mp
  unique others hperm hsorted := by
    rw [rankHosts_eq_ranked]
    exact eq_ranked hperm (pairwise_notAfter_of_outranks hsorted)
  unordered others hperm := by
    rw [rankHosts_eq_ranked, rankHosts_eq_ranked]
    exact ranked_eq_of_perm hperm
  removed remains := by
    rw [rankHosts_eq_ranked, rankHosts_eq_ranked]
    exact ranked_filter remains
  kept _ _ := kept_filter
  rehomed := rehomed_filter
  added _ _ := primaryHost_added
  planned _ _ := planned_fallback

/-- Three hosts, two of them with the same score. -/
theorem rankHosts_canonical_tie :
    RanksCanonically (fun _ host => if host = "b" then U64.one else U64.zero) "shard"
      ["c", "b", "a"] :=
  rankHosts_canonical _ "shard" ["c", "b", "a"] (by decide)

end CeQuery
