import CeQuery.Combine.Reference

/-!
# Map-reduce equals the single pass

`Query.Reference` describes a partial by the rows it was computed from: the
groups are those of the rows that pass the filter, and every accumulator is
described by the rows of its group. Mapping a shard establishes it
(`mapShard_reference`) and merging preserves it (`reference_summary`), so it
holds of every merge tree over every distribution of the rows.

The last step of a query is not total: an exact sum is converted to a JSON
number, and the conversion has only 64 bits. `mapReduce_answers_iff` states the
whole answer together with the exact condition under which it is produced.
-/

namespace CeQuery

namespace Query

variable (json : SerdeJson) (q : Query)

/-- The rows of one group: they pass the filter and have the key. -/
def members (key : List String) (rows : List Row) : List Row :=
  rows.filter fun row => q.predicate.eval row && decide (q.groupKey json row = key)

/-- Every sum of the query stays in the integer lane on these rows. -/
def ExactSums (rows : List Row) : Prop :=
  ∀ f, .sum f ∈ q.aggregates → ExactSum f rows

/-- A group that is absent has no rows; the accumulators of one that is present
are described by its rows. -/
def GroupDescribed (group : List Row) : Option (List Accum) → Prop
  | none => group = []
  | some accs =>
      group ≠ [] ∧ List.Forall₂ (fun agg acc => agg.Describes group acc) q.aggregates accs

/-- The partial of a list of rows: exactly the groups of the rows, described by
their members. -/
structure Reference (rows : List Row) (p : Partial) : Prop where
  aggregates : p.aggregates = q.aggregates
  groups : ∀ key, q.GroupDescribed (q.members json key rows) p.groups[key]?

/-- The output rows list the groups in key order, each of them once. -/
structure Lists (rows : List Row) (out : List GroupResult) : Prop where
  sorted : (out.map (·.key)).Pairwise fun a b => compare a b = .lt
  keys : ∀ key, key ∈ out.map (·.key) ↔
    ∃ row ∈ rows, q.predicate.eval row = true ∧ q.groupKey json row = key

/-- The merged partial is the one of the rows, and finalising it lists the
groups. -/
def Answers (rows : List Row) (p : Partial) : Prop :=
  q.Reference json rows p ∧ ∃ out, p.finalize json = some out ∧ q.Lists json rows out

variable {json q}
variable {rows xs ys : List Row} {key : List String}

theorem members_append :
    q.members json key (xs ++ ys) = q.members json key xs ++ q.members json key ys :=
  List.filter_append _ _

theorem members_perm (h : xs.Perm ys) : (q.members json key xs).Perm (q.members json key ys) :=
  h.filter _

theorem members_ne_nil :
    q.members json key rows ≠ [] ↔
      ∃ row ∈ rows, q.predicate.eval row = true ∧ q.groupKey json row = key := by
  simp only [members, ne_eq, List.filter_eq_nil_iff]
  simp

theorem ExactSums.exact (h : q.ExactSums ys) {agg : Agg} (hagg : agg ∈ q.aggregates)
    (hsub : xs.Sublist ys) : agg.Exact xs := by
  cases agg with
  | sum f => exact (h f hagg).sublist hsub
  | _ => trivial

theorem ExactSums.sublist (h : q.ExactSums ys) (hsub : xs.Sublist ys) : q.ExactSums xs :=
  fun f hf => (h f hf).sublist hsub

theorem ExactSums.perm (h : q.ExactSums xs) (hperm : xs.Perm ys) : q.ExactSums ys :=
  fun f hf => (h f hf).perm hperm

/-! ## Positions -/

/-- Folding a row touches every position by its own aggregate. -/
private theorem forall₂_foldRow {R R' : Agg → Accum → Prop} {row : Row} {aggs : List Agg}
    {accs : List Accum} (h : List.Forall₂ R aggs accs)
    (hstep : ∀ agg ∈ aggs, ∀ acc, R agg acc → R' agg (agg.fold row acc)) :
    List.Forall₂ R' aggs (foldRow row aggs accs) := by
  induction h with
  | nil => exact .nil
  | cons hacc _ ih =>
      refine .cons (hstep _ List.mem_cons_self _ hacc) (ih ?_)
      intro agg hagg
      exact hstep agg (List.mem_cons_of_mem _ hagg)

/-- Merging touches every position by its own aggregate. -/
private theorem forall₂_mergeAccs {R R' R'' : Agg → Accum → Prop} {aggs : List Agg}
    {as bs : List Accum} (ha : List.Forall₂ R aggs as) (hb : List.Forall₂ R' aggs bs)
    (hstep : ∀ agg ∈ aggs, ∀ a b, R agg a → R' agg b → R'' agg (a.merge b)) :
    List.Forall₂ R'' aggs (mergeAccs as bs) := by
  induction ha generalizing bs with
  | nil =>
      cases hb
      exact .nil
  | cons hacc _ ih =>
      cases hb with
      | cons hother hrest =>
          refine .cons (hstep _ List.mem_cons_self _ _ hacc hother) (ih hrest ?_)
          intro agg hagg
          exact hstep agg (List.mem_cons_of_mem _ hagg)

/-! ## The map side -/

/-- Folding a group row by row describes the rows folded so far, if the integer
lane carries each of its beginnings. -/
private theorem foldl_foldRow_described
    (h : ∀ zs, zs <+: ys → ∀ agg ∈ q.aggregates, agg.Carried (xs ++ zs)) {accs : List Accum}
    (haccs : List.Forall₂ (fun agg acc => agg.Describes xs acc) q.aggregates accs) :
    List.Forall₂ (fun agg acc => agg.Describes (xs ++ ys) acc) q.aggregates
      (ys.foldl (fun accs row => foldRow row q.aggregates accs) accs) := by
  induction ys generalizing xs accs with
  | nil => simpa using haccs
  | cons row ys ih =>
      have hsplit : ∀ zs, xs ++ row :: zs = (xs ++ [row]) ++ zs := by simp
      rw [hsplit]
      refine ih ?_ (forall₂_foldRow haccs ?_)
      · intro zs hzs
        rw [← hsplit]
        exact h (row :: zs) (List.cons_prefix_cons.mpr ⟨rfl, hzs⟩)
      · intro agg hagg acc hacc
        exact hacc.fold (h [row] (List.cons_prefix_cons.mpr ⟨rfl, ys.nil_prefix⟩) agg hagg)

/-- Under a key stands the fold of the members of its group. -/
theorem getElem?_mapShard (key : List String) :
    (q.mapShard json rows).groups[key]? =
      match q.members json key rows with
      | [] => none
      | group => some (group.foldl (fun accs row => foldRow row q.aggregates accs)
          (q.aggregates.map Agg.zero)) := by
  have hgroup : q.members json key rows =
      (rows.filter fun row => q.predicate.eval row).filter
        fun row => q.groupKey json row = key := by
    rw [List.filter_filter, members]
    simp only [Bool.and_comm]
  rw [mapShard, ← List.foldl_filter, BTreeMap.getElem?_foldl_upsert, hgroup]
  cases (rows.filter fun row => q.predicate.eval row).filter
      fun row => q.groupKey json row = key with
  | nil => simp
  | cons row group => simp

/-- A mapped shard describes each of its groups. -/
theorem mapShard_described (h : ∀ zs, zs <+: q.members json key rows →
    ∀ agg ∈ q.aggregates, agg.Carried zs) :
    q.GroupDescribed (q.members json key rows) (q.mapShard json rows).groups[key]? := by
  rw [getElem?_mapShard]
  cases hgroup : q.members json key rows with
  | nil => rfl
  | cons row group =>
      rw [hgroup] at h
      refine ⟨by simp, ?_⟩
      have hzero : List.Forall₂ (fun agg acc => agg.Describes [] acc) q.aggregates
          (q.aggregates.map Agg.zero) := by
        rw [List.forall₂_map_right_iff, List.forall₂_same]
        intro agg _
        exact agg.describes_zero
      exact foldl_foldRow_described h hzero

/-- Mapping a shard gives the partial of its rows. -/
theorem mapShard_reference (h : q.ExactSums rows) :
    q.Reference json rows (q.mapShard json rows) := by
  refine ⟨rfl, ?_⟩
  intro key
  apply mapShard_described
  intro zs hzs agg hagg
  exact (h.exact hagg (hzs.sublist.trans List.filter_sublist)).carried

/-! ## The reduce side -/

/-- Merging the accumulators of one group describes both row lists together. -/
theorem GroupDescribed.merge (h : ∀ agg ∈ q.aggregates, agg.Carried (xs ++ ys))
    {as bs : Option (List Accum)} (ha : q.GroupDescribed xs as) (hb : q.GroupDescribed ys bs) :
    q.GroupDescribed (xs ++ ys) (as.merge mergeAccs bs) := by
  cases as with
  | none =>
      have hxs : xs = [] := ha
      rw [hxs, Option.merge_none_left]
      exact hb
  | some as =>
      cases bs with
      | none =>
          have hys : ys = [] := hb
          rw [hys, List.append_nil, Option.merge_none_right]
          exact ha
      | some bs =>
          refine ⟨List.append_ne_nil_of_left_ne_nil ha.1 _, ?_⟩
          apply forall₂_mergeAccs ha.2 hb.2
          intro agg hagg acc other hacc hother
          exact hacc.merge (h agg hagg) hother

/-- Merging two partials gives the partial of both row lists together. -/
theorem Reference.merge (h : q.ExactSums (xs ++ ys)) {a b : Partial}
    (ha : q.Reference json xs a) (hb : q.Reference json ys b) :
    q.Reference json (xs ++ ys) (a.merge b) := by
  refine ⟨ha.aggregates, ?_⟩
  intro key
  rw [Partial.merge, BTreeMap.getElem?_absorb, members_append]
  refine GroupDescribed.merge ?_ (ha.groups key) (hb.groups key)
  intro agg hagg
  exact (h.exact hagg (List.filter_sublist.append List.filter_sublist)).carried

/-- The order of the rows of a group does not show. -/
theorem GroupDescribed.perm (hperm : xs.Perm ys) {accs : Option (List Accum)}
    (h : q.GroupDescribed xs accs) : q.GroupDescribed ys accs := by
  cases accs with
  | none =>
      have hxs : xs = [] := h
      exact List.perm_nil.mp (hxs ▸ hperm.symm)
  | some accs =>
      refine ⟨fun hys => h.1 (List.perm_nil.mp (hys ▸ hperm)), ?_⟩
      exact h.2.imp fun agg acc hacc => hacc.perm hperm

/-- The description of partials is a summary of their rows. -/
theorem reference_summary : MergeTree.Summary
    (fun rows p => q.ExactSums rows → q.Reference json rows p) (.empty q.aggregates)
    Partial.merge where
  nil := by
    intro _
    refine ⟨rfl, ?_⟩
    intro key
    simp [Partial.empty, GroupDescribed, members]
  append := by
    intro xs ys a b ha hb h
    exact Reference.merge h (ha (h.sublist (List.sublist_append_left _ _)))
      (hb (h.sublist (List.sublist_append_right _ _)))
  perm := by
    intro xs ys p hp hperm h
    obtain ⟨haggs, hgroups⟩ := hp (h.perm hperm.symm)
    exact ⟨haggs, fun key => (hgroups key).perm (members_perm hperm)⟩

/-- Whatever the shards, the order and the grouping, the merged partial is the
partial of all rows. -/
theorem reference_eval (h : q.ExactSums rows) (tree : MergeTree (List Row))
    (hdist : tree.parts.flatten.Perm rows) :
    q.Reference json rows
      (tree.eval (.empty q.aggregates) Partial.merge (q.mapShard json)) :=
  reference_summary.eval_perm (fun _ => mapShard_reference) tree hdist h

/-! ## Finalisation -/

/-- Only a sum can fail to become an output value. -/
theorem finalizeValue_isSome (hjson : json.ConvertsI128) {agg : Agg} {acc : Accum}
    (h : agg.Describes rows acc) : (acc.finalizeValue json).isSome = true ↔
      ∀ f, agg = .sum f → JsonInteger (integralCells f rows).sum := by
  cases agg <;> cases acc <;> simp only [Agg.Describes] at h
  case sum.intSum f n =>
    rw [Accum.finalizeValue, hjson, h]
    simp
  case min.min f m => cases m <;> simp [Accum.finalizeValue]
  case max.max f m => cases m <;> simp [Accum.finalizeValue]
  case avg.avg f k n =>
    simp only [Accum.finalizeValue]
    split <;> simp
  all_goals simp [Accum.finalizeValue]

private theorem finalizeAccs_isSome (hjson : json.ConvertsI128) {aggs : List Agg}
    {accs : List Accum} (h : List.Forall₂ (fun agg acc => agg.Describes rows acc) aggs accs)
    (values : BTreeMap String Value) : (finalizeAccs json aggs accs values).isSome = true ↔
      ∀ f, .sum f ∈ aggs → JsonInteger (integralCells f rows).sum := by
  induction h generalizing values with
  | nil => simp [finalizeAccs]
  | @cons agg acc aggs accs hacc _ ih =>
      have hhead := finalizeValue_isSome hjson hacc
      have hcons : (∀ f, Agg.sum f ∈ agg :: aggs → JsonInteger (integralCells f rows).sum) ↔
          (∀ f, agg = .sum f → JsonInteger (integralCells f rows).sum) ∧
            ∀ f, Agg.sum f ∈ aggs → JsonInteger (integralCells f rows).sum := by
        simp only [List.mem_cons, or_imp, forall_and, eq_comm]
      rw [hcons, ← hhead, finalizeAccs]
      cases hvalue : acc.finalizeValue json with
      | none => simp
      | some value => simpa using ih (values.insert agg.outputName value)

/-- A described partial lists its groups whenever it can be finalised. -/
theorem Reference.lists {p : Partial} (h : q.Reference json rows p)
    {out : List GroupResult} (hout : p.finalize json = some out) : q.Lists json rows out := by
  constructor
  · rw [Partial.finalize_keys hout]
    exact Std.ExtTreeMap.ordered_keys
  · intro key
    have hkey := h.groups key
    rw [Partial.finalize_keys hout, Std.ExtTreeMap.mem_keys, ← members_ne_nil,
      Std.ExtTreeMap.mem_iff_isSome_getElem?]
    cases hget : p.groups[key]? with
    | none =>
        rw [hget] at hkey
        have hempty : q.members json key rows = [] := hkey
        simp [hempty]
    | some accs =>
        rw [hget] at hkey
        simpa using hkey.1

/-- Described groups can be finalised exactly if every total is a JSON integer. -/
theorem finalize_isSome_iff (hjson : json.ConvertsI128) {p : Partial}
    (haggs : p.aggregates = q.aggregates)
    (hgroups : ∀ key, q.GroupDescribed (q.members json key rows) p.groups[key]?) :
    (p.finalize json).isSome = true ↔ ∀ key f, .sum f ∈ q.aggregates →
      JsonInteger (integralCells f (q.members json key rows)).sum := by
  rw [Partial.finalize_isSome, haggs]
  constructor
  · intro hfinal key
    have hkey := hgroups key
    cases hget : p.groups[key]? with
    | none =>
        rw [hget] at hkey
        have hempty : q.members json key rows = [] := hkey
        intro f _
        rw [hempty]
        change JsonInteger 0
        decide
    | some accs =>
        rw [hget] at hkey
        exact (finalizeAccs_isSome hjson hkey.2 ∅).mp (hfinal key accs hget)
  · intro hsums key accs hget
    have hkey := hgroups key
    rw [hget] at hkey
    exact (finalizeAccs_isSome hjson hkey.2 ∅).mpr (hsums key)

/-- The merged partial of any shards answers the query exactly if every exact
sum of every group is a JSON integer. -/
theorem mapReduce_answers_iff (hjson : json.ConvertsI128) (h : q.ExactSums rows)
    (tree : MergeTree (List Row)) (hdist : tree.parts.flatten.Perm rows) :
    q.Answers json rows (tree.eval (.empty q.aggregates) Partial.merge (q.mapShard json)) ↔
      ∀ key f, .sum f ∈ q.aggregates →
        JsonInteger (integralCells f (q.members json key rows)).sum := by
  have href : q.Reference json rows _ := reference_eval h tree hdist
  rw [← finalize_isSome_iff hjson href.aggregates href.groups, Option.isSome_iff_exists]
  constructor
  · rintro ⟨_, out, hout, _⟩
    exact ⟨out, hout⟩
  · rintro ⟨out, hout⟩
    exact ⟨href, out, hout, href.lists hout⟩

private def sampleQuery : Query where
  dataset := "t"
  aggregates := [.count, .sum "v", .min "v", .avg "v"]
  predicate := .not (.cmp "v" .eq (.string "9"))
  groupBy := ["g"]
  orderBy := []
  limit := none
  projection := none

private def sampleRow (g : String) (v : Value) : Row :=
  .ofList [("g", .string g), ("v", v)]

private def sampleRows : List Row :=
  [sampleRow "a" (.string "7"), sampleRow "b" (.ofU64 U64.one), sampleRow "a" (.string "9")]

/-- Three rows over two shards and an empty one, merged out of order. -/
theorem mapReduce_answers_iff_three_rows : sampleQuery.Answers .sample sampleRows
    ((MergeTree.merge (.part (sampleRows.drop 1))
      (.merge (.part []) (.part (sampleRows.take 1)))).eval
      (.empty sampleQuery.aggregates) Partial.merge (sampleQuery.mapShard .sample)) := by
  have hfield : ∀ f, Agg.sum f ∈ sampleQuery.aggregates → f = "v" := by
    simp [sampleQuery]
  refine (mapReduce_answers_iff SerdeJson.sample_convertsI128 ?_ _ ?_).mpr ?_
  · intro f hf
    rw [hfield f hf]
    decide
  · have hcomm : (sampleRows.drop 1 ++ sampleRows.take 1).Perm sampleRows :=
      List.perm_append_comm.trans (List.Perm.of_eq (List.take_append_drop 1 sampleRows))
    simpa [MergeTree.parts] using hcomm
  · intro key f hf
    rw [hfield f hf]
    have hsmall : ((integralCells "v" sampleRows).map Int.natAbs).sum ≤ 2 ^ 63 - 1 := by decide
    exact ExactSum.jsonInteger_of_total hsmall List.filter_sublist

/-- Two rows whose exact sum needs 65 bits. -/
private def wideRows : List Row :=
  let cell := Value.ofU64 (U64.wrap (2 ^ 64 - 1))
  [.ofList [("v", cell)], .ofList [("v", cell)]]

private def sumQuery : Query :=
  { sampleQuery with aggregates := [.sum "v"], predicate := .true, groupBy := [] }

/-- The sum of two `u64` cells fits the accumulator, yet finalising it panics. -/
theorem mapReduce_wide_sum : sumQuery.ExactSums wideRows ∧
    ¬sumQuery.Answers .sample wideRows
      ((MergeTree.leftFold [wideRows]).eval (.empty sumQuery.aggregates) Partial.merge
        (sumQuery.mapShard .sample)) := by
  have hexact : sumQuery.ExactSums wideRows := by
    intro f hf
    have hv : f = "v" := by simpa [sumQuery] using hf
    rw [hv]
    decide
  refine ⟨hexact, ?_⟩
  rintro ⟨_, out, hout, _⟩
  have hnone : (((MergeTree.leftFold [wideRows]).eval (.empty sumQuery.aggregates) Partial.merge
      (sumQuery.mapShard .sample)).finalize .sample).isSome = false := by decide
  simp [hout] at hnone

end Query

/-- The coordinator's fold over the shards is one of the schedules. -/
theorem reduce_mapShard (json : SerdeJson) (q : Query) (shards : List (List Row)) :
    reduce q.aggregates (shards.map (q.mapShard json)) =
      (MergeTree.leftFold shards).eval (.empty q.aggregates) Partial.merge (q.mapShard json) := by
  rw [reduce, MergeTree.eval_leftFold, List.foldl_map]

end CeQuery
