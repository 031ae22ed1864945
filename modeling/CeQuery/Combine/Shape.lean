import CeQuery.Engine.RunOrder
import Mathlib.Data.List.Induction

/-!
# The shape of partials

A reply is accepted whatever accumulators its partial holds. Merging is lenient: it
goes position by position, leaves what the other side lacks, and ignores an
accumulator of another kind. So the first partial that brings a group decides what
the group holds (`kinds_reduce`): accumulators that it lacks are missing in the
output, and well-formed contributions to them are discarded.

`run_shape_iff` states when every output row is whole and nothing is discarded.
-/

namespace CeQuery

inductive AccumKind where
  | count
  | sum
  | min
  | max
  | avg
  deriving DecidableEq

/-- The kind of an accumulator. A sum has two lanes. -/
def Accum.kind : Accum → AccumKind
  | count _ => .count
  | intSum _ => .sum
  | sum _ => .sum
  | min _ => .min
  | max _ => .max
  | avg _ _ => .avg

def Agg.kind : Agg → AccumKind
  | count => .count
  | sum _ => .sum
  | min _ => .min
  | max _ => .max
  | avg _ => .avg

def kinds (accs : List Accum) : List AccumKind :=
  accs.map Accum.kind

/-- One accumulator for each aggregate of the query, and one key column for each
`GROUP BY` column. -/
structure Partial.WellFormed (q : Query) (p : Partial) : Prop where
  aggregates : p.aggregates = q.aggregates
  keys : ∀ (key : List String) accs, p.groups[key]? = some accs →
    key.length = q.groupBy.length
  accums : ∀ (key : List String) accs, p.groups[key]? = some accs →
    kinds accs = q.aggregates.map Agg.kind

/-- The row has a key column for each `GROUP BY` column, and under the output name of
each aggregate a value, which is the only one there. -/
structure GroupResult.Whole (q : Query) (row : GroupResult) : Prop where
  columns : row.key.length = q.groupBy.length
  values : ∀ agg ∈ q.aggregates, (row.values[agg.outputName]?).isSome = true

/-- Whenever a well-formed partial is merged into those before it, each of its
accumulators meets one of its kind, if its group is there already. -/
def NothingDiscarded (q : Query) (partials : List Partial) : Prop :=
  ∀ before p after, partials = before ++ p :: after → p.WellFormed q →
    ∀ (key : List String) accs, p.groups[key]? = some accs →
      ∀ present, (reduce q.aggregates before).groups[key]? = some present →
        kinds accs <+: kinds present

/-- What the first partial that has the group holds under it. -/
def firstAccs (partials : List Partial) (key : List String) : Option (List Accum) :=
  partials.findSome? fun p => p.groups[key]?

/-- What the first partial of each group has to be like: its key is one of the query,
its accumulators reach every output name, and if a well-formed partial has the group
as well, they are those of the aggregates. -/
structure FirstWhole (q : Query) (partials : List Partial) (key : List String)
    (first : List Accum) : Prop where
  columns : key.length = q.groupBy.length
  names : ∀ agg ∈ q.aggregates,
    agg.outputName ∈ (q.aggregates.take first.length).map Agg.outputName
  kinds : ∀ p ∈ partials, p.WellFormed q → (p.groups[key]?).isSome = true →
    q.aggregates.map Agg.kind <+: kinds first

section Reduce

variable {q : Query} {aggregates : List Agg} {partials before after : List Partial} {p : Partial}
  {key : List String} {as bs : List Accum}

theorem Accum.kind_merge (a b : Accum) : (a.merge b).kind = a.kind := by
  cases a
  case intSum x =>
    cases b
    case intSum y =>
      rw [merge]
      cases x.checkedAdd y <;> rfl
    all_goals rfl
  all_goals cases b <;> rfl

/-- Merging keeps the number and the kinds of the accumulators. -/
theorem kinds_mergeAccs : kinds (mergeAccs as bs) = kinds as := by
  induction as generalizing bs with
  | nil => rfl
  | cons a as ih =>
      cases bs with
      | nil => rfl
      | cons b bs =>
          have hrest : kinds (mergeAccs as bs) = kinds as := ih
          simp only [kinds, mergeAccs, List.map_cons, Accum.kind_merge] at hrest ⊢
          rw [hrest]

theorem reduce_append_singleton :
    reduce aggregates (before ++ [p]) = (reduce aggregates before).merge p := by
  rw [reduce, reduce, List.foldl_append]
  rfl

theorem reduce_aggregates : (reduce aggregates partials).aggregates = aggregates := by
  induction partials using List.reverseRecOn with
  | nil => rfl
  | append_singleton before p ih =>
      rw [reduce_append_singleton]
      exact ih

/-- The first partial that has a group decides the kinds of its accumulators. -/
theorem kinds_reduce (partials : List Partial) (key : List String) :
    ((reduce aggregates partials).groups[key]?).map kinds = (firstAccs partials key).map kinds := by
  induction partials using List.reverseRecOn with
  | nil => simp [reduce, Partial.empty, firstAccs]
  | append_singleton before p ih =>
      have hmerged : (reduce aggregates (before ++ [p])).groups[key]? =
          ((reduce aggregates before).groups[key]?).merge mergeAccs p.groups[key]? := by
        rw [reduce_append_singleton]
        exact BTreeMap.getElem?_absorb mergeAccs _ _ key
      have hfirst : firstAccs (before ++ [p]) key = (firstAccs before key).or p.groups[key]? := by
        simp [firstAccs, List.findSome?_append]
      rw [hmerged, hfirst]
      cases hpresent : (reduce aggregates before).groups[key]? with
      | none =>
          rw [hpresent] at ih
          have hnone : firstAccs before key = none := by simpa using ih.symm
          rw [hnone, Option.none_or, Option.merge_none_left]
      | some as =>
          rw [hpresent] at ih
          obtain ⟨bs, hbs, hkinds⟩ := Option.map_eq_some_iff.mp ih.symm
          rw [hbs, Option.some_or, Option.map_some, hkinds]
          cases p.groups[key]? with
          | none => rfl
          | some cs => exact congrArg some kinds_mergeAccs

/-- What a group holds in the end is as its first partial had it. -/
theorem exists_reduce_of_first {first : List Accum} (h : firstAccs partials key = some first) :
    ∃ accs, (reduce aggregates partials).groups[key]? = some accs ∧ kinds accs = kinds first := by
  have hkinds : ((reduce aggregates partials).groups[key]?).map kinds = _ :=
    kinds_reduce partials key
  rw [h, Option.map_some] at hkinds
  exact Option.map_eq_some_iff.mp hkinds

theorem exists_first_of_reduce (h : (reduce aggregates partials).groups[key]? = some as) :
    ∃ first, firstAccs partials key = some first ∧ kinds first = kinds as := by
  have hkinds : ((reduce aggregates partials).groups[key]?).map kinds = _ :=
    kinds_reduce partials key
  rw [h, Option.map_some] at hkinds
  exact Option.map_eq_some_iff.mp hkinds.symm

/-- A partial brings a group unless one before it does. -/
theorem firstAccs_append (before after : List Partial) (key : List String) :
    firstAccs (before ++ p :: after) key =
      (firstAccs before key).or (p.groups[key]?.or (firstAccs after key)) := by
  simp only [firstAccs, List.findSome?_append, List.findSome?_cons]
  cases p.groups[key]? <;> rfl

theorem nothingDiscarded_iff : NothingDiscarded q partials ↔
    ∀ key first, firstAccs partials key = some first → ∀ p ∈ partials, p.WellFormed q →
      (p.groups[key]?).isSome = true → q.aggregates.map Agg.kind <+: kinds first := by
  constructor
  · intro h key first hfirst p hp hwell hgroup
    obtain ⟨before, after, rfl⟩ := List.append_of_mem hp
    obtain ⟨accs, haccs⟩ := Option.isSome_iff_exists.mp hgroup
    rw [firstAccs_append, haccs] at hfirst
    rw [← hwell.accums key accs haccs]
    cases hbefore : firstAccs before key with
    | none =>
        rw [hbefore] at hfirst
        cases hfirst
        exact List.prefix_rfl
    | some fst =>
        rw [hbefore] at hfirst
        cases hfirst
        obtain ⟨present, hpresent, hkinds⟩ := exists_reduce_of_first hbefore
        rw [← hkinds]
        exact h before p after rfl hwell key accs haccs present hpresent
  · rintro h before p after rfl hwell key accs haccs present hpresent
    obtain ⟨first, hfirst, hkinds⟩ := exists_first_of_reduce hpresent
    rw [hwell.accums key accs haccs, ← hkinds]
    refine h key first ?_ p (by simp) hwell (by rw [haccs]; rfl)
    rw [firstAccs_append, hfirst, Option.some_or]

end Reduce

/-! ## Output rows -/

section Finalize

variable {json : SerdeJson} {q : Query} {partials : List Partial} {rows : List GroupResult}

/-- The values of a row are those of the aggregates that have an accumulator. -/
theorem isSome_finalizeAccs {aggs : List Agg} {accs : List Accum}
    {values out : BTreeMap String Value} (h : finalizeAccs json aggs accs values = some out)
    (name : String) : (out[name]?).isSome = true ↔
      (values[name]?).isSome = true ∨ name ∈ (aggs.take accs.length).map Agg.outputName := by
  induction aggs generalizing accs values with
  | nil =>
      rw [finalizeAccs] at h
      · cases h
        simp
      · simp
  | cons agg aggs ih =>
      cases accs with
      | nil =>
          rw [finalizeAccs] at h
          · cases h
            simp
          · simp
      | cons acc accs =>
          obtain ⟨value, _, hrest⟩ := Option.bind_eq_some_iff.mp h
          rw [ih hrest, List.length_cons, List.take_succ_cons, List.map_cons, List.mem_cons,
            Std.ExtTreeMap.getElem?_insert]
          by_cases hname : name = agg.outputName
          · subst hname
            simp
          · have hcmp : compare agg.outputName name ≠ .eq :=
              fun h => hname (Std.LawfulEqOrd.eq_of_compare h).symm
            simp [hcmp, hname]

/-- The output rows are whole exactly if the first partials of their groups are. -/
theorem whole_iff (hrows : (reduce q.aggregates partials).finalize json = some rows) :
    (∀ row ∈ rows, row.Whole q) ↔ ∀ key first, firstAccs partials key = some first →
      key.length = q.groupBy.length ∧ ∀ agg ∈ q.aggregates,
        agg.outputName ∈ (q.aggregates.take first.length).map Agg.outputName := by
  have hvalues : ∀ {accs first : List Accum} {values : BTreeMap String Value},
      kinds accs = kinds first →
      finalizeAccs json (reduce q.aggregates partials).aggregates accs ∅ = some values →
      ∀ name : String, (values[name]?).isSome = true ↔
        name ∈ (q.aggregates.take first.length).map Agg.outputName := by
    intro accs first values hkinds hfinal name
    have hlength := congrArg List.length hkinds
    rw [kinds, kinds, List.length_map, List.length_map] at hlength
    rw [reduce_aggregates] at hfinal
    rw [isSome_finalizeAccs hfinal, hlength]
    simp
  constructor
  · intro h key first hfirst
    obtain ⟨accs, haccs, hkinds⟩ := exists_reduce_of_first hfirst
    have hentry := Std.ExtTreeMap.mem_toList_iff_getElem?_eq_some.mpr haccs
    obtain ⟨row, hrow, hkey, hfinal⟩ :=
      Codec.exists_mem_of_forall₂ (Partial.finalize_rows hrows) hentry
    have hwhole := h row hrow
    refine ⟨(congrArg List.length hkey).trans hwhole.columns, fun agg hagg => ?_⟩
    exact (hvalues hkinds hfinal agg.outputName).mp (hwhole.values agg hagg)
  · intro h row hrow
    obtain ⟨accs, haccs, hfinal⟩ := Partial.finalize_mem hrows hrow
    obtain ⟨first, hfirst, hkinds⟩ := exists_first_of_reduce haccs
    obtain ⟨hcolumns, hnames⟩ := h row.key first hfirst
    refine ⟨hcolumns, fun agg hagg => ?_⟩
    exact (hvalues hkinds.symm hfinal agg.outputName).mpr (hnames agg hagg)

/-- Every output row is whole and nothing is discarded exactly if the first partial of
each group is whole. -/
theorem reduce_shape_iff (hrows : (reduce q.aggregates partials).finalize json = some rows) :
    (∀ row ∈ rows, row.Whole q) ∧ NothingDiscarded q partials ↔
      ∀ key first, firstAccs partials key = some first → FirstWhole q partials key first := by
  rw [whole_iff hrows, nothingDiscarded_iff]
  constructor
  · rintro ⟨hwhole, hkinds⟩ key first hfirst
    obtain ⟨hcolumns, hnames⟩ := hwhole key first hfirst
    exact ⟨hcolumns, hnames, hkinds key first hfirst⟩
  · intro h
    refine ⟨fun key first hfirst => ?_, fun key first hfirst => (h key first hfirst).kinds⟩
    exact ⟨(h key first hfirst).columns, (h key first hfirst).names⟩

theorem mem_orderRows {row : GroupResult} :
    row ∈ orderRows rows q.groupBy q.orderBy ↔ row ∈ rows := by
  rw [orderRows]
  split
  · exact Iff.rfl
  · exact List.mem_insertionSort _

theorem mem_of_mem_shape {row : GroupResult} (h : row ∈ q.shape rows) : row ∈ rows := by
  unfold Query.shape applyLimit at h
  split at h
  · exact mem_orderRows.mp (List.mem_of_mem_take h)
  · exact mem_orderRows.mp h

theorem mem_shape_of_no_limit (hlimit : q.limit = none) {row : GroupResult} :
    row ∈ q.shape rows ↔ row ∈ rows := by
  rw [Query.shape, hlimit]
  exact mem_orderRows

end Finalize

/-! ## Runs -/

section Run

variable {env : Externals} {host : MapHost} {config : RunConfig} {q : Query}
variable {clock : Nat → Nat → Nat} {shards : List Shard} {hosts : List String} {order : List Nat}
variable {report : RunReport}

/-- The partials that are accepted from the hosts, in the order of the shards. -/
def acceptedPartials (env : Externals) (host : MapHost) (config : RunConfig) (q : Query)
    (clock : Nat → Nat → Nat) (shards : List Shard) (hosts : List String) : List Partial :=
  (runTasks env (liveShards q shards) hosts).filterMap fun task =>
    (mapOneShard env host config q (clock task.1) task.2).toOption.map (·.shardPartial)

theorem acceptedPartials_eq {tasks : List (Nat × ShardTask)} {outcomes : List ShardOutcome}
    (h : List.Forall₂ (fun task o => mapOneShard env host config q (clock task.1) task.2 = .ok o)
      tasks outcomes) :
    (tasks.filterMap fun task =>
      (mapOneShard env host config q (clock task.1) task.2).toOption.map (·.shardPartial)) =
        outcomes.map (·.shardPartial) := by
  induction h with
  | nil => rfl
  | cons ho _ ih =>
      rw [List.filterMap_cons, ho, List.map_cons, ← ih]
      rfl

/-- If the first accepted partial of each group is whole, every output row of a run is
whole and nothing is discarded; if there is no `LIMIT` to cut rows off, only then. -/
theorem run_shape_iff
    (hrun : run env host config q clock shards hosts order = some (.ok report)) :
    ((∀ key first,
        firstAccs (acceptedPartials env host config q clock shards hosts) key = some first →
        FirstWhole q (acceptedPartials env host config q clock shards hosts) key first) →
      (∀ row ∈ report.results, row.Whole q) ∧
        NothingDiscarded q (acceptedPartials env host config q clock shards hosts)) ∧
    (q.limit = none →
      ((∀ row ∈ report.results, row.Whole q) ∧
          NothingDiscarded q (acceptedPartials env host config q clock shards hosts) ↔
        ∀ key first,
          firstAccs (acceptedPartials env host config q clock shards hosts) key = some first →
          FirstWhole q (acceptedPartials env host config q clock shards hosts) key first)) := by
  obtain ⟨outcomes, rows, hall, hrows, hresults⟩ := run_outcomes hrun
  have haccepted : acceptedPartials env host config q clock shards hosts =
      outcomes.map (·.shardPartial) := acceptedPartials_eq hall
  rw [haccepted, hresults]
  have hshape := reduce_shape_iff hrows
  refine ⟨fun h => ?_, fun hlimit => ?_⟩
  · obtain ⟨hwhole, hkept⟩ := hshape.mpr h
    exact ⟨fun row hrow => hwhole row (mem_of_mem_shape hrow), hkept⟩
  · rw [← hshape]
    simp only [mem_shape_of_no_limit hlimit]

/-! Two shards with one group, of which the host reports the first without a count. -/

private def groupQuery : Query where
  dataset := "t"
  aggregates := [.count]
  predicate := .true
  groupBy := ["g"]
  orderBy := []
  limit := none
  projection := none

private def groupShards : List Shard :=
  ["s0", "s1"].map fun cid => { cid, rows := U64.one, bytes := U64.zero, stats := none }

private def groupPartial (accs : List Accum) : Partial where
  aggregates := [.count]
  groups := Std.ExtTreeMap.insert ∅ ["a"] accs

private def countHost (first : List Accum) : MapHost where
  map _ shard _ := .ok (groupPartial (if shard.cid = "s0" then first else [.count U64.one]))
  project _ _ _ := .error .timeout

private theorem groupPartial_get {accs bs : List Accum} {key : List String}
    (h : (groupPartial accs).groups[key]? = some bs) : key = ["a"] ∧ bs = accs := by
  rw [groupPartial, Std.ExtTreeMap.getElem?_insert] at h
  split at h
  case isTrue heq =>
    exact ⟨(Std.LawfulEqOrd.eq_of_compare heq).symm, (Option.some.inj h).symm⟩
  case isFalse => simp at h

private theorem groupPartial_wellFormed :
    (groupPartial [.count U64.one]).WellFormed groupQuery where
  aggregates := rfl
  keys key accs h := by
    obtain ⟨rfl, _⟩ := groupPartial_get h
    rfl
  accums key accs h := by
    obtain ⟨_, rfl⟩ := groupPartial_get h
    rfl

/-- Every shard reports a count, and the row has one. -/
theorem run_shape_iff_counted : ∃ report,
    run .sample (countHost [.count U64.one]) .twoAtATime groupQuery (fun _ _ => 0) groupShards
        ["host0"] [0, 0] = some (.ok report) ∧
      ∀ row ∈ report.results, row.Whole groupQuery := by
  obtain ⟨report, hrun⟩ : ∃ report, run .sample (countHost [.count U64.one]) .twoAtATime groupQuery
      (fun _ _ => 0) groupShards ["host0"] [0, 0] = some (.ok report) := ⟨_, rfl⟩
  refine ⟨report, hrun, ((run_shape_iff hrun).1 fun key first hfirst => ?_).1⟩
  have haccepted : acceptedPartials .sample (countHost [.count U64.one]) .twoAtATime groupQuery
      (fun _ _ => 0) groupShards ["host0"] =
        [groupPartial [.count U64.one], groupPartial [.count U64.one]] := rfl
  rw [haccepted] at hfirst ⊢
  obtain ⟨p, hp, hget⟩ := List.exists_of_findSome?_eq_some hfirst
  have hp : p = groupPartial [.count U64.one] := by simpa using hp
  rw [hp] at hget
  obtain ⟨rfl, rfl⟩ := groupPartial_get hget
  exact ⟨rfl, by decide, fun _ _ _ _ => List.prefix_rfl⟩

/-- The first shard reports no count. The count of the second one is discarded, and the
row has no value. -/
theorem malformed_partial_discards : ∃ report,
    run .sample (countHost []) .twoAtATime groupQuery (fun _ _ => 0) groupShards ["host0"]
        [0, 0] = some (.ok report) ∧
      (¬∀ row ∈ report.results, row.Whole groupQuery) ∧
      ¬NothingDiscarded groupQuery (acceptedPartials .sample (countHost []) .twoAtATime groupQuery
        (fun _ _ => 0) groupShards ["host0"]) := by
  refine ⟨_, rfl, fun hwhole => ?_, fun hkept => ?_⟩
  · have hvalue := (hwhole { key := ["a"], values := ∅ } (List.mem_singleton_self _)).values .count
      (List.mem_singleton_self _)
    simp at hvalue
  · have hkept := hkept [groupPartial []] (groupPartial [.count U64.one]) [] rfl
      groupPartial_wellFormed ["a"] [.count U64.one] rfl [] rfl
    exact absurd (List.prefix_nil.mp hkept) (List.cons_ne_nil _ _)

end Run

end CeQuery
