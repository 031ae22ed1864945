import CeQuery.Engine.Contacts

/-!
# The cost gate

`checkScan` compares the declared size of a dataset with the limits. It adds the
counts in 64 bits, so it decides by the exact totals only while they fit: behind
that an unchecked build decides by the totals modulo `2 ^ 64`, and a checked one
panics. `decidesExactly_iff` gives the datasets for which the gate is right.
-/

namespace CeQuery

/-- The declared number of rows of a dataset. -/
def totalRows (shards : List Shard) : Int :=
  (shards.map (·.rows.val)).sum

/-- The declared size of a dataset in bytes. -/
def totalBytes (shards : List Shard) : Int :=
  (shards.map (·.bytes.val)).sum

/-- A limit that is set is exceeded. -/
def Exceeds (limit total : Int) : Prop :=
  limit ≠ 0 ∧ limit < total

/-- The exact cost of the dataset is within the limits that are set. -/
structure CostLimits.Allows (limits : CostLimits) (shards : List Shard) : Prop where
  fanOut : ¬Exceeds limits.maxShards shards.length
  rows : ¬Exceeds limits.maxScanRows.val (totalRows shards)
  bytes : ¬Exceeds limits.maxScanBytes.val (totalBytes shards)

section Contacts

variable (env : Externals) (host : MapHost) (config : RunConfig) (q : Query)

/-- The hosts that the tasks of a run contact. -/
def runContacts (clock : Nat → Nat → Nat) (shards : List Shard) (hosts : List String) :
    List String :=
  match runEntry env config q shards hosts with
  | .error _ => []
  | .ok live => (runTasks env live hosts).flatMap fun task =>
      mapContacts host config q (clock task.1) task.2

/-- The hosts that the tasks of a projection run contact. -/
def projectionContacts (clock : Nat → Nat → Nat) (shards : List Shard) (hosts : List String) :
    List String :=
  match projectionEntry env config q shards hosts with
  | .error _ => []
  | .ok live => (runTasks env live hosts).flatMap fun task =>
      projectContacts host config q (clock task.1) task.2

end Contacts

/-- The gate passes exactly the datasets within the limits, and no other one gets
to a host. -/
structure GateHolds (overflowChecks : Bool) (limits : CostLimits) (shards : List Shard) :
    Prop where
  decides : limits.checkScan overflowChecks shards = some (.ok ()) ↔ limits.Allows shards
  answers : limits.checkScan overflowChecks shards ≠ none
  closed : ¬limits.Allows shards → ∀ (env : Externals) (host : MapHost) (config : RunConfig)
    (q : Query) (clock : Nat → Nat → Nat) (hosts : List String),
    env.overflowChecks = overflowChecks → config.limits = limits →
      runContacts env host config q clock shards hosts = [] ∧
        projectionContacts env host config q clock shards hosts = []

/-- The total of a limit that is set fits in 64 bits. -/
def Fits (limit total : Int) : Prop :=
  limit = 0 ∨ total < 2 ^ 64

/-- When the gate is right. A build that checks overflow must not reach a total that
does not fit; one that does not may still find a reduced total that exceeds its
limit. -/
def CostLimits.DecidesExactly (overflowChecks : Bool) (limits : CostLimits)
    (shards : List Shard) : Prop :=
  Exceeds limits.maxShards shards.length ∨
    if overflowChecks then
      Fits limits.maxScanRows.val (totalRows shards) ∧
        (Exceeds limits.maxScanRows.val (totalRows shards) ∨
          Fits limits.maxScanBytes.val (totalBytes shards))
    else
      (Fits limits.maxScanRows.val (totalRows shards) ∧
        Fits limits.maxScanBytes.val (totalBytes shards)) ∨
      Exceeds limits.maxScanRows.val (totalRows shards % 2 ^ 64) ∨
        Exceeds limits.maxScanBytes.val (totalBytes shards % 2 ^ 64)

section Sums

variable (ns : List U64)

theorem U64.wrap_val (n : U64) : U64.wrap n.val = n := by
  have hlo := n.lo_le
  have hhi := n.le_hi
  ext
  change n.val % 2 ^ 64 = n.val
  omega

theorem U64.wrap_add (a b : Int) : U64.wrap ((U64.wrap a).val + b) = U64.wrap (a + b) := by
  ext
  exact Int.emod_add_emod a _ b

theorem sum_val_nonneg : 0 ≤ (ns.map (·.val)).sum := by
  induction ns with
  | nil => exact Int.le_refl 0
  | cons n ns ih =>
      rw [List.map_cons, List.sum_cons]
      exact Int.add_nonneg n.lo_le ih

/-- One addition as the build computes it. -/
def addU64 (overflowChecks : Bool) (sum n : U64) : Option U64 :=
  (sum.checkedAdd n).elim (if overflowChecks then none else some (U64.wrap (sum.val + n.val))) some

theorem sumU64_eq (overflowChecks : Bool) :
    sumU64 overflowChecks ns = ns.foldlM (addU64 overflowChecks) U64.zero := by
  rw [sumU64]
  congr 1
  funext sum n
  rw [addU64]
  cases sum.checkedAdd n <;> rfl

theorem addU64_false (sum n : U64) : addU64 false sum n = some (U64.wrap (sum.val + n.val)) := by
  rw [addU64]
  cases hadd : sum.checkedAdd n with
  | none => rfl
  | some total =>
      rw [← BoundedInt.narrow_eq_some hadd, U64.wrap_val]
      rfl

/-- The wrapped additions reduce the exact sum once. -/
theorem sumU64_false : sumU64 false ns = some (U64.wrap (ns.map (·.val)).sum) := by
  suffices h : ∀ acc : U64, ns.foldlM (addU64 false) acc =
      some (U64.wrap (acc.val + (ns.map (·.val)).sum)) by
    rw [sumU64_eq, ← Int.zero_add (ns.map (·.val)).sum]
    exact h U64.zero
  induction ns with
  | nil =>
      intro acc
      rw [List.map_nil, List.sum_nil, Int.add_zero, U64.wrap_val]
      rfl
  | cons n ns ih =>
      intro acc
      rw [List.foldlM_cons, addU64_false, List.map_cons, List.sum_cons]
      change List.foldlM _ (U64.wrap (acc.val + n.val)) ns = _
      rw [ih, U64.wrap_add, Int.add_assoc]

/-- The checked additions give the exact sum, if it fits. -/
theorem sumU64_true : sumU64 true ns = BoundedInt.narrow (ns.map (·.val)).sum := by
  suffices h : ∀ acc : U64, ns.foldlM (addU64 true) acc =
      BoundedInt.narrow (acc.val + (ns.map (·.val)).sum) by
    rw [sumU64_eq, ← Int.zero_add (ns.map (·.val)).sum]
    exact h U64.zero
  induction ns with
  | nil =>
      intro acc
      rw [List.map_nil, List.sum_nil, Int.add_zero, BoundedInt.narrow_of_range acc.lo_le acc.le_hi]
      rfl
  | cons n ns ih =>
      intro acc
      rw [List.foldlM_cons, addU64, List.map_cons, List.sum_cons, ← Int.add_assoc]
      cases hadd : acc.checkedAdd n with
      | none =>
          -- the counts that follow do not bring the sum back into the range
          have hrest := sum_val_nonneg ns
          have hover := BoundedInt.narrow_eq_none.mp hadd
          have hacc := acc.lo_le
          have hn := n.lo_le
          rw [BoundedInt.narrow, dif_neg (by omega)]
          rfl
      | some total =>
          rw [← BoundedInt.narrow_eq_some hadd]
          exact ih total

end Sums

section Gate

/-- A check is passed: its limit is not set or the computed total is at most the limit. -/
def Passes (limit : U64) (total : Option U64) : Prop :=
  limit.val = 0 ∨ ∃ t, total = some t ∧ t.val ≤ limit.val

/-- A check whose total cannot be computed. -/
def Panics (limit : U64) (total : Option U64) : Prop :=
  limit.val ≠ 0 ∧ total = none

/-- One check of the gate, followed by the others. -/
def checkTotal (what : String) (limit : U64) (total : Option U64)
    (rest : Option (Except CostError Unit)) : Option (Except CostError Unit) :=
  if limit.val ≠ 0 then
    total.bind fun t =>
      if t.val > limit.val then some (.error { what, actual := t.val, limit := limit.val })
      else rest
  else rest

section CheckTotal

variable {what : String} {limit : U64} {total : Option U64}
  {rest : Option (Except CostError Unit)}

theorem checkTotal_eq_ok_iff : checkTotal what limit total rest = some (.ok ()) ↔
    Passes limit total ∧ rest = some (.ok ()) := by
  rw [checkTotal, Passes]
  by_cases hset : limit.val = 0
  · simp [hset]
  · cases total with
    | none => simp [hset]
    | some t =>
        by_cases hover : t.val > limit.val
        · simp [hset, hover, Int.not_le.mpr hover]
        · simp [hset, hover, Int.not_lt.mp hover]

theorem checkTotal_eq_none_iff : checkTotal what limit total rest = none ↔
    Panics limit total ∨ Passes limit total ∧ rest = none := by
  rw [checkTotal, Passes, Panics]
  by_cases hset : limit.val = 0
  · simp [hset]
  · cases total with
    | none => simp [hset]
    | some t =>
        by_cases hover : t.val > limit.val
        · simp [hset, hover, Int.not_le.mpr hover]
        · simp [hset, hover, Int.not_lt.mp hover]

end CheckTotal

variable {overflowChecks : Bool} {limits : CostLimits} {shards : List Shard}

/-- The gate is its three checks, one after the other. -/
theorem checkScan_eq : limits.checkScan overflowChecks shards =
    if limits.maxShards ≠ 0 ∧ shards.length > limits.maxShards then
      some (.error { what := "shards", actual := shards.length, limit := limits.maxShards })
    else
      checkTotal "rows scanned" limits.maxScanRows (sumU64 overflowChecks (shards.map (·.rows)))
        (checkTotal "bytes scanned" limits.maxScanBytes
          (sumU64 overflowChecks (shards.map (·.bytes))) (some (.ok ()))) := by
  have hbytes : ∀ bytes : Option U64, (do
      if limits.maxScanBytes.val ≠ 0 then
        let bytes ← bytes
        if bytes.val > limits.maxScanBytes.val then
          return .error
            { what := "bytes scanned", actual := bytes.val, limit := limits.maxScanBytes.val }
      return .ok ()) =
        checkTotal "bytes scanned" limits.maxScanBytes bytes (some (.ok ())) := by
    intro bytes
    rw [checkTotal]
    by_cases hset : limits.maxScanBytes.val ≠ 0
    · rw [if_pos hset, if_pos hset]
      cases bytes with
      | none => rfl
      | some t =>
          by_cases hover : t.val > limits.maxScanBytes.val
          · simp [hover]
          · simp [hover]
    · rw [if_neg hset, if_neg hset]
      rfl
  rw [CostLimits.checkScan]
  split
  · rfl
  · rw [← hbytes, checkTotal]
    by_cases hset : limits.maxScanRows.val ≠ 0
    · rw [if_pos hset, if_pos hset]
      cases sumU64 overflowChecks (shards.map (·.rows)) with
      | none => rfl
      | some t =>
          by_cases hover : t.val > limits.maxScanRows.val
          · simp [hover]
          · simp [hover]
    · rw [if_neg hset, if_neg hset]

theorem exceeds_shards_iff : Exceeds limits.maxShards shards.length ↔
    limits.maxShards ≠ 0 ∧ shards.length > limits.maxShards := by
  rw [Exceeds]
  omega

theorem checkScan_eq_ok_iff : limits.checkScan overflowChecks shards = some (.ok ()) ↔
    ¬Exceeds limits.maxShards shards.length ∧
      Passes limits.maxScanRows (sumU64 overflowChecks (shards.map (·.rows))) ∧
      Passes limits.maxScanBytes (sumU64 overflowChecks (shards.map (·.bytes))) := by
  rw [checkScan_eq, exceeds_shards_iff]
  split
  · rename_i hover
    simp [hover]
  · rename_i hwithin
    rw [checkTotal_eq_ok_iff, checkTotal_eq_ok_iff]
    simp [hwithin]

theorem checkScan_eq_none_iff : limits.checkScan overflowChecks shards = none ↔
    ¬Exceeds limits.maxShards shards.length ∧
      (Panics limits.maxScanRows (sumU64 overflowChecks (shards.map (·.rows))) ∨
        Passes limits.maxScanRows (sumU64 overflowChecks (shards.map (·.rows))) ∧
          Panics limits.maxScanBytes (sumU64 overflowChecks (shards.map (·.bytes)))) := by
  rw [checkScan_eq, exceeds_shards_iff]
  split
  · rename_i hover
    simp [hover]
  · rename_i hwithin
    rw [checkTotal_eq_none_iff, checkTotal_eq_none_iff]
    simp [hwithin]

theorem passes_false_iff {limit : U64} {ns : List U64} :
    Passes limit (sumU64 false ns) ↔ ¬Exceeds limit.val ((ns.map (·.val)).sum % 2 ^ 64) := by
  rw [sumU64_false, Passes, Exceeds]
  simp only [Option.some.injEq, exists_eq_left', U64.wrap]
  omega

theorem not_panics_false {limit : U64} {ns : List U64} : ¬Panics limit (sumU64 false ns) := by
  rw [sumU64_false, Panics]
  simp

theorem passes_true_iff {limit : U64} {ns : List U64} :
    Passes limit (sumU64 true ns) ↔ ¬Exceeds limit.val (ns.map (·.val)).sum := by
  have hnonneg := sum_val_nonneg ns
  have hlimit := limit.le_hi
  rw [sumU64_true, Passes, Exceeds]
  constructor
  · rintro (hunset | ⟨t, ht, hle⟩)
    · exact fun hover => hover.1 hunset
    · rw [← BoundedInt.narrow_eq_some ht]
      omega
  · intro hwithin
    by_cases hunset : limit.val = 0
    · exact .inl hunset
    · refine .inr ⟨_, BoundedInt.narrow_of_range hnonneg ?_, ?_⟩
      · omega
      · change (ns.map (·.val)).sum ≤ limit.val
        omega

theorem panics_true_iff {limit : U64} {ns : List U64} :
    Panics limit (sumU64 true ns) ↔ ¬Fits limit.val (ns.map (·.val)).sum := by
  have hnonneg := sum_val_nonneg ns
  rw [sumU64_true, Panics, Fits, BoundedInt.narrow_eq_none]
  omega

/-- A total that does not fit exceeds every limit. -/
theorem fits_of_not_exceeds {limit : U64} {total : Int} (h : ¬Exceeds limit.val total) :
    Fits limit.val total := by
  have hlimit := limit.le_hi
  rw [Exceeds] at h
  rw [Fits]
  omega

theorem emod_of_fits {limit total : Int} (hnonneg : 0 ≤ total) (h : Fits limit total) :
    Exceeds limit (total % 2 ^ 64) ↔ Exceeds limit total := by
  rw [Fits] at h
  rw [Exceeds, Exceeds]
  omega

theorem exceeds_of_emod {limit total : Int} (hnonneg : 0 ≤ total)
    (h : Exceeds limit (total % 2 ^ 64)) : Exceeds limit total := by
  rw [Exceeds] at h ⊢
  omega

theorem allows_iff : limits.Allows shards ↔ ¬Exceeds limits.maxShards shards.length ∧
    ¬Exceeds limits.maxScanRows.val (totalRows shards) ∧
      ¬Exceeds limits.maxScanBytes.val (totalBytes shards) :=
  ⟨fun h => ⟨h.fanOut, h.rows, h.bytes⟩, fun ⟨hfan, hrows, hbytes⟩ => ⟨hfan, hrows, hbytes⟩⟩

/-- The counts of a field of all shards. -/
theorem map_val_map (field : Shard → U64) :
    (shards.map field).map (·.val) = shards.map fun s => (field s).val :=
  List.map_map

theorem totalRows_nonneg : 0 ≤ totalRows shards := by
  rw [totalRows, ← map_val_map]
  exact sum_val_nonneg _

theorem totalBytes_nonneg : 0 ≤ totalBytes shards := by
  rw [totalBytes, ← map_val_map]
  exact sum_val_nonneg _

end Gate

section Closed

variable {env : Externals} {host : MapHost} {config : RunConfig} {q : Query}
  {clock : Nat → Nat → Nat} {shards : List Shard} {hosts : List String}

/-- A run that the gate refuses is over before its first task. -/
theorem contacts_of_refused {e : CostError}
    (h : config.limits.checkScan env.overflowChecks shards = some (.error e)) :
    runContacts env host config q clock shards hosts = [] ∧
      projectionContacts env host config q clock shards hosts = [] := by
  have hrun : ∃ exit, runEntry env config q shards hosts = .error exit := by
    rw [runEntry]
    cases q.validate with
    | error reason => exact ⟨_, rfl⟩
    | ok _ =>
        dsimp only
        split
        · exact ⟨_, rfl⟩
        · split
          · exact ⟨_, rfl⟩
          · rw [h]
            exact ⟨_, rfl⟩
  have hprojection : ∃ exit, projectionEntry env config q shards hosts = .error exit := by
    rw [projectionEntry]
    cases q.validate with
    | error reason => exact ⟨_, rfl⟩
    | ok _ =>
        dsimp only
        split
        · exact ⟨_, rfl⟩
        · split
          · exact ⟨_, rfl⟩
          · split
            · exact ⟨_, rfl⟩
            · rw [h]
              exact ⟨_, rfl⟩
  obtain ⟨exit, hrun⟩ := hrun
  obtain ⟨exit', hprojection⟩ := hprojection
  rw [runContacts, projectionContacts, hrun, hprojection]
  exact ⟨rfl, rfl⟩

end Closed

section Main

variable {overflowChecks : Bool} {limits : CostLimits} {shards : List Shard}

theorem closed_of_decides
    (hdecides : limits.checkScan overflowChecks shards = some (.ok ()) ↔ limits.Allows shards)
    (hanswers : limits.checkScan overflowChecks shards ≠ none) :
    GateHolds overflowChecks limits shards where
  decides := hdecides
  answers := hanswers
  closed hover env host config q clock hosts hbuild hlimits := by
    subst hbuild hlimits
    cases hscan : config.limits.checkScan env.overflowChecks shards with
    | none => exact absurd hscan hanswers
    | some decision =>
        cases decision with
        | ok _ => exact absurd (hdecides.mp hscan) hover
        | error e => exact contacts_of_refused hscan

theorem gateHolds_true_iff :
    GateHolds true limits shards ↔ limits.DecidesExactly true shards := by
  have hdecides : limits.checkScan true shards = some (.ok ()) ↔ limits.Allows shards := by
    rw [checkScan_eq_ok_iff, passes_true_iff, passes_true_iff, map_val_map, map_val_map, allows_iff]
    exact Iff.rfl
  have hanswers : limits.checkScan true shards ≠ none ↔ limits.DecidesExactly true shards := by
    rw [Ne, checkScan_eq_none_iff, passes_true_iff, panics_true_iff, panics_true_iff, map_val_map,
      map_val_map, CostLimits.DecidesExactly, if_pos rfl]
    change ¬(_ ∧ (¬Fits _ (totalRows shards) ∨ ¬Exceeds _ (totalRows shards) ∧
      ¬Fits _ (totalBytes shards))) ↔ _
    simp only [not_and_or, not_or, not_not]
  exact ⟨fun h => hanswers.mp h.answers, fun h => closed_of_decides hdecides (hanswers.mpr h)⟩

theorem gateHolds_false_iff :
    GateHolds false limits shards ↔ limits.DecidesExactly false shards := by
  have hanswers : limits.checkScan false shards ≠ none := by
    rw [Ne, checkScan_eq_none_iff]
    rintro ⟨_, hrows | ⟨_, hbytes⟩⟩
    · exact not_panics_false hrows
    · exact not_panics_false hbytes
  have hdecides : (limits.checkScan false shards = some (.ok ()) ↔ limits.Allows shards) ↔
      limits.DecidesExactly false shards := by
    rw [checkScan_eq_ok_iff, passes_false_iff, passes_false_iff, map_val_map, map_val_map,
      allows_iff, CostLimits.DecidesExactly, if_neg Bool.false_ne_true]
    change (_ ∧ ¬Exceeds _ (totalRows shards % 2 ^ 64) ∧ ¬Exceeds _ (totalBytes shards % 2 ^ 64) ↔
      _ ∧ ¬Exceeds _ (totalRows shards) ∧ ¬Exceeds _ (totalBytes shards)) ↔ _
    constructor
    · intro h
      by_cases hfan : Exceeds limits.maxShards shards.length
      · exact .inl hfan
      · by_cases hrows : Exceeds limits.maxScanRows.val (totalRows shards % 2 ^ 64)
        · exact .inr (.inr (.inl hrows))
        · by_cases hbytes : Exceeds limits.maxScanBytes.val (totalBytes shards % 2 ^ 64)
          · exact .inr (.inr (.inr hbytes))
          · obtain ⟨_, hrows, hbytes⟩ := h.mp ⟨hfan, hrows, hbytes⟩
            exact .inr (.inl ⟨fits_of_not_exceeds hrows, fits_of_not_exceeds hbytes⟩)
    · rintro (hfan | ⟨hrows, hbytes⟩ | hrows | hbytes)
      · exact iff_of_false (fun h => h.1 hfan) fun h => h.1 hfan
      · rw [emod_of_fits totalRows_nonneg hrows, emod_of_fits totalBytes_nonneg hbytes]
      · exact iff_of_false (fun h => h.2.1 hrows)
          fun h => h.2.1 (exceeds_of_emod totalRows_nonneg hrows)
      · exact iff_of_false (fun h => h.2.2 hbytes)
          fun h => h.2.2 (exceeds_of_emod totalBytes_nonneg hbytes)
  exact ⟨fun h => hdecides.mp h.decides, fun h => closed_of_decides (hdecides.mpr h) hanswers⟩

end Main

/-- The cost gate holds exactly for the datasets whose totals it can add up. -/
theorem decidesExactly_iff (overflowChecks : Bool) (limits : CostLimits) (shards : List Shard) :
    GateHolds overflowChecks limits shards ↔ limits.DecidesExactly overflowChecks shards := by
  cases overflowChecks with
  | true => exact gateHolds_true_iff
  | false => exact gateHolds_false_iff

/-- Half of `2 ^ 64`. -/
private def halfRange : U64 := ⟨2 ^ 63, by decide, by decide⟩

private def hugeShard : Shard where
  cid := "s0"
  rows := halfRange
  bytes := U64.zero
  stats := none

private def tenRows : CostLimits where
  maxScanBytes := U64.zero
  maxScanRows := ⟨10, by decide, by decide⟩
  maxShards := 0
  maxResultGroups := 0

/-- Two shards of `2 ^ 63` rows pass a limit of ten rows, or the check panics. -/
theorem checkScan_bypassed :
    ¬GateHolds false tenRows [hugeShard, hugeShard] ∧
      ¬GateHolds true tenRows [hugeShard, hugeShard] := by
  have hover : ¬tenRows.Allows [hugeShard, hugeShard] :=
    fun h => h.rows ⟨by decide, by decide⟩
  have hpassed : tenRows.checkScan false [hugeShard, hugeShard] = some (.ok ()) := by decide
  have hpanic : tenRows.checkScan true [hugeShard, hugeShard] = none := by decide
  exact ⟨fun h => hover (h.decides.mp hpassed), fun h => h.answers hpanic⟩

end CeQuery
