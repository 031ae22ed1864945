import CeQuery.Engine.Collection

/-!
# Projection runs with an ORDER BY

Hosts cut the rows down before the rows are sorted, so a key sees only the selected
columns: the result is the one of sorting full rows by the keys whose columns are
selected (`runProjection_sorted`).

The rows are also cut to the memory ceiling while they arrive, before they are sorted.
Rows that arrive later are lost, like those of a shard that was skipped by mistake, and
the result is the top of the matching rows exactly if enough of the rows at hand come
no later than each lost one (`runProjection_top_iff`).
-/

namespace CeQuery

/-- The comparison by the `ORDER BY` keys. -/
def Query.rowCmp (q : Query) (a b : Row) : Ordering :=
  cmpRawRows a b q.orderBy

instance (keys : List OrderKey) : Std.TransCmp fun a b : Row => cmpRawRows a b keys :=
  inferInstanceAs (Std.TransCmp fun a b : Row =>
    cmpKeys (fun column (row : Row) => row[column]?) a b keys)

instance (q : Query) : Std.TransCmp q.rowCmp :=
  inferInstanceAs (Std.TransCmp fun a b : Row => cmpRawRows a b q.orderBy)

/-- The `ORDER BY` keys whose columns are selected. -/
def Query.selectedKeys (q : Query) : List OrderKey :=
  q.orderBy.filter fun key =>
    q.projection.getD [] = [] ∨ key.column ∈ q.projection.getD []

/-- The limit as a number of rows. -/
def Query.rowLimit (q : Query) : Option Nat :=
  q.limit.map fun n => n.val.toNat

section Cut

variable {q : Query}

/-- Keys on columns that are not selected do not tell rows apart after the cut. -/
theorem cmpRawRows_cut (a b : Row) :
    cmpRawRows (q.cut a) (q.cut b) q.orderBy = cmpRawRows a b q.selectedKeys := by
  rw [Query.selectedKeys]
  induction q.orderBy with
  | nil => rfl
  | cons key keys ih =>
      by_cases hselects : q.Selects key.column
      · rw [List.filter_cons_of_pos (by simpa [Query.Selects] using hselects)]
        simp only [cmpRawRows, cmpKeys, Query.getElem?_cut_of_selects hselects] at ih ⊢
        rw [ih]
      · rw [List.filter_cons_of_neg (by simpa [Query.Selects] using hselects), ← ih]
        have hsame : cellCmp .null .null = .eq := rfl
        simp [cmpRawRows, cmpKeys, Query.getElem?_cut_of_not_selects hselects, hsame]

theorem selectedKeys_eq (h : ∀ key ∈ q.orderBy, q.Selects key.column) :
    q.selectedKeys = q.orderBy := by
  rw [Query.selectedKeys, List.filter_eq_self]
  intro key hkey
  simpa [Query.Selects] using h key hkey

/-- Cutting before sorting is sorting by the selected keys. -/
theorem orderRawRows_cut (rows : List Row) :
    orderRawRows (rows.map q.cut) q.orderBy =
      (rows.insertionSort fun a b => cmpRawRows a b q.selectedKeys ≠ .gt).map q.cut := by
  rw [orderRawRows]
  split
  · rename_i hempty
    have hkeys : q.selectedKeys = [] := by
      rw [Query.selectedKeys, List.isEmpty_iff.mp hempty, List.filter_nil]
    have hsorted : rows.Pairwise fun a b => cmpRawRows a b q.selectedKeys ≠ .gt := by
      rw [hkeys]
      exact List.pairwise_of_forall fun _ _ => Ordering.noConfusion
    rw [hsorted.insertionSort_eq]
  · refine (List.map_insertionSort _ _ q.cut rows fun a _ b _ => ?_).symm
    rw [cmpRawRows_cut]

theorem finishRows_eq (rows : List Row) :
    finishRows q rows = capped q.rowLimit (orderRawRows rows q.orderBy) := by
  rw [finishRows, Query.rowLimit]
  cases q.limit with
  | none => rfl
  | some n => rfl

end Cut

/-- The rows are the first ones, cut down, of all rows in an order by the keys. -/
def SortedCut (q : Query) (keys : List OrderKey) (all rows : List Row) : Prop :=
  ∃ arranged : List Row, arranged.Perm all ∧
    arranged.Pairwise (fun a b => cmpRawRows a b keys ≠ .gt) ∧
    rows = (capped q.rowLimit arranged).map q.cut

/-- The rows are sorted and are the first ones of all rows, cut down: there are as many
as the limit asks for, and no row left out sorts before one of them. -/
structure TopRows (q : Query) (all rows : List Row) : Prop where
  sorted : rows.Pairwise fun a b => q.rowCmp a b ≠ .gt
  length : rows.length = q.rowLimit.elim all.length (min · all.length)
  first : ∃ kept left : List Row, (kept ++ left).Perm all ∧ rows = kept.map q.cut ∧
    ∀ x ∈ left, ∀ y ∈ kept, q.rowCmp x y ≠ .lt

/-- The ceiling on the rows that are held at once. -/
def memoryCeiling (config : RunConfig) : Option Nat :=
  if config.limits.maxResultGroups = 0 then none else some config.limits.maxResultGroups

/-- The shards that are skipped. -/
def skippedShards (q : Query) (shards : List Shard) : List Shard :=
  shards.filter fun s => !shardCanMatch s.stats q.predicate

section Lost

variable (env : Externals) (config : RunConfig) (q : Query) (store : String → List Row)
  (shards : List Shard) (hosts : List String) (order : List Nat)

/-- The matching rows that are there when the sorting begins: the first ones to arrive. -/
def keptRows : List Row :=
  capped (memoryCeiling config) (arrivals env config q store shards hosts order)

/-- The matching rows that are not: those that arrive when the ceiling is reached, and
those in shards that are skipped. -/
def lostRows : List Row :=
  overflow (memoryCeiling config) (arrivals env config q store shards hosts order) ++
    matchingRows store q (skippedShards q shards)

end Lost

section RunProjection

variable {env : Externals} {host : MapHost} {config : RunConfig} {q : Query}
variable {clock : Nat → Nat → Nat} {store : String → List Row} {shards : List Shard}
variable {hosts : List String} {order : List Nat} {report : ProjectionReport}

theorem matchingRows_perm :
    (matchingRows store q (liveShards q shards) ++
      matchingRows store q (skippedShards q shards)).Perm
      (matchingRows store q shards) := by
  have hsplit : (liveShards q shards ++ skippedShards q shards).Perm shards :=
    List.filter_append_perm _ shards
  have hrows := hsplit.flatMap_right fun s => (store s.cid).filter fun row => q.predicate.eval row
  rwa [List.flatMap_append] at hrows

theorem collectCap_eq_memoryCeiling (h : canEarlyStop q = false) :
    collectCap config q = memoryCeiling config := by
  rw [collectCap, memoryCeiling]
  rw [h]
  rfl

/-- Without a memory ceiling the rows are those of sorting all full rows by the keys on
selected columns. -/
theorem runProjection_sorted (hhost : host.Projects store q)
    (hceiling : config.limits.maxResultGroups = 0)
    (hrun : runProjection env host config q clock shards hosts order = some (.ok report)) :
    SortedCut q q.selectedKeys (matchingRows store q (liveShards q shards)) report.rows := by
  obtain ⟨seen, unseen, hperm, hrows, hrest⟩ := runProjection_seen hhost hrun
  rw [finishRows_eq] at hrows
  cases hearly : canEarlyStop q with
  | true =>
      -- there is no key, and the collection stops at the limit
      obtain ⟨hlimit, hempty⟩ := Bool.and_eq_true_iff.mp hearly
      have horder : q.orderBy = [] := List.isEmpty_iff.mp hempty
      obtain ⟨n, hn⟩ := Option.isSome_iff_exists.mp hlimit
      have hcap : collectCap config q = some n.val.toNat := by simp [collectCap, hearly, hn]
      have hkeys : q.selectedKeys = [] := by rw [Query.selectedKeys, horder, List.filter_nil]
      refine ⟨seen ++ unseen, hperm, ?_, ?_⟩
      · rw [hkeys]
        exact List.pairwise_of_forall fun _ _ => Ordering.noConfusion
      · have hlim : q.rowLimit = some n.val.toNat := by rw [Query.rowLimit, hn, Option.map_some]
        rw [hrows, orderRawRows, horder, List.isEmpty_nil, if_pos rfl, hcap, hlim, capped_capped,
          capped_map, capped_some, capped_some]
        obtain ⟨rfl, _⟩ | ⟨_, cap, hcap', hfull⟩ := hrest
        · rw [List.append_nil]
        · cases hcap.symm.trans hcap'
          rw [List.take_append_of_le_length hfull]
  | false =>
      have hcap : collectCap config q = none := by
        rw [collectCap_eq_memoryCeiling hearly, memoryCeiling, if_pos hceiling]
      obtain ⟨rfl, _⟩ | ⟨htrue, _⟩ := hrest
      · rw [List.append_nil] at hperm
        rw [hcap, capped_none, orderRawRows_cut, capped_map] at hrows
        refine ⟨_, (List.perm_insertionSort _ seen).trans hperm, ?_, hrows⟩
        exact List.pairwise_insertionSort (NotAfter fun a b => cmpRawRows a b q.selectedKeys) seen
      · rw [hearly] at htrue
        cases htrue

/-! A column that is not selected does not order the rows. -/

private def letterRow (a b : String) : Row :=
  (Std.ExtTreeMap.insert ∅ "a" (.string a)).insert "b" (.string b)

private theorem letterRow_a (a b : String) : (letterRow a b)["a"]? = some (.string a) := by
  rw [letterRow, Std.ExtTreeMap.getElem?_insert, if_neg (by decide),
    Std.ExtTreeMap.getElem?_insert_self]

private def letters : String → List Row
  | "s0" => [letterRow "1" "y", letterRow "2" "x", letterRow "3" "z"]
  | _ => []

private def letterHost : MapHost where
  map _ _ _ := .error .timeout
  project _ shard q := .ok (q.projectShard (letters shard.cid))

private theorem letterHost_projects (q : Query) : letterHost.Projects letters q :=
  fun _ _ _ h => (Except.ok.inj h).symm

private def letterShards : List Shard :=
  [{ cid := "s0", rows := U64.zero, bytes := U64.zero, stats := none }]

/-- The rows of the shard except the third one. -/
private def letterQuery (columns : List String) (key : OrderKey) : Query where
  dataset := "t"
  aggregates := []
  predicate := .cmp "a" .ne (.string "3")
  groupBy := []
  orderBy := [key]
  limit := some U64.one
  projection := some columns

/-- Sorting by an unselected column leaves the rows in their order. -/
theorem runProjection_sorted_unselected : ∃ report,
    runProjection .sample letterHost .twoAtATime (letterQuery ["a"] { column := "b", dir := .asc })
        (fun _ _ => 0) letterShards ["host0"] [0] = some (.ok report) ∧
      SortedCut (letterQuery ["a"] { column := "b", dir := .asc }) []
        [letterRow "1" "y", letterRow "2" "x"] report.rows := by
  obtain ⟨report, hrun⟩ : ∃ report, runProjection .sample letterHost .twoAtATime
      (letterQuery ["a"] { column := "b", dir := .asc }) (fun _ _ => 0) letterShards ["host0"] [0] =
        some (.ok report) := ⟨_, rfl⟩
  exact ⟨report, hrun, runProjection_sorted (letterHost_projects _) rfl hrun⟩

/-- Sorting by an unselected column: the row that is returned is not the first one of the
rows in the order of the key. -/
theorem unselected_key_ignored : ∃ report,
    runProjection .sample letterHost .twoAtATime (letterQuery ["a"] { column := "b", dir := .asc })
        (fun _ _ => 0) letterShards ["host0"] [0] = some (.ok report) ∧
      ¬SortedCut (letterQuery ["a"] { column := "b", dir := .asc })
        (letterQuery ["a"] { column := "b", dir := .asc }).orderBy
        (matchingRows letters (letterQuery ["a"] { column := "b", dir := .asc }) letterShards)
        report.rows := by
  refine ⟨_, rfl, ?_⟩
  rintro ⟨arranged, hperm, hsorted, hrows⟩
  have hperm : arranged.Perm [letterRow "1" "y", letterRow "2" "x"] := hperm
  cases arranged with
  | nil => cases hperm.length_eq
  | cons row rest =>
      have hmem := hperm.mem_iff.mp (List.mem_cons_self : row ∈ row :: rest)
      simp only [List.mem_cons, List.not_mem_nil, or_false] at hmem
      obtain rfl | rfl := hmem
      · have hother : letterRow "2" "x" ∈ rest := by
          rw [hperm.cons_inv.mem_iff]
          exact List.mem_singleton_self _
        exact List.rel_of_pairwise_cons hsorted hother rfl
      · have hcells : [some (Value.string "1")] = [some (.string "2")] :=
          congrArg (List.map fun row : Row => row["a"]?) hrows
        simp at hcells

theorem rowCmp_cut (hselected : ∀ key ∈ q.orderBy, q.Selects key.column) (a b : Row) :
    q.rowCmp (q.cut a) (q.cut b) = q.rowCmp a b := by
  rw [Query.rowCmp, cmpRawRows_cut, selectedKeys_eq hselected]
  rfl

/-- A run with an `ORDER BY` sorts the rows that were kept. -/
theorem runProjection_kept (hhost : host.Projects store q) (horder : q.orderBy ≠ [])
    (hrun : runProjection env host config q clock shards hosts order = some (.ok report)) :
    report.rows = capped q.rowLimit
        (ranked q.rowCmp ((keptRows env config q store shards hosts order).map q.cut)) ∧
      (keptRows env config q store shards hosts order ++
        lostRows env config q store shards hosts order).Perm (matchingRows store q shards) := by
  have hearly : canEarlyStop q = false := by
    cases hkeys : q.orderBy with
    | nil => exact absurd hkeys horder
    | cons key keys => simp [canEarlyStop, hkeys]
  obtain ⟨seen, unseen, hperm, hrows, ⟨rfl, rfl⟩ | ⟨htrue, _⟩⟩ := runProjection_seen hhost hrun
  · rw [collectCap_eq_memoryCeiling hearly, finishRows_eq, orderRawRows,
      if_neg (by simpa using horder), capped_map] at hrows
    refine ⟨hrows, ?_⟩
    rw [List.append_nil] at hperm
    rw [keptRows, lostRows, ← List.append_assoc, capped_append_overflow]
    exact (hperm.append_right _).trans matchingRows_perm
  · rw [hearly] at htrue
    cases htrue

/-- The result of a run with an `ORDER BY` on selected columns is the top of the matching
rows exactly if none is lost, or there is a limit and as many of the kept rows come no
later than each lost one. -/
theorem runProjection_top_iff (hhost : host.Projects store q) (horder : q.orderBy ≠ [])
    (hselected : ∀ key ∈ q.orderBy, q.Selects key.column)
    (hrun : runProjection env host config q clock shards hosts order = some (.ok report)) :
    TopRows q (matchingRows store q shards) report.rows ↔
      lostRows env config q store shards hosts order = [] ∨
        ∃ n, q.rowLimit = some n ∧ ∀ x ∈ lostRows env config q store shards hosts order,
          n ≤ (keptRows env config q store shards hosts order).countP
            fun y => q.rowCmp y x ≠ .gt := by
  obtain ⟨hrows, hperm⟩ := runProjection_kept hhost horder hrun
  generalize keptRows env config q store shards hosts order = kept at *
  generalize lostRows env config q store shards hosts order = lost at *
  have hcmp := rowCmp_cut hselected
  have htop : TopRows q (matchingRows store q shards) report.rows ↔
      IsTop q.rowCmp q.rowLimit (kept.map q.cut ++ lost.map q.cut) report.rows := by
    rw [← List.map_append, isTop_perm q.rowCmp (hperm.map q.cut), isTop_map_iff q.rowCmp hcmp]
    constructor
    · exact fun h => ⟨h.length, h.first⟩
    · intro h
      refine ⟨?_, h.1, h.2⟩
      rw [hrows]
      exact ranked_pairwise.sublist capped_sublist
  rw [htop, hrows, isTop_capped_iff, List.map_eq_nil_iff]
  refine or_congr_right (exists_congr fun n => and_congr_right fun _ => ?_)
  rw [List.forall_mem_map]
  refine forall₂_congr fun x _ => ?_
  simp only [List.countP_map, NotAfter, Function.comp_def, hcmp]

/-! A memory ceiling of two rows, under which three rows arrive. -/

private def twoRowsAtOnce : RunConfig :=
  { RunConfig.twoAtATime with
    limits := { RunConfig.twoAtATime.limits with maxResultGroups := 2 } }

/-- All rows of the shard. -/
private def allLetters (dir : OrderDir) : Query :=
  { letterQuery [] { column := "a", dir } with predicate := .true }

/-- The first row arrives before the ceiling is reached. -/
theorem runProjection_top_iff_ascending : ∃ report,
    runProjection .sample letterHost twoRowsAtOnce (allLetters .asc) (fun _ _ => 0) letterShards
        ["host0"] [0] = some (.ok report) ∧
      TopRows (allLetters .asc) (matchingRows letters (allLetters .asc) letterShards)
        report.rows := by
  obtain ⟨report, hrun⟩ : ∃ report, runProjection .sample letterHost twoRowsAtOnce
      (allLetters .asc) (fun _ _ => 0) letterShards ["host0"] [0] = some (.ok report) := ⟨_, rfl⟩
  refine ⟨report, hrun, (runProjection_top_iff (letterHost_projects _) ?_ ?_ hrun).mpr ?_⟩
  · exact List.cons_ne_nil _ _
  · exact fun _ _ => .inl rfl
  · refine .inr ⟨1, rfl, ?_⟩
    change ∀ x ∈ [letterRow "3" "z"], 1 ≤ [letterRow "1" "y", letterRow "2" "x"].countP _
    rw [List.forall_mem_singleton]
    decide

/-- The last row arrives when the ceiling is reached, and the row before it is returned
as the last one. -/
theorem top_row_lost : ∃ report,
    runProjection .sample letterHost twoRowsAtOnce (allLetters .desc) (fun _ _ => 0) letterShards
        ["host0"] [0] = some (.ok report) ∧
      ¬TopRows (allLetters .desc) (matchingRows letters (allLetters .desc) letterShards)
        report.rows := by
  refine ⟨_, rfl, ?_⟩
  intro htop
  obtain ⟨kept, left, hperm, hrows, hfirst⟩ := htop.first
  have hkept : [letterRow "2" "x"] = kept := by
    have hcut : kept.map (allLetters .desc).cut = kept := List.map_id' kept
    exact hrows.trans hcut
  have hperm : (kept ++ left).Perm [letterRow "1" "y", letterRow "2" "x", letterRow "3" "z"] :=
    hperm
  have hlast : letterRow "3" "z" ∈ kept ++ left := hperm.mem_iff.mpr (by simp)
  rw [← hkept, List.singleton_append, List.mem_cons] at hlast
  obtain heq | hleft := hlast
  · have hcells := congrArg (fun row : Row => row["a"]?) heq
    simp only [letterRow_a, Option.some.injEq, Value.string.injEq] at hcells
    exact absurd hcells (by decide)
  · refine hfirst _ hleft (letterRow "2" "x") ?_ rfl
    rw [← hkept]
    exact List.mem_singleton_self _

end RunProjection

end CeQuery
