import CeQuery.Cells
import CeQuery.Dataset
import CeQuery.Foundation.Packing

/-!
# What shard statistics say

The statistics loop visits every cell of every row. Followed along one column it
is a scan of that column's cells: `StatsScan.Knows` says what the loop state
knows of the column after some of its cells. A cell of the column extends the
knowledge by that cell, a cell of another column changes nothing.

In the end there is an entry exactly for a column that is present with numbers
only, and the entry is the pair of its extrema (`computeStats_bounds`). Where no cell
is NaN the extrema do not depend on the order of the rows (`StatsExact`).
-/

namespace CeQuery

/-- What an entry, or its absence, says about the cells of a column. -/
def ColumnBounds (cells : List Value) : Option (F64 × F64) → Prop
  | none => cells = [] ∨ ∃ c ∈ cells, asF64 c = none
  | some (min, max) =>
      (∀ c ∈ cells, (asF64 c).isSome = true) ∧
        F64.Extremum .least (cells.filterMap asF64) min ∧
          F64.Extremum .greatest (cells.filterMap asF64) max

namespace ColumnBounds

variable {cells : List Value} {entry : Option (F64 × F64)} {val : Value} {v : F64}

/-- A column with a cell that is no number has no entry. -/
theorem eq_none (h : ColumnBounds cells entry) (hbad : ∃ c ∈ cells, asF64 c = none) :
    entry = none := by
  cases entry with
  | none => rfl
  | some entry =>
      obtain ⟨c, hc, hnone⟩ := hbad
      have hsome := h.1 c hc
      rw [hnone] at hsome
      cases hsome

/-- A number extends the entry of a column of numbers. -/
theorem snoc (h : ColumnBounds cells entry) (hv : asF64 val = some v)
    (hnumeric : ∀ c ∈ cells ++ [val], (asF64 c).isSome = true) :
    ColumnBounds (cells ++ [val])
      (some (F64.minNum (entry.getD (v, v)).1 v, F64.maxNum (entry.getD (v, v)).2 v)) := by
  have hcells : (cells ++ [val]).filterMap asF64 = cells.filterMap asF64 ++ [v] := by simp [hv]
  refine ⟨hnumeric, ?_⟩
  rw [hcells]
  cases entry with
  | none =>
      have hempty : cells = [] := by
        obtain hempty | ⟨c, hc, hnone⟩ := h
        · exact hempty
        · have hsome := hnumeric c (List.mem_append_left _ hc)
          rw [hnone] at hsome
          cases hsome
      have hself : ∀ e : F64.End, F64.Extremum e [v] (e.pick v v) := by
        intro e
        rw [F64.End.pick_self]
        exact F64.Extremum.singleton e v
      rw [hempty]
      exact ⟨hself .least, hself .greatest⟩
  | some entry =>
      obtain ⟨_, hmin, hmax⟩ := h
      exact ⟨hmin.append (F64.Extremum.singleton .least v),
        hmax.append (F64.Extremum.singleton .greatest v)⟩

end ColumnBounds

/-- What the loop knows of column `f` after its cells `cells`. -/
structure StatsScan.Knows (f : String) (cells : List Value) (s : StatsScan) : Prop where
  disqualified : s.disqualified.contains f = true ↔ ∃ c ∈ cells, asF64 c = none
  bounds : ColumnBounds cells s.numeric[f]?

namespace StatsScan.Knows

variable {f col : String} {cells : List Value} {val : Value} {s : StatsScan}

/-- A cell of another column is not noticed. -/
theorem other (hne : col ≠ f) (h : Knows f cells s) : Knows f cells (s.cell col val) := by
  have hcmp : ¬compare col f = .eq := fun heq => hne (Std.LawfulEqOrd.eq_of_compare heq)
  rw [StatsScan.cell]
  split
  · exact h
  · split
    · refine ⟨h.disqualified, ?_⟩
      simpa [BTreeMap.getElem?_upsert_of_ne _ _ _ hne] using h.bounds
    · refine ⟨?_, ?_⟩
      · simpa [Std.ExtTreeSet.contains_insert, hcmp] using h.disqualified
      · simpa [Std.ExtTreeMap.getElem?_erase, hcmp] using h.bounds

/-- A cell of the column extends what is known. -/
theorem snoc (h : Knows f cells s) : Knows f (cells ++ [val]) (s.cell f val) := by
  rw [StatsScan.cell]
  split
  · rename_i hdis
    have hbad := h.disqualified.mp hdis
    have hbad' : ∃ c ∈ cells ++ [val], asF64 c = none :=
      hbad.imp fun c hc => ⟨List.mem_append_left _ hc.1, hc.2⟩
    refine ⟨⟨fun _ => hbad', fun _ => hdis⟩, ?_⟩
    rw [h.bounds.eq_none hbad]
    exact .inr hbad'
  · rename_i hdis
    have hnumeric : ∀ c ∈ cells, (asF64 c).isSome = true := by
      intro c hc
      rw [Option.isSome_iff_ne_none]
      exact fun hnone => hdis (h.disqualified.mpr ⟨c, hc, hnone⟩)
    split
    · rename_i v hv
      have hnumeric' : ∀ c ∈ cells ++ [val], (asF64 c).isSome = true := by
        refine List.forall_mem_append.mpr ⟨hnumeric, List.forall_mem_singleton.mpr ?_⟩
        rw [hv]
        rfl
      refine ⟨⟨fun hcontains => absurd hcontains hdis, ?_⟩, ?_⟩
      · rintro ⟨c, hc, hnone⟩
        have hsome := hnumeric' c hc
        rw [hnone] at hsome
        cases hsome
      · rw [BTreeMap.getElem?_upsert_self]
        exact h.bounds.snoc hv hnumeric'
    · rename_i hnone
      have hbad : ∃ c ∈ cells ++ [val], asF64 c = none := ⟨val, by simp, hnone⟩
      refine ⟨⟨fun _ => hbad, fun _ => by simp⟩, ?_⟩
      rw [Std.ExtTreeMap.getElem?_erase_self]
      exact .inr hbad

/-- A row contributes the cell it has in the column. -/
theorem row (h : Knows f cells s) (r : Row) : Knows f (cells ++ r[f]?.toList) (s.row r) := by
  cases hget : (r[f]? : Option Value) with
  | none =>
      have hmiss : Knows f cells (s.row r) :=
        BTreeMap.foldl_miss hget (fun _ _ _ hne hs => other hne hs) h
      simpa using hmiss
  | some val =>
      change Knows f (cells ++ [val]) (r.foldl StatsScan.cell s)
      refine BTreeMap.foldl_hit (P := Knows f cells) (b := val) hget ?_ ?_ ?_ h
      · intro s col val hne hs
        exact other hne hs
      · intro s hs
        exact snoc hs
      · intro s col val hne hs
        exact other hne hs

theorem rows (h : Knows f cells s) (rows : List Row) :
    Knows f (cells ++ columnCells f rows) (rows.foldl StatsScan.row s) := by
  induction rows generalizing cells s with
  | nil => simpa [columnCells] using h
  | cons r rows ih =>
      have hcells : cells ++ columnCells f (r :: rows) =
          cells ++ r[f]?.toList ++ columnCells f rows := by
        cases hget : (r[f]? : Option Value) <;> simp [columnCells, hget]
      rw [hcells, List.foldl_cons]
      exact ih (h.row r)

end StatsScan.Knows

/-- The statistics have an entry for a column exactly if it is present with
numbers only, and the entry is the pair of its extrema. -/
theorem computeStats_bounds (f : String) (rows : List Row) :
    ColumnBounds (columnCells f rows) (computeStats rows).numeric[f]? := by
  have hinit : StatsScan.Knows f [] { numeric := ∅, disqualified := ∅ } :=
    ⟨by simp, by simp [ColumnBounds]⟩
  exact (hinit.rows rows).bounds

/-! ## Rows without NaN -/

/-- No cell is read as NaN. -/
def NanFree (rows : List Row) : Prop :=
  ∀ row ∈ rows, ∀ (f : String) (val : Value) (v : F64), row[f]? = some val → asF64 val = some v →
    v.isNaN = false

/-- The equality of statistics: the same columns with equal numbers. -/
def ShardStats.Equal (s t : ShardStats) : Prop :=
  ∀ f : String, Option.Rel (fun a b : F64 × F64 =>
    F64.partialCmp a.1 b.1 = some .eq ∧ F64.partialCmp a.2 b.2 = some .eq)
    s.numeric[f]? t.numeric[f]?

/-- All zeros in a column have the same sign. -/
def OneZero (f : String) (rows : List Row) : Prop :=
  ∀ x ∈ numericCells f rows, ∀ y ∈ numericCells f rows, x.IsZero → y.IsZero → x = y

/-- What the statistics say about the cells, and that they say it in every order of
the rows. -/
structure StatsExact (rows : List Row) : Prop where
  /-- The columns with an entry are those that occur, with numbers only. -/
  entry : ∀ f : String, (computeStats rows).numeric[f]?.isSome = true ↔
    (∃ row ∈ rows, row[f]?.isSome = true) ∧
      ∀ row ∈ rows, ∀ val, row[f]? = some val → (asF64 val).isSome = true
  bounds : ∀ (f : String) (min max : F64), (computeStats rows).numeric[f]? = some (min, max) →
    ∀ row ∈ rows, ∀ val, row[f]? = some val → ∀ v, asF64 val = some v → min ≤ v ∧ v ≤ max
  attained : ∀ (f : String) (min max : F64), (computeStats rows).numeric[f]? = some (min, max) →
    (∃ row ∈ rows, row[f]?.bind asF64 = some min) ∧ ∃ row ∈ rows, row[f]?.bind asF64 = some max
  permuted : ∀ others : List Row, others.Perm rows →
    (computeStats others).Equal (computeStats rows)
  /-- Only the sign of a zero can depend on the order. -/
  identical : ∀ others : List Row, others.Perm rows → (∀ f, OneZero f rows) →
    computeStats others = computeStats rows

section Exact

variable {f : String} {rows others : List Row} {min max : F64}

theorem mem_columnCells {val : Value} :
    val ∈ columnCells f rows ↔ ∃ row ∈ rows, row[f]? = some val :=
  List.mem_filterMap

theorem mem_numericCells {v : F64} :
    v ∈ numericCells f rows ↔ ∃ row ∈ rows, row[f]?.bind asF64 = some v :=
  List.mem_filterMap

theorem NanFree.not_nan (h : NanFree rows) : ∀ v ∈ numericCells f rows, v.isNaN = false := by
  intro v hv
  obtain ⟨row, hrow, hcell⟩ := mem_numericCells.mp hv
  obtain ⟨val, hval, hnum⟩ := Option.bind_eq_some_iff.mp hcell
  exact h row hrow f val v hval hnum

/-- The entry of a column is the pair of its extrema. -/
theorem extrema_of_entry (h : (computeStats rows).numeric[f]? = some (min, max)) :
    F64.Extremum .least (numericCells f rows) min ∧
      F64.Extremum .greatest (numericCells f rows) max := by
  have hbounds := computeStats_bounds f rows
  rw [h] at hbounds
  rw [numericCells_eq]
  exact hbounds.2

theorem isSome_entry_iff : (computeStats rows).numeric[f]?.isSome = true ↔
    (∃ row ∈ rows, row[f]?.isSome = true) ∧
      ∀ row ∈ rows, ∀ val, row[f]? = some val → (asF64 val).isSome = true := by
  have hbounds := computeStats_bounds f rows
  cases hentry : (computeStats rows).numeric[f]? with
  | none =>
      rw [hentry] at hbounds
      refine iff_of_false Bool.false_ne_true ?_
      rintro ⟨⟨row, hrow, hpresent⟩, hnumeric⟩
      obtain ⟨val, hval⟩ := Option.isSome_iff_exists.mp hpresent
      obtain hempty | ⟨c, hc, hnone⟩ := hbounds
      · have hmem := mem_columnCells.mpr ⟨row, hrow, hval⟩
        rw [hempty] at hmem
        cases hmem
      · obtain ⟨row, hrow, hcell⟩ := mem_columnCells.mp hc
        have hsome := hnumeric row hrow c hcell
        rw [hnone] at hsome
        cases hsome
  | some entry =>
      rw [hentry] at hbounds
      refine iff_of_true rfl ⟨?_, ?_⟩
      · obtain ⟨c, hc, _⟩ := List.mem_filterMap.mp hbounds.2.1.mem
        obtain ⟨row, hrow, hcell⟩ := mem_columnCells.mp hc
        exact ⟨row, hrow, by rw [hcell]; rfl⟩
      · intro row hrow val hval
        exact hbounds.1 val (mem_columnCells.mpr ⟨row, hrow, hval⟩)

/-- Whether a column has an entry does not depend on the order of the rows. -/
theorem isSome_entry_perm (h : others.Perm rows) :
    (computeStats others).numeric[f]?.isSome = (computeStats rows).numeric[f]?.isSome := by
  rw [Bool.eq_iff_iff, isSome_entry_iff, isSome_entry_iff]
  simp only [h.mem_iff]

/-- In another order of the rows the entries are equal. -/
theorem entries_perm {min' max' : F64} (hnan : NanFree rows) (h : others.Perm rows)
    (hentry : (computeStats rows).numeric[f]? = some (min, max))
    (hentry' : (computeStats others).numeric[f]? = some (min', max')) :
    (min' ≤ min ∧ min ≤ min') ∧ (max' ≤ max ∧ max ≤ max') := by
  obtain ⟨hmin, hmax⟩ := extrema_of_entry hentry
  obtain ⟨hmin', hmax'⟩ := extrema_of_entry hentry'
  have hcells := numericCells_perm f h
  exact ⟨(hmin'.perm hcells).equal hmin hnan.not_nan, (hmax'.perm hcells).equal hmax hnan.not_nan⟩

/-- Without zeros of both signs, equal extrema are the same number. -/
theorem eq_of_oneZero {x y : F64} (hzero : OneZero f rows) (hx : x ∈ numericCells f rows)
    (hy : y ∈ numericCells f rows) (h : x ≤ y ∧ y ≤ x) : x = y := by
  obtain hsame | ⟨hx', hy'⟩ := F64.eq_or_isZero_of_le_of_le h.1 h.2
  · exact hsame
  · exact hzero x hx y hy hx' hy'

theorem computeStats_equal (hnan : NanFree rows) (h : others.Perm rows) :
    (computeStats others).Equal (computeStats rows) := by
  intro f
  have hsome : (computeStats others).numeric[f]?.isSome = (computeStats rows).numeric[f]?.isSome :=
    isSome_entry_perm h
  cases hentry : (computeStats rows).numeric[f]? with
  | none =>
      rw [hentry, Option.isSome_none, Option.isSome_eq_false_iff,
        Option.isNone_iff_eq_none] at hsome
      rw [hsome]
      exact .none
  | some entry =>
      rw [hentry, Option.isSome_some, Option.isSome_iff_exists] at hsome
      obtain ⟨entry', hentry'⟩ := hsome
      rw [hentry']
      obtain ⟨hmin, hmax⟩ := entries_perm hnan h hentry hentry'
      exact .some ⟨F64.partialCmp_eq_eq_iff.mpr hmin, F64.partialCmp_eq_eq_iff.mpr hmax⟩

theorem computeStats_identical (hnan : NanFree rows) (h : others.Perm rows)
    (hzero : ∀ f, OneZero f rows) : computeStats others = computeStats rows := by
  have hentries : ∀ f : String,
      (computeStats others).numeric[f]? = (computeStats rows).numeric[f]? := by
    intro f
    have hsome : (computeStats others).numeric[f]?.isSome =
        (computeStats rows).numeric[f]?.isSome := isSome_entry_perm h
    cases hentry : (computeStats rows).numeric[f]? with
    | none =>
        rw [hentry, Option.isSome_none, Option.isSome_eq_false_iff, Option.isNone_iff_eq_none]
          at hsome
        exact hsome
    | some entry =>
        rw [hentry, Option.isSome_some, Option.isSome_iff_exists] at hsome
        obtain ⟨entry', hentry'⟩ := hsome
        rw [hentry']
        obtain ⟨hmin, hmax⟩ := entries_perm hnan h hentry hentry'
        obtain ⟨hminMem, hmaxMem⟩ := extrema_of_entry hentry
        obtain ⟨hminMem', hmaxMem'⟩ := extrema_of_entry hentry'
        have hcells : ∀ {v}, v ∈ numericCells f others → v ∈ numericCells f rows :=
          (numericCells_perm f h).mem_iff.mp
        rw [Option.some.injEq]
        exact Prod.ext (eq_of_oneZero (hzero f) (hcells hminMem'.mem) hminMem.mem hmin)
          (eq_of_oneZero (hzero f) (hcells hmaxMem'.mem) hmaxMem.mem hmax)
  exact congrArg ShardStats.mk (Std.ExtTreeMap.ext_getElem? hentries)

end Exact

/-- The statistics of rows without NaN are exact, in every order of the rows. -/
theorem computeStats_exact (rows : List Row) (hnan : NanFree rows) : StatsExact rows where
  entry _ := isSome_entry_iff
  bounds f min max hentry row hrow val hval v hv := by
    obtain ⟨hmin, hmax⟩ := extrema_of_entry hentry
    have hcell : row[f]?.bind asF64 = some v := Option.bind_eq_some_iff.mpr ⟨val, hval, hv⟩
    have hmem := mem_numericCells.mpr ⟨row, hrow, hcell⟩
    have hnumber := hnan row hrow f val v hval hv
    exact ⟨hmin.bound v hmem hnumber, hmax.bound v hmem hnumber⟩
  attained f min max hentry := by
    obtain ⟨hmin, hmax⟩ := extrema_of_entry hentry
    exact ⟨mem_numericCells.mp hmin.mem, mem_numericCells.mp hmax.mem⟩
  permuted _ h := computeStats_equal hnan h
  identical _ h hzero := computeStats_identical hnan h hzero

/-- Column `a` has a text after a number, column `b` is not in every row. -/
private def mixedCells : List (List (String × Value)) :=
  [[("a", .ofU64 U64.one), ("b", .ofU64 (U64.wrap 7))],
    [("a", .string "x"), ("b", .ofU64 (U64.wrap 5))],
    [("a", .ofU64 (U64.wrap 3))]]

private def mixedRows : List Row :=
  mixedCells.map fun cells => Std.ExtTreeMap.ofList cells compare

/-- Column `a` has no entry, and that of `b` has the numbers of two rows. -/
theorem computeStats_exact_three_rows : StatsExact mixedRows ∧
    (computeStats mixedRows).numeric["a"]? = none ∧
      (computeStats mixedRows).numeric["b"]? = some (.ofInt 5, .ofInt 7) := by
  refine ⟨computeStats_exact mixedRows ?_, rfl, rfl⟩
  have hcells : ∀ cells ∈ mixedCells, ∀ cell ∈ cells,
      (asF64 cell.2).all (fun v => !v.isNaN) = true := by decide
  intro row hrow f val v hval hv
  obtain ⟨cells, hmem, rfl⟩ := List.mem_map.mp hrow
  have hnumber := hcells cells hmem _ (BTreeMap.mem_of_getElem?_ofList hval)
  rw [hv] at hnumber
  simpa using hnumber

end CeQuery
