import CeQuery.Combine.IntegerSum
import CeQuery.Foundation.Binary64
import CeQuery.Shaping

/-!
# Comparing integers

Every comparison of numbers goes through binary64, so integers are compared after
rounding to 53 significant bits. This is their order for two integers that are equal
or stay apart (`compare_nearest_iff`), the order of exact sums for rows in which no
sum is rounded to an earlier smaller one, and `MIN` and `MAX` end with the exact
extremum if rounding keeps it (`integers_exact_iff`).
-/

namespace CeQuery

/-- A cell with an integer of 64 bits, signed or unsigned. -/
structure IntegerCell where
  cell : Value
  int : Int
  holds : cell.integer = some int

/-- The relation of integers that an operator stands for. -/
def CmpOp.Holds : CmpOp → Int → Int → Prop
  | .eq, a, b => a = b
  | .ne, a, b => a ≠ b
  | .lt, a, b => a < b
  | .le, a, b => a ≤ b
  | .gt, a, b => b < a
  | .ge, a, b => b ≤ a

/-- The exact value of the cell is the integer `k`. -/
def Value.HasValue : Value → Int → Prop
  | number (.posInt n), k => n.val = k
  | number (.negInt n), k => n.val = k
  | number (.float x), k => F64.HasValue x.val.toModel.unpack k
  | _, _ => False

section Cells

variable {v w : Value} {a b k : Int}

/-- Rounding keeps the order of two integers that are equal or stay apart. -/
theorem compare_nearest_iff : compare (nearest a) (nearest b) = compare a b ↔
    a = b ∨ nearest a ≠ nearest b := by
  obtain hlt | rfl | hgt := lt_trichotomy a b
  · have hle : nearest a ≤ nearest b := nearest_mono hlt.le
    rw [Int.compare_eq_lt.mpr hlt, Int.compare_eq_lt, Int.lt_iff_le_and_ne]
    exact ⟨fun h => .inr h.2, fun h => ⟨hle, h.resolve_left hlt.ne⟩⟩
  · exact iff_of_true (by simp) (.inl rfl)
  · have hle : nearest b ≤ nearest a := nearest_mono hgt.le
    rw [Int.compare_eq_gt.mpr hgt, Int.compare_eq_gt, Int.lt_iff_le_and_ne]
    exact ⟨fun h => .inr h.2.symm, fun h => ⟨hle, (h.resolve_left hgt.ne').symm⟩⟩

/-- An integer cell is read as the number it is rounded to. -/
theorem asF64_of_integer (h : v.integer = some a) : asF64 v = some (intToF64 a) := by
  cases v with
  | number n =>
      cases n <;> cases h
      · rfl
      · rfl
  | _ => cases h

theorem isInteger_of_integer (h : v.integer = some a) :
    F64.IsInteger (nearest a) (intToF64 a).toModel.unpack := by
  apply F64.isInteger_ofInt
  cases v with
  | number n =>
      cases n with
      | posInt n =>
          cases h
          have hle := n.le_hi
          have hge := n.lo_le
          omega
      | negInt n =>
          cases h
          have hle := n.le_hi
          have hge := n.lo_le
          omega
      | float x => cases h
  | _ => cases h

theorem jsonCmp_of_integer (hv : v.integer = some a) (hw : w.integer = some b) :
    jsonCmp v w = some (compare (nearest a) (nearest b)) := by
  have hcmp := F64.partialCmp_of_isInteger (isInteger_of_integer hv) (isInteger_of_integer hw)
  have hx := asF64_of_integer hv
  have hy := asF64_of_integer hw
  cases v with
  | number m =>
      cases w with
      | number n =>
          change (m.asF64.bind fun x => n.asF64.bind fun y => F64.partialCmp x y) = _
          rw [show m.asF64 = some (intToF64 a) from hx, show n.asF64 = some (intToF64 b) from hy]
          exact hcmp
      | _ => cases hw
  | _ => cases hv

theorem cellCmp_of_integer (hv : v.integer = some a) (hw : w.integer = some b) :
    cellCmp v w = compare (nearest a) (nearest b) := by
  rw [cellCmp, jsonCmp_of_integer hv hw]

/-- The operators and the sort decide the order of the integers. -/
def DecideExactly (c d : IntegerCell) : Prop :=
  (∀ op : CmpOp, op.eval c.cell d.cell = true ↔ op.Holds c.int d.int) ∧
    cellCmp c.cell d.cell = compare c.int d.int

theorem decideExactly_iff (c d : IntegerCell) :
    DecideExactly c d ↔ c.int = d.int ∨ nearest c.int ≠ nearest d.int := by
  rw [DecideExactly, cellCmp_of_integer c.holds d.holds, compare_nearest_iff]
  refine and_iff_right_of_imp fun h op => ?_
  have hcmp := jsonCmp_of_integer c.holds d.holds
  rw [compare_nearest_iff.mpr h] at hcmp
  obtain hlt | heq | hgt := lt_trichotomy c.int d.int
  · rw [Int.compare_eq_lt.mpr hlt] at hcmp
    cases op <;> simp [CmpOp.eval, hcmp, CmpOp.Holds] <;> omega
  · rw [Int.compare_eq_eq.mpr heq] at hcmp
    cases op <;> simp [CmpOp.eval, hcmp, CmpOp.Holds] <;> omega
  · rw [Int.compare_eq_gt.mpr hgt] at hcmp
    cases op <;> simp [CmpOp.eval, hcmp, CmpOp.Holds] <;> omega

end Cells

/-! ## The greatest sums -/

section Sums

variable {x : String} {groupBy : List String} {rows : List GroupResult} {sum : GroupResult → Int}

/-- The rows have integers under the name of a sum. -/
def HasSums (x : String) (groupBy : List String) (sum : GroupResult → Int)
    (rows : List GroupResult) : Prop :=
  ∀ row ∈ rows, ((rowCell row groupBy ("sum_" ++ x)).bind Value.integer) = some (sum row)

instance : Std.TransCmp fun r r' : GroupResult => compare (sum r') (sum r) where
  eq_swap := Std.OrientedCmp.eq_swap
  isLE_trans := fun h h' => Std.TransCmp.isLE_trans h' h

/-- Sorting by a sum compares the rounded sums. -/
theorem orderRows_sum (h : HasSums x groupBy sum rows) :
    orderRows rows groupBy [⟨"sum_" ++ x, .desc⟩] =
      ranked (fun r r' => compare (nearest (sum r')) (nearest (sum r))) rows := by
  rw [orderRows_eq]
  apply ranked_congr
  intro r hr r' hr'
  obtain ⟨v, hv, hvint⟩ := Option.bind_eq_some_iff.mp (h r hr)
  obtain ⟨w, hw, hwint⟩ := Option.bind_eq_some_iff.mp (h r' hr')
  have hcell := cellCmp_of_integer hvint hwint
  have hswap : compare (nearest (sum r')) (nearest (sum r)) =
      (compare (nearest (sum r)) (nearest (sum r'))).swap := Std.OrientedCmp.eq_swap
  rw [hswap]
  simp only [cmpKeys, hv, hw, Option.getD_some, hcell, if_true]
  cases compare (nearest (sum r)) (nearest (sum r')) <;> rfl

/-- The rows with the greatest sums come first for every limit exactly if no sum is
rounded to an earlier smaller one. -/
theorem isTop_sum_iff (h : HasSums x groupBy sum rows) :
    (∀ n, IsTop (fun r r' => compare (sum r') (sum r)) (some n) rows
      ((orderRows rows groupBy [⟨"sum_" ++ x, .desc⟩]).take n)) ↔
      rows.Pairwise fun r r' => sum r < sum r' → nearest (sum r) ≠ nearest (sum r') := by
  rw [orderRows_sum h, isTop_coarser_iff]
  · simp only [Int.compare_eq_lt, Ne, Int.compare_eq_eq]
    exact ⟨fun h => h.imp fun hne hlt heq => hne hlt heq.symm,
      fun h => h.imp fun hne hlt heq => hne hlt heq.symm⟩
  · intro r r' hle
    rw [NotAfter, Ne, Int.compare_eq_gt] at hle ⊢
    exact fun hlt => hlt.not_ge (nearest_mono (not_lt.mp hle))

end Sums

/-! ## Extrema -/

section Extrema

variable {f : String} {rows : List Row} {ints : List Int}

/-- The rows hold these integers under `f`. -/
def HoldsIntegers (f : String) (rows : List Row) (ints : List Int) : Prop :=
  List.Forall₂ (fun (row : Row) k => ((row[f]? : Option Value).bind Value.integer) = some k)
    rows ints

theorem numericCells_of_integers (h : HoldsIntegers f rows ints) :
    numericCells f rows = ints.map intToF64 := by
  rw [HoldsIntegers] at h
  induction h with
  | nil => rfl
  | @cons row k rows ints hrow _ ih =>
      obtain ⟨v, hv, hint⟩ := Option.bind_eq_some_iff.mp hrow
      have hcell : row[f]?.bind asF64 = some (intToF64 k) := by
        rw [hv]
        exact asF64_of_integer hint
      rw [List.map_cons, ← ih]
      simp only [numericCells, List.filterMap_cons, hcell]

theorem isInteger_of_holds (h : HoldsIntegers f rows ints) :
    ∀ k ∈ ints, F64.IsInteger (nearest k) (intToF64 k).toModel.unpack := by
  intro k hk
  obtain ⟨i, hi, rfl⟩ := List.getElem_of_mem hk
  have hlength := h.length_eq
  obtain ⟨v, _, hint⟩ := Option.bind_eq_some_iff.mp (h.get (by omega) hi)
  exact isInteger_of_integer hint

/-- The integer lies at this end of the integers. -/
def Extreme : F64.End → List Int → Int → Prop
  | .least, ints, k => k ∈ ints ∧ ∀ j ∈ ints, k ≤ j
  | .greatest, ints, k => k ∈ ints ∧ ∀ j ∈ ints, j ≤ k

/-- An extremum of converted integers is the converted extremum. -/
theorem extremum_isInteger {e : F64.End} {m : F64} {k : Int}
    (hints : ∀ k ∈ ints, F64.IsInteger (nearest k) (intToF64 k).toModel.unpack)
    (hm : F64.Extremum e (ints.map intToF64) m) (hk : Extreme e ints k) :
    F64.IsInteger (nearest k) m.toModel.unpack := by
  obtain ⟨j, hj, rfl⟩ := List.mem_map.mp hm.mem
  have hmem : k ∈ ints := by
    cases e with
    | least => exact hk.1
    | greatest => exact hk.1
  have hbound := hm.bound (intToF64 k) (List.mem_map_of_mem hmem) (F64.not_nan_ofInt k)
  have hsame : nearest j = nearest k := by
    cases e with
    | least =>
        have hle := (F64.le_iff_of_isInteger (hints j hj) (hints k hmem)).mp hbound
        exact Int.le_antisymm hle (nearest_mono (hk.2 j hj))
    | greatest =>
        have hle := (F64.le_iff_of_isInteger (hints k hmem) (hints j hj)).mp hbound
        exact Int.le_antisymm (nearest_mono (hk.2 j hj)) hle
  rw [← hsame]
  exact hints j hj

/-- The end of the integers that an aggregate looks for. -/
def extremeAgg : F64.End → String → Agg
  | .least => .min
  | .greatest => .max

/-- The accumulator of an extremum of integers ends as an extremum of these. -/
theorem exists_extremum (json : SerdeJson) (e : F64.End) (h : HoldsIntegers f rows ints)
    (hints : ints ≠ []) : ∃ m, F64.Extremum e (ints.map intToF64) m ∧
      ((extremeAgg e f).foldRows rows).finalizeValue json = some (.ofF64 m) := by
  have hdescribes : (extremeAgg e f).Describes rows ((extremeAgg e f).foldRows rows) :=
    foldRows_describes (by cases e <;> trivial)
  have hnil : ints.map intToF64 ≠ [] := mt List.map_eq_nil_iff.mp hints
  generalize (extremeAgg e f).foldRows rows = acc at hdescribes ⊢
  cases e with
  | least =>
      cases acc with
      | min m =>
          have hm : F64.OptExtremum .least (numericCells f rows) m := hdescribes
          rw [numericCells_of_integers h] at hm
          cases m with
          | none => exact absurd hm hnil
          | some m => exact ⟨m, hm, rfl⟩
      | _ => exact hdescribes.elim
  | greatest =>
      cases acc with
      | max m =>
          have hm : F64.OptExtremum .greatest (numericCells f rows) m := hdescribes
          rw [numericCells_of_integers h] at hm
          cases m with
          | none => exact absurd hm hnil
          | some m => exact ⟨m, hm, rfl⟩
      | _ => exact hdescribes.elim

/-- An extremum ends as the exact one exactly if rounding keeps it. -/
theorem finalize_extreme_iff (json : SerdeJson) (e : F64.End) (h : HoldsIntegers f rows ints)
    {k : Int} (hk : Extreme e ints k) :
    (∃ v, ((extremeAgg e f).foldRows rows).finalizeValue json = some v ∧ v.HasValue k) ↔
      nearest k = k := by
  have hmem : k ∈ ints := by
    cases e with
    | least => exact hk.1
    | greatest => exact hk.1
  obtain ⟨m, hm, hvalue⟩ := exists_extremum json e h (List.ne_nil_of_mem hmem)
  have hinteger := extremum_isInteger (isInteger_of_holds h) hm hk
  have hcell : Value.HasValue (.ofF64 m) k ↔ F64.HasValue m.toModel.unpack k := by
    rw [Value.ofF64, dif_pos (F64.isFinite_of_isInteger hinteger)]
    rfl
  rw [hvalue]
  simp only [Option.some.injEq, exists_eq_left', hcell, hinteger.hasValue_iff]
  exact eq_comm

end Extrema

/-- Integers are compared exactly if rounding keeps them apart, the greatest sums come
first if no sum is rounded to an earlier smaller one, and an extremum is exact if
rounding keeps it. -/
theorem integers_exact_iff (c d : IntegerCell) (x : String) (groupBy : List String)
    (sum : GroupResult → Int) (groups : List GroupResult) (json : SerdeJson) (e : F64.End)
    (f : String) (rows : List Row) (ints : List Int) (k : Int) :
    (DecideExactly c d ↔ c.int = d.int ∨ nearest c.int ≠ nearest d.int) ∧
      (HasSums x groupBy sum groups →
        ((∀ n, IsTop (fun r r' => compare (sum r') (sum r)) (some n) groups
          ((orderRows groups groupBy [⟨"sum_" ++ x, .desc⟩]).take n)) ↔
          groups.Pairwise fun r r' => sum r < sum r' → nearest (sum r) ≠ nearest (sum r'))) ∧
      (HoldsIntegers f rows ints → Extreme e ints k →
        ((∃ v, ((extremeAgg e f).foldRows rows).finalizeValue json = some v ∧ v.HasValue k) ↔
          nearest k = k)) :=
  ⟨decideExactly_iff c d, isTop_sum_iff, fun h hk => finalize_extreme_iff json e h hk⟩

private def power : IntegerCell where
  cell := .ofU64 ⟨2 ^ 53, by decide, by decide⟩
  int := 2 ^ 53
  holds := rfl

private def afterPower : IntegerCell where
  cell := .ofU64 ⟨2 ^ 53 + 1, by decide, by decide⟩
  int := 2 ^ 53 + 1
  holds := rfl

private def total (n : U64) : GroupResult where
  key := []
  values := Std.ExtTreeMap.insert ∅ "sum_x" (.ofU64 n)

private def totalOf (r : GroupResult) : Int :=
  ((rowCell r [] "sum_x").bind Value.integer).getD 0

private def integerRow (n : U64) : Row :=
  Std.ExtTreeMap.insert ∅ "a" (.ofU64 n)

/-- Zero and one are not rounded together. -/
theorem integers_exact_zero_one :
    DecideExactly ⟨.ofU64 U64.zero, 0, rfl⟩ ⟨.ofU64 U64.one, 1, rfl⟩ ∧
      (∀ n, IsTop (fun r r' => compare (totalOf r') (totalOf r)) (some n)
        [total U64.zero, total U64.one]
        ((orderRows [total U64.zero, total U64.one] [] [⟨"sum_" ++ "x", .desc⟩]).take n)) ∧
      ∃ v, ((extremeAgg .greatest "a").foldRows
          [integerRow U64.zero, integerRow U64.one]).finalizeValue .sample = some v ∧
        v.HasValue 1 := by
  obtain ⟨hcells, hsums, hextreme⟩ := integers_exact_iff ⟨.ofU64 U64.zero, 0, rfl⟩
    ⟨.ofU64 U64.one, 1, rfl⟩ "x" [] totalOf [total U64.zero, total U64.one] .sample .greatest "a"
    [integerRow U64.zero, integerRow U64.one] [0, 1] 1
  have hrounded : nearest 0 ≠ nearest 1 := by decide
  refine ⟨hcells.mpr (.inr hrounded), (hsums ?_).mpr ?_, (hextreme ?_ ?_).mpr (by decide)⟩
  · intro row hrow
    rw [List.mem_pair] at hrow
    obtain rfl | rfl := hrow
    · rfl
    · rfl
  · rw [List.pairwise_pair]
    exact fun _ => hrounded
  · exact .cons rfl (.cons rfl .nil)
  · exact ⟨by decide, by decide⟩

/-- `2 ^ 53` and the next integer are the same for every comparison. -/
theorem next_integer_lost :
    CmpOp.eq.eval afterPower.cell power.cell = true ∧
      CmpOp.gt.eval afterPower.cell power.cell = false ∧
      cellCmp afterPower.cell power.cell = .eq ∧ ¬∀ c d : IntegerCell, DecideExactly c d := by
  have hrounded : compare (nearest afterPower.int) (nearest power.int) = .eq := by decide
  have hcmp : jsonCmp afterPower.cell power.cell = some .eq :=
    (jsonCmp_of_integer afterPower.holds power.holds).trans (congrArg some hrounded)
  have heq : CmpOp.eq.eval afterPower.cell power.cell = true := by
    simp only [CmpOp.eval, hcmp]
  refine ⟨heq, ?_, ?_, fun hall => ?_⟩
  · simp only [CmpOp.eval, hcmp]
  · rw [cellCmp, hcmp]
  · have hsame : (2 : Int) ^ 53 + 1 = 2 ^ 53 := ((hall afterPower power).1 .eq).mp heq
    exact absurd hsame (by decide)

end CeQuery
