import CeQuery.Combine.Reference
import CeQuery.Query.Basic

/-!
# The cells that aggregates read

A sum trims a string before it reads a number from it; a mean, a minimum and a maximum
read the string as it stands. Otherwise the two ways of reading accept the same cells
(`isSome_asNumber_iff`), so the aggregates of a query read the same rows unless a
number stands between whitespace (`sameCells_iff`).
-/

namespace CeQuery

/-- Whether the aggregate takes a number from the row. -/
def Agg.reads (row : Row) : Agg → Bool
  | .count => true
  | .sum f => (row[f]?.bind asNumber).isSome
  | .min f => (row[f]?.bind asF64).isSome
  | .max f => (row[f]?.bind asF64).isSome
  | .avg f => (row[f]?.bind asF64).isSome

/-- A number with whitespace at one of its ends. -/
def Value.Padded : Value → Prop
  | .string s => Text.trim s.toList ≠ s.toList ∧
      (Decimal.parse (Text.trim s.toList)).isSome = true
  | _ => False

instance (v : Value) : Decidable v.Padded := by
  cases v <;> unfold Value.Padded <;> infer_instance

/-- The numeric aggregates over a column read the same rows, and a sum adds as many
numbers as a mean divides by. -/
structure SameCells (f : String) (rows : List Row) : Prop where
  avg : ∀ row ∈ rows, (Agg.sum f).reads row = (Agg.avg f).reads row
  min : ∀ row ∈ rows, (Agg.sum f).reads row = (Agg.min f).reads row
  max : ∀ row ∈ rows, (Agg.sum f).reads row = (Agg.max f).reads row
  /-- The sum adds as many numbers as the mean counts. -/
  count : ∃ k n, (Agg.avg f).foldRows rows = .avg k n ∧ n = U64.saturated (summands f rows).length ∧
    (Agg.sum f).foldRows rows = (summands f rows).foldl foldSum (.intSum I128.zero)

section Values

variable {v : Value}

/-- The number in a string is read after trimming. -/
theorem isSome_asNumber_string (s : String) :
    (asNumber (.string s)).isSome = (Decimal.parse (Text.trim s.toList)).isSome := by
  rw [asNumber]
  cases hint : parseI128 (Text.trim s.toList) with
  | none => exact Option.isSome_map
  | some n =>
      obtain ⟨m, hm, _⟩ := Option.bind_eq_some_iff.mp hint
      exact (Decimal.isSome_parse_of_signed hm).symm

theorem isSome_asNumber_number (n : Number) : (asNumber (.number n)).isSome = true := by
  rw [asNumber]
  cases n with
  | posInt n =>
      dsimp only [Number.asU64]
      cases Number.asI64 (.posInt n) <;> rfl
  | negInt n => rfl
  | float x => rfl

/-- The two ways of reading a cell accept it both or neither, unless it is padded. -/
theorem isSome_asNumber_iff : (asNumber v).isSome = (asF64 v).isSome ↔ ¬v.Padded := by
  cases v with
  | number n =>
      rw [isSome_asNumber_number]
      exact iff_of_true (by cases n <;> rfl) not_false
  | string s =>
      rw [isSome_asNumber_string, asF64, Value.Padded]
      by_cases htrim : Text.trim s.toList = s.toList
      · rw [htrim]
        exact iff_of_true rfl fun h => h.1 rfl
      · rw [Decimal.parse_eq_none_of_trim_ne htrim]
        cases (Decimal.parse (Text.trim s.toList)).isSome <;> simp [htrim]
  | _ => exact iff_of_true rfl not_false

end Values

section Rows

variable {f : String} {rows : List Row} {row : Row}

/-- The cell of the row in the column is not padded. -/
def Plain (f : String) (row : Row) : Prop :=
  ∀ v, row[f]? = some v → ¬v.Padded

theorem reads_sum_iff :
    (Agg.sum f).reads row = (row[f]?.bind asF64).isSome ↔ Plain f row := by
  rw [Agg.reads, Plain]
  cases hcell : (row[f]? : Option Value) with
  | none => simp
  | some v =>
      rw [Option.bind_some, Option.bind_some, isSome_asNumber_iff]
      simp

/-- The sum and the mean take a number from the same rows, so from as many. -/
theorem length_summands (h : ∀ row ∈ rows, Plain f row) :
    (summands f rows).length = (numericCells f rows).length := by
  induction rows with
  | nil => rfl
  | cons row rows ih =>
      rw [List.forall_mem_cons] at h
      have hcell := reads_sum_iff.mpr h.1
      change (row[f]?.bind asNumber).isSome = _ at hcell
      have hrest := ih h.2
      rw [summands, numericCells, List.filterMap_cons, List.filterMap_cons]
      cases hnum : row[f]?.bind asNumber <;> cases hf64 : row[f]?.bind asF64 <;>
        simp only [hnum, hf64, Option.isSome_none, Option.isSome_some, reduceCtorEq] at hcell
      · exact hrest
      · exact congrArg (· + 1) hrest

theorem sameCells (h : ∀ row ∈ rows, Plain f row) : SameCells f rows where
  avg row hrow := reads_sum_iff.mpr (h row hrow)
  min row hrow := reads_sum_iff.mpr (h row hrow)
  max row hrow := reads_sum_iff.mpr (h row hrow)
  count := by
    have havg : (Agg.avg f).Describes rows ((Agg.avg f).foldRows rows) := foldRows_describes trivial
    cases hacc : (Agg.avg f).foldRows rows <;> rw [hacc] at havg <;> try exact havg.elim
    rename_i k n
    refine ⟨k, n, rfl, ?_, foldRows_sum f rows⟩
    rw [length_summands h]
    exact havg

end Rows

/-- The two readings accept the same values up to padding, and the aggregates over a
column read the same rows exactly if no row that passes the filter has a padded
number. -/
theorem sameCells_iff (f : String) (predicate : Predicate) (rows : List Row) :
    (∀ v : Value, (asNumber v).isSome = (asF64 v).isSome ↔ ¬v.Padded) ∧
      (SameCells f (rows.filter fun row => predicate.eval row) ↔
        ∀ row ∈ rows, predicate.eval row = true → Plain f row) := by
  refine ⟨fun v => isSome_asNumber_iff, ?_⟩
  have hfilter : (∀ row ∈ rows, predicate.eval row = true → Plain f row) ↔
      ∀ row ∈ rows.filter fun row => predicate.eval row, Plain f row := by
    simp only [List.mem_filter, and_imp]
  rw [hfilter]
  exact ⟨fun h row hrow => reads_sum_iff.mp (h.avg row hrow), sameCells⟩

/-- A sum reads the text ` 42 ` and a mean does not. -/
theorem padded_read_once : (asNumber (.string " 42 ")).isSome = true ∧
    (asF64 (.string " 42 ")).isSome = false ∧
      ¬SameCells "v" [(∅ : Row).insert "v" (.string " 42 ")] := by
  have hsum : (asNumber (.string " 42 ")).isSome = true := by decide
  have havg : (asF64 (.string " 42 ")).isSome = false := by decide
  refine ⟨hsum, havg, fun h => ?_⟩
  have hrow := h.avg _ List.mem_cons_self
  rw [Agg.reads, Agg.reads, Std.ExtTreeMap.getElem?_insert_self, Option.bind_some,
    Option.bind_some, hsum, havg] at hrow
  cases hrow

end CeQuery
