import CeQuery.Value

/-!
# The cells of a column

What a list of rows shows of one column: all its cells, the numbers that
comparisons and averages read, and the numbers that a sum reads.
-/

namespace CeQuery

/-- The cells of column `f`, in row order; rows without the column are left out. -/
def columnCells (f : String) (rows : List Row) : List Value :=
  rows.filterMap fun row => row[f]?

/-- The `f64` values of the numeric cells of column `f`. -/
def numericCells (f : String) (rows : List Row) : List F64 :=
  rows.filterMap fun row => row[f]?.bind asF64

/-- The numbers a sum over column `f` reads. -/
def summands (f : String) (rows : List Row) : List Num :=
  rows.filterMap fun row => row[f]?.bind asNumber

def Num.integer : Num → Option Int
  | .int n => some n.val
  | .float _ => none

/-- The exact integers among the cells of column `f`. -/
def integralCells (f : String) (rows : List Row) : List Int :=
  (summands f rows).filterMap Num.integer

section Rows

variable (f : String) (xs ys : List Row)

theorem numericCells_eq : numericCells f xs = (columnCells f xs).filterMap asF64 := by
  rw [columnCells, List.filterMap_filterMap]
  rfl

@[simp] theorem numericCells_append :
    numericCells f (xs ++ ys) = numericCells f xs ++ numericCells f ys :=
  List.filterMap_append

@[simp] theorem summands_append : summands f (xs ++ ys) = summands f xs ++ summands f ys :=
  List.filterMap_append

@[simp] theorem integralCells_append :
    integralCells f (xs ++ ys) = integralCells f xs ++ integralCells f ys := by
  simp [integralCells]

theorem numericCells_singleton (row : Row) :
    numericCells f [row] = (row[f]?.bind asF64).toList := by
  cases h : row[f]?.bind asF64 <;> simp [numericCells, h]

theorem summands_singleton (row : Row) :
    summands f [row] = (row[f]?.bind asNumber).toList := by
  cases h : row[f]?.bind asNumber <;> simp [summands, h]

theorem integralCells_singleton (row : Row) :
    integralCells f [row] = (row[f]?.bind asNumber).toList.filterMap Num.integer := by
  rw [integralCells, summands_singleton]

variable {xs ys}

theorem numericCells_perm (h : xs.Perm ys) : (numericCells f xs).Perm (numericCells f ys) :=
  h.filterMap _

theorem summands_perm (h : xs.Perm ys) : (summands f xs).Perm (summands f ys) :=
  h.filterMap _

theorem integralCells_perm (h : xs.Perm ys) : (integralCells f xs).Perm (integralCells f ys) :=
  (summands_perm f h).filterMap _

end Rows

end CeQuery
