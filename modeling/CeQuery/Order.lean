import CeQuery.Foundation.Ranking
import CeQuery.Query.Basic

/-!
# ORDER BY and LIMIT

Ordering is applied once to the finalised rows. Cells of one type are compared
like literals in a filter, cells of different types by a fixed rank of the
types, and the sort is stable. The comparison is a total preorder of cells, and so
is the one by a list of keys.
-/

namespace CeQuery

/-- A fixed rank per JSON type. -/
def typeRank : Value → Nat
  | .null => 0
  | .bool _ => 1
  | .number _ => 2
  | .string _ => 3
  | .array _ => 4
  | .object _ => 5

/-- Compare two cells for sorting. -/
def cellCmp (a b : Value) : Ordering :=
  match jsonCmp a b with
  | some ord => ord
  | none => compare (typeRank a) (typeRank b)

/-- The cell an order key names: a group column if there is one of that name,
otherwise an output value. -/
def rowCell (row : GroupResult) (groupBy : List String) (column : String) : Option Value :=
  match groupBy.findIdx? (· == column) with
  | some idx => row.key[idx]?.map Value.string
  | none => row.values[column]?

/-- The first key that distinguishes the rows decides; an absent cell counts as
null. -/
def cmpKeys (cell : String → ρ → Option Value) (a b : ρ) : List OrderKey → Ordering
  | [] => .eq
  | key :: keys =>
      let ord := cellCmp ((cell key.column a).getD .null) ((cell key.column b).getD .null)
      let ord := if key.dir = .desc then ord.swap else ord
      if ord ≠ .eq then ord else cmpKeys cell a b keys

/-- Compare two result rows by the key list. -/
def cmpByKeys (a b : GroupResult) (groupBy : List String) (orderBy : List OrderKey) : Ordering :=
  cmpKeys (fun column row => rowCell row groupBy column) a b orderBy

/-- Compare two raw rows by the key list. -/
def cmpRawRows (a b : Row) (orderBy : List OrderKey) : Ordering :=
  cmpKeys (fun column row => row[column]?) a b orderBy

/-- Stable sort of the result rows; the empty key list leaves them as they are. -/
def orderRows (rows : List GroupResult) (groupBy : List String) (orderBy : List OrderKey) :
    List GroupResult :=
  if orderBy.isEmpty then rows
  else rows.insertionSort fun a b => cmpByKeys a b groupBy orderBy ≠ .gt

/-- Stable sort of raw projected rows. -/
def orderRawRows (rows : List Row) (orderBy : List OrderKey) : List Row :=
  if orderBy.isEmpty then rows
  else rows.insertionSort fun a b => cmpRawRows a b orderBy ≠ .gt

def applyLimit (rows : List GroupResult) (limit : Option Usize) : List GroupResult :=
  match limit with
  | some n => rows.take n.val.toNat
  | none => rows

/-- Apply the query's `ORDER BY` and then its `LIMIT`. -/
def Query.shape (q : Query) (rows : List GroupResult) : List GroupResult :=
  applyLimit (orderRows rows q.groupBy q.orderBy) q.limit

/-! ## The comparisons are total preorders -/

private def cellFlag : Value → Bool
  | .bool b => b
  | _ => false

private def cellNumber : Value → F64
  | .number (.posInt n) => intToF64 n.val
  | .number (.negInt n) => intToF64 n.val
  | .number (.float x) => x.val
  | _ => intToF64 0

private def cellString : Value → String
  | .string s => s
  | _ => ""

private def cellRank : Value → Value → Ordering :=
  compareLex (compareOn typeRank) <| compareLex (compareOn cellFlag) <|
    compareLex (fun a b => F64.rankCmp (cellNumber a) (cellNumber b)) (compareOn cellString)

private instance : Std.TransCmp fun a b => F64.rankCmp (cellNumber a) (cellNumber b) where
  eq_swap := Std.OrientedCmp.eq_swap
  isLE_trans := Std.TransCmp.isLE_trans

private instance : Std.TransCmp cellRank := by
  rw [cellRank]
  infer_instance

private theorem not_nan_cellNumber (v : Value) : (cellNumber v).isNaN = false := by
  unfold cellNumber
  split
  · exact F64.not_nan_ofInt _
  · exact F64.not_nan_ofInt _
  · rename_i x
    exact (F64.isFinite_iff.mp x.finite).1
  · exact F64.not_nan_ofInt _

private theorem jsonCmp_number (m n : Number) : jsonCmp (.number m) (.number n) =
    some (F64.rankCmp (cellNumber (.number m)) (cellNumber (.number n))) := by
  rw [← F64.partialCmp_eq_rankCmp (not_nan_cellNumber _) (not_nan_cellNumber _)]
  cases m <;> cases n <;> rfl

/-- Cells are compared by their types and then by what they hold. -/
private theorem cellCmp_eq_cellRank : cellCmp = cellRank := by
  funext a b
  cases a
  case number m =>
    cases b
    case number n =>
      rw [cellCmp, jsonCmp_number]
      simp [cellRank, compareLex, compareOn, typeRank, cellFlag, cellString]
    all_goals rfl
  -- cells of different types are told apart by the ranks, which are numerals
  all_goals cases b
  case null.null | bool.bool | string.string | array.array | object.object =>
    simp [cellCmp, jsonCmp, cellRank, compareLex, compareOn, typeRank, cellFlag, cellNumber,
      cellString, Std.ReflCmp.compare_self]
  all_goals rfl

instance : Std.TransCmp cellCmp := by
  rw [cellCmp_eq_cellRank]
  infer_instance

section Keys

variable {ρ : Type} {cell : String → ρ → Option Value}

/-- The comparison by one column. -/
private def cmpColumn (cell : String → ρ → Option Value) (column : String) (a b : ρ) : Ordering :=
  cellCmp ((cell column a).getD .null) ((cell column b).getD .null)

private instance (column : String) : Std.TransCmp (cmpColumn cell column) where
  eq_swap {a b} := by
    rw [cmpColumn, cmpColumn]
    exact Std.OrientedCmp.eq_swap
  isLE_trans {a b c} hab hbc := by
    rw [cmpColumn] at *
    exact Std.TransCmp.isLE_trans hab hbc

private theorem cmpKeys_cons (key : OrderKey) (keys : List OrderKey) :
    (fun a b : ρ => cmpKeys cell a b (key :: keys)) =
      compareLex (if key.dir = .desc then fun a b => cmpColumn cell key.column b a
        else cmpColumn cell key.column) fun a b => cmpKeys cell a b keys := by
  funext a b
  have hswap : cmpColumn cell key.column b a = (cmpColumn cell key.column a b).swap :=
    Std.OrientedCmp.eq_swap
  have hcell : cellCmp ((cell key.column a).getD .null) ((cell key.column b).getD .null) =
      cmpColumn cell key.column a b := rfl
  simp only [cmpKeys, compareLex, hcell]
  split
  · simp only [hswap]
    cases cmpColumn cell key.column a b <;> rfl
  · cases cmpColumn cell key.column a b <;> rfl

instance (keys : List OrderKey) : Std.TransCmp fun a b : ρ => cmpKeys cell a b keys := by
  induction keys with
  | nil =>
      exact {
        eq_swap := rfl
        isLE_trans := fun _ _ => rfl }
  | cons key keys ih =>
      rw [cmpKeys_cons]
      split <;> infer_instance

end Keys

end CeQuery
