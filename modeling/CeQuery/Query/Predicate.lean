import CeQuery.Value

/-!
# Row filters

A predicate is a boolean combination of comparisons of one column with a
literal. Cells are compared by their JSON types, so values of different types
are unequal and not ordered.
-/

namespace CeQuery

/-- A scalar comparison operator. -/
inductive CmpOp where
  | eq
  | ne
  | lt
  | le
  | gt
  | ge
  deriving DecidableEq

/-- Apply the operator to the ordering of `left` against `right`. Values that
are not ordered satisfy `ne` only. -/
def CmpOp.eval (op : CmpOp) (left right : Value) : Bool :=
  match op, jsonCmp left right with
  | .eq, some .eq => true
  | .eq, _ => false
  | .ne, some .eq => false
  | .ne, _ => true
  | .lt, some .lt => true
  | .le, some .lt => true
  | .le, some .eq => true
  | .gt, some .gt => true
  | .ge, some .gt => true
  | .ge, some .eq => true
  | _, _ => false

/-- A boolean predicate over a row; `true` is the absent `WHERE`. -/
inductive Predicate where
  | true
  | cmp (field : String) (op : CmpOp) (value : Value)
  | and (a b : Predicate)
  | or (a b : Predicate)
  | not (a : Predicate)

/-- Evaluate the predicate. A comparison reads an absent column as null. -/
def Predicate.eval (row : Row) : Predicate → Bool
  | .true => Bool.true
  | .cmp field op value => op.eval (row[field]?.getD .null) value
  | .and a b => a.eval row && b.eval row
  | .or a b => a.eval row || b.eval row
  | .not a => !a.eval row

end CeQuery
