import CeQuery.Combine.Accum

/-!
# Aggregate functions

Each aggregate starts from `zero` and folds the rows of a group one at a time.
A cell that is missing or not numeric is skipped.
-/

namespace CeQuery

/-- An aggregate function over a column, or over whole rows for `count`. -/
inductive Agg where
  | count
  | sum (field : String)
  | min (field : String)
  | max (field : String)
  | avg (field : String)
  deriving DecidableEq

/-- Fold one numeric value into a sum, staying in the integer lane while the
values are integers and the sum fits. -/
def foldSum : Accum → Num → Accum
  | .intSum s, .int v =>
      match s.checkedAdd v with
      | some t => .intSum t
      | none => .sum ((KahanSum.zero.add (intToF64 s.val)).add (intToF64 v.val))
  | .intSum s, .float v => .sum ((KahanSum.zero.add (intToF64 s.val)).add v)
  | .sum k, .int v => .sum (k.add (intToF64 v.val))
  | .sum k, .float v => .sum (k.add v)
  | acc, _ => acc

namespace Agg

/-- The output column name of the aggregate. -/
def outputName : Agg → String
  | count => "count"
  | sum f => "sum_" ++ f
  | min f => "min_" ++ f
  | max f => "max_" ++ f
  | avg f => "avg_" ++ f

/-- The identity element of the aggregate. -/
def zero : Agg → Accum
  | count => .count U64.zero
  | sum _ => .intSum I128.zero
  | min _ => .min none
  | max _ => .max none
  | avg _ => .avg KahanSum.zero U64.zero

/-- Fold the contribution of one row into an accumulator. -/
def fold (row : Row) : Agg → Accum → Accum
  | count, .count n => .count (n.saturatingAdd U64.one)
  | sum f, acc =>
      match row[f]?.bind asNumber with
      | some num => foldSum acc num
      | none => acc
  | min f, .min m =>
      match row[f]?.bind asF64 with
      | some v => .min (some (m.elim v fun c => F64.minNum c v))
      | none => .min m
  | max f, .max m =>
      match row[f]?.bind asF64 with
      | some v => .max (some (m.elim v fun c => F64.maxNum c v))
      | none => .max m
  | avg f, .avg k n =>
      match row[f]?.bind asF64 with
      | some v => .avg (k.add v) (n.saturatingAdd U64.one)
      | none => .avg k n
  | _, acc => acc

end Agg

end CeQuery
