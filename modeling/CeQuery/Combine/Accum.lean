import CeQuery.Value

/-!
# Accumulators

The running state of one aggregate. A sum starts in a lossless 128-bit integer
lane and leaves it, for a compensated binary64 sum, at the first value that is
not an integer or when an addition would overflow.

`Accum.merge` combines the states of two shards. Accumulators of different
aggregates never meet in a well-formed partial; merging them changes nothing.
-/

namespace CeQuery

/-- A running total and the correction that recovers its rounding errors. -/
structure KahanSum where
  sum : F64
  comp : F64

namespace KahanSum

def zero : KahanSum := ⟨0, 0⟩

/-- Add one value with Neumaier compensation. -/
def add (k : KahanSum) (v : F64) : KahanSum :=
  let t := k.sum + v
  { sum := t
    comp :=
      if v.abs ≤ k.sum.abs then k.comp + ((k.sum - t) + v)
      else k.comp + ((v - t) + k.sum) }

/-- Fold the other total in, then carry its compensation. -/
def merge (k other : KahanSum) : KahanSum :=
  let added := k.add other.sum
  { added with comp := added.comp + other.comp }

/-- The corrected total. -/
def total (k : KahanSum) : F64 :=
  k.sum + k.comp

end KahanSum

/-- The running state of one aggregate over many rows. -/
inductive Accum where
  | count (n : U64)
  | intSum (n : I128)
  | sum (k : KahanSum)
  | min (m : Option F64)
  | max (m : Option F64)
  | avg (sum : KahanSum) (count : U64)

namespace Accum

/-- Merge `other` into the accumulator. -/
def merge : Accum → Accum → Accum
  | count a, count b => count (a.saturatingAdd b)
  | intSum x, intSum y =>
      match x.checkedAdd y with
      | some s => intSum s
      | none => sum ((KahanSum.zero.add (intToF64 x.val)).add (intToF64 y.val))
  | intSum x, sum b => sum ((KahanSum.zero.add (intToF64 x.val)).merge b)
  | sum a, intSum y => sum (a.add (intToF64 y.val))
  | sum a, sum b => sum (a.merge b)
  | min a, min b => min (a.merge F64.minNum b)
  | max a, max b => max (a.merge F64.maxNum b)
  | avg sa ca, avg sb cb => avg (sa.merge sb) (ca.saturatingAdd cb)
  | a, _ => a

/-- The output value of an accumulator; nothing when the conversion panics. A
mean is divided here, and only here. -/
def finalizeValue (json : SerdeJson) : Accum → Option Value
  | count n => some (.ofU64 n)
  | intSum n => json.ofI128 n
  | sum k => some (.ofF64 k.total)
  | min (some v) => some (.ofF64 v)
  | min none => some .null
  | max (some v) => some (.ofF64 v)
  | max none => some .null
  | avg k n =>
      if n.val = 0 then some .null
      else some (.ofF64 (k.total / intToF64 n.val))

end Accum

end CeQuery
