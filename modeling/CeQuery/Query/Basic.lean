import CeQuery.Combine.Partial
import CeQuery.Query.Predicate

/-!
# Queries and the map side

A query filters the rows of a shard, and either groups and aggregates the
survivors (`mapShard`) or returns them cut down to the selected columns
(`projectShard`).
-/

namespace CeQuery

inductive OrderDir where
  | asc
  | desc
  deriving DecidableEq

/-- One `ORDER BY` key: an output column and a direction. -/
structure OrderKey where
  column : String
  dir : OrderDir
  deriving DecidableEq

/-- A full query: aggregates over a dataset, filtered and grouped, then ordered
and limited; or a projection when `projection` is present. -/
structure Query where
  dataset : String
  aggregates : List Agg
  predicate : Predicate
  groupBy : List String
  orderBy : List OrderKey
  limit : Option Usize
  projection : Option (List String)

namespace Query

def isProjection (q : Query) : Bool :=
  q.projection.isSome

/-- Keep the rows that pass the filter, cut down to the projected columns; the
empty column list selects every column. -/
def projectShard (q : Query) (rows : List Row) : List Row :=
  let cols := q.projection.getD []
  (rows.filter fun row => q.predicate.eval row).map fun row =>
    if cols = [] then row
    else cols.foldl (fun cut c =>
      match row[c]? with
      | some v => cut.insert c v
      | none => cut) ∅

/-- A row cut down to the projected columns. -/
def cut (q : Query) (row : Row) : Row :=
  let cols := q.projection.getD []
  if cols = [] then row
  else cols.foldl (fun cut c =>
    match row[c]? with
    | some v => cut.insert c v
    | none => cut) ∅

/-- The columns that a projection returns. -/
def Selects (q : Query) (c : String) : Prop :=
  q.projection.getD [] = [] ∨ c ∈ q.projection.getD []

/-- A query is an aggregate query or a projection, never both. -/
def validate (q : Query) : Except String Unit :=
  if Text.trim q.dataset.toList = [] then .error "query has no dataset"
  else if q.isProjection then
    if q.aggregates ≠ [] then .error "a projection query cannot also select aggregates"
    else if q.groupBy ≠ [] then
      .error "a projection query cannot use GROUP BY (it returns raw rows)"
    else .ok ()
  else if q.aggregates = [] then
    .error ("query selects no aggregates " ++
      "(need at least one of COUNT/SUM/MIN/MAX/AVG) or a projection")
  else .ok ()

/-- The group key of a row: the text of each `GROUP BY` cell, empty when the
column is absent. -/
def groupKey (json : SerdeJson) (q : Query) (row : Row) : List String :=
  q.groupBy.map fun k =>
    match (row[k]? : Option Value) with
    | some (.string s) => s
    | some v => json.toString v
    | none => ""

/-- Fold one row into the accumulators of its group. -/
def foldRow (row : Row) : List Agg → List Accum → List Accum
  | agg :: aggs, acc :: accs => agg.fold row acc :: foldRow row aggs accs
  | _, accs => accs

/-- Run the query over the rows of one shard. -/
def mapShard (json : SerdeJson) (q : Query) (rows : List Row) : Partial :=
  { aggregates := q.aggregates
    groups := rows.foldl (fun groups row =>
      if q.predicate.eval row then
        groups.upsert (q.groupKey json row) (q.aggregates.map Agg.zero)
          (foldRow row q.aggregates)
      else groups) ∅ }

section Project

variable {q : Query} {rows : List Row}

theorem projectShard_eq : q.projectShard rows =
    (rows.filter fun row => q.predicate.eval row).map q.cut := rfl

private theorem getElem?_foldl_cut (row : Row) (cols : List String) (cut : Row) (c : String) :
    (cols.foldl (fun cut c =>
        match row[c]? with
        | some v => cut.insert c v
        | none => cut) cut)[c]? =
      if c ∈ cols then row[c]?.or cut[c]? else cut[c]? := by
  induction cols generalizing cut with
  | nil => simp
  | cons col cols ih =>
      rw [List.foldl_cons, ih]
      cases hcol : row[col]? with
      | none =>
          by_cases hc : c = col
          · subst hc
            simp [hcol]
          · simp [hc]
      | some v =>
          by_cases hc : c = col
          · subst hc
            simp [hcol]
          · have hcmp : compare col c ≠ .eq := fun h => hc (Std.LawfulEqOrd.eq_of_compare h).symm
            simp [Std.ExtTreeMap.getElem?_insert, hcmp, hc]

theorem getElem?_cut_of_selects {c : String} (h : q.Selects c) (row : Row) :
    (q.cut row)[c]? = row[c]? := by
  rw [cut]
  by_cases hcols : q.projection.getD [] = []
  · rw [if_pos hcols]
  · rw [if_neg hcols, getElem?_foldl_cut, if_pos (h.resolve_left hcols)]
    simp

theorem getElem?_cut_of_not_selects {c : String} (h : ¬q.Selects c) (row : Row) :
    (q.cut row)[c]? = none := by
  rw [Selects, not_or] at h
  rw [cut, if_neg h.1, getElem?_foldl_cut, if_neg h.2]
  simp

/-- The cells of the projected rows are the selected cells of the rows that pass
the filter. -/
theorem projectShard_cells {P : Value → Prop} :
    (∀ cut ∈ q.projectShard rows, ∀ (c : String) (v : Value), cut[c]? = some v → P v) ↔
      ∀ row ∈ rows, q.predicate.eval row = true → ∀ (c : String) (v : Value), q.Selects c →
        row[c]? = some v → P v := by
  simp only [projectShard, List.forall_mem_map, List.mem_filter, and_imp]
  refine forall₂_congr fun row _ => imp_congr_right fun _ => forall₂_congr fun c v => ?_
  by_cases hcols : q.projection.getD [] = []
  · simp [Selects, hcols]
  · rw [if_neg hcols, getElem?_foldl_cut]
    by_cases hc : c ∈ q.projection.getD [] <;> simp [Selects, hcols, hc]

end Project

end Query

end CeQuery
