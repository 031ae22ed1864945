import CeQuery.Catalog.Basic
import CeQuery.Query.Basic

/-!
# Map requests and replies

What a coordinator sends to a host and what the host answers, with their JSON
forms. Enumerations are written by tag, and the groups of a partial as an array
of pairs because a group key is a list.
-/

namespace CeQuery

/-- The request to map one shard. -/
structure MapRequest where
  query : Query
  shard : Shard
  grant : Option String

/-- The reply of a host. -/
inductive MapReply where
  | ok (p : Partial)
  | rows (rows : List Row)
  | err (reason : String)

/-- The largest request or reply, in bytes. -/
def maxMapPayloadBytes : Nat := 32 * 1024 * 1024

/-- The largest number of rows in a reply. -/
def maxProjectionRows : Nat := 1000000

/-! ## Queries -/

def aggCodec : Codec Agg :=
  .enumeration
    (fun
      | .count => ("Count", none)
      | .sum f => ("Sum", some (.string f))
      | .min f => ("Min", some (.string f))
      | .max f => ("Max", some (.string f))
      | .avg f => ("Avg", some (.string f)))
    fun
      | "Count", d => Codec.bare .count d
      | "Sum", some d => (Codec.string.decode d).map .sum
      | "Min", some d => (Codec.string.decode d).map .min
      | "Max", some d => (Codec.string.decode d).map .max
      | "Avg", some d => (Codec.string.decode d).map .avg
      | _, _ => none

def cmpOpCodec : Codec CmpOp :=
  .enumeration
    (fun
      | .eq => ("Eq", none)
      | .ne => ("Ne", none)
      | .lt => ("Lt", none)
      | .le => ("Le", none)
      | .gt => ("Gt", none)
      | .ge => ("Ge", none))
    fun
      | "Eq", d => Codec.bare .eq d
      | "Ne", d => Codec.bare .ne d
      | "Lt", d => Codec.bare .lt d
      | "Le", d => Codec.bare .le d
      | "Gt", d => Codec.bare .gt d
      | "Ge", d => Codec.bare .ge d
      | _, _ => none

/-- A comparison, as the contents of its variant. -/
def comparisonCodec : Codec (String × CmpOp × Value) :=
  .record (.cons "field" none .string <| .cons "op" none cmpOpCodec <|
      .cons "value" none valueCodec .nil)
    (fun c => (c.1, c.2.1, c.2.2, ⟨⟩)) fun f => (f.1, f.2.1, f.2.2.1)

namespace Predicate

def toDocument : Predicate → Document
  | .true => .string "True"
  | .cmp field op value => .object [("Cmp", comparisonCodec.encode (field, op, value))]
  | .and a b => .object [("And", .array [toDocument a, toDocument b])]
  | .or a b => .object [("Or", .array [toDocument a, toDocument b])]
  | .not a => .object [("Not", toDocument a)]

def ofDocument : Document → Option Predicate
  | .string tag => if tag = "True" then some .true else none
  | .object [(tag, .array [d, d'])] =>
      (ofDocument d).bind fun a => (ofDocument d').bind fun b =>
        if tag = "And" then some (.and a b) else if tag = "Or" then some (.or a b) else none
  | .object [(tag, d)] =>
      if tag = "Not" then (ofDocument d).map .not
      else if tag = "Cmp" then (comparisonCodec.decode d).map fun c => .cmp c.1 c.2.1 c.2.2
      else if tag = "True" then Codec.bare .true (some d)
      else none
  | _ => none
termination_by structural d => d

end Predicate

def predicateCodec : Codec Predicate where
  encode := Predicate.toDocument
  decode := Predicate.ofDocument

def orderDirCodec : Codec OrderDir :=
  .enumeration
    (fun
      | .asc => ("Asc", none)
      | .desc => ("Desc", none))
    fun
      | "Asc", d => Codec.bare .asc d
      | "Desc", d => Codec.bare .desc d
      | _, _ => none

def orderKeyCodec : Codec OrderKey :=
  .record (.cons "column" none .string <| .cons "dir" none orderDirCodec .nil)
    (fun k => (k.column, k.dir, ⟨⟩)) fun f => { column := f.1, dir := f.2.1 }

def queryCodec : Codec Query :=
  .record
    (.cons "dataset" none .string <| .cons "aggregates" none aggCodec.list <|
      .cons "predicate" (some .true) predicateCodec <|
      .cons "group_by" (some []) Codec.string.list <|
      .cons "order_by" (some []) orderKeyCodec.list <|
      .cons "limit" (some none) (Codec.boundedInt ..).option <|
      .cons "projection" (some none) Codec.string.list.option .nil)
    (fun q => (q.dataset, q.aggregates, q.predicate, q.groupBy, q.orderBy, q.limit, q.projection,
      ⟨⟩))
    fun f =>
      { dataset := f.1
        aggregates := f.2.1
        predicate := f.2.2.1
        groupBy := f.2.2.2.1
        orderBy := f.2.2.2.2.1
        limit := f.2.2.2.2.2.1
        projection := f.2.2.2.2.2.2.1 }

def requestCodec : Codec MapRequest :=
  .record
    (.cons "query" none queryCodec <| .cons "shard" none shardCodec <|
      .cons "grant" (some none) Codec.string.option .nil)
    (fun r => (r.query, r.shard, r.grant, ⟨⟩))
    fun f => { query := f.1, shard := f.2.1, grant := f.2.2.1 }

/-! ## Partials -/

def kahanSumCodec : Codec KahanSum :=
  .record (.cons "sum" none .float <| .cons "comp" none .float .nil)
    (fun k => (k.sum, k.comp, ⟨⟩)) fun f => { sum := f.1, comp := f.2.1 }

/-- A mean, as the contents of its variant. -/
def meanCodec : Codec (KahanSum × U64) :=
  .record (.cons "sum" none kahanSumCodec <| .cons "count" none (.boundedInt ..) .nil)
    (fun m => (m.1, m.2, ⟨⟩)) fun f => (f.1, f.2.1)

def accumCodec : Codec Accum :=
  .enumeration
    (fun
      | .count n => ("Count", some ((Codec.boundedInt ..).encode n))
      | .intSum n => ("IntSum", some ((Codec.boundedInt ..).encode n))
      | .sum k => ("Sum", some (kahanSumCodec.encode k))
      | .min m => ("Min", some (Codec.float.option.encode m))
      | .max m => ("Max", some (Codec.float.option.encode m))
      | .avg k n => ("Avg", some (meanCodec.encode (k, n))))
    fun
      | "Count", some d => ((Codec.boundedInt ..).decode d).map .count
      | "IntSum", some d => ((Codec.boundedInt ..).decode d).map .intSum
      | "Sum", some d => (kahanSumCodec.decode d).map .sum
      | "Min", some d => (Codec.float.option.decode d).map .min
      | "Max", some d => (Codec.float.option.decode d).map .max
      | "Avg", some d => (meanCodec.decode d).map fun m => .avg m.1 m.2
      | _, _ => none

def groupsCodec : Codec Groups :=
  .entries Codec.string.list accumCodec.list

def partialCodec : Codec Partial :=
  .record (.cons "aggregates" none aggCodec.list <| .cons "groups" none groupsCodec .nil)
    (fun p => (p.aggregates, p.groups, ⟨⟩)) fun f => { aggregates := f.1, groups := f.2.1 }

def replyCodec : Codec MapReply :=
  .enumeration
    (fun
      | .ok p => ("Ok", some (partialCodec.encode p))
      | .rows rows => ("Rows", some (rowCodec.list.encode rows))
      | .err reason => ("Err", some (.string reason)))
    fun
      | "Ok", some d => (partialCodec.decode d).map .ok
      | "Rows", some d => (rowCodec.list.decode d).map .rows
      | "Err", some d => (Codec.string.decode d).map .err
      | _, _ => none

end CeQuery
