import CeQuery.Foundation.NestedLoop
import CeQuery.Value
import Mathlib.Data.List.Dedup
import Mathlib.Data.List.FinRange

/-!
# Equi-joins across two datasets

`hashJoin` builds an index of the right rows by the text of their key cell and
probes it with the left rows. `distributedJoin` cuts both sides into buckets by
a hash of the same text, joins bucket by bucket and concatenates.

Both are compared with the nested loop over the key texts: the first computes
it, the second computes it up to the order of the rows.
-/

namespace CeQuery

/-- The two key columns of an equi-join. -/
structure JoinKeys where
  left : String
  right : String

variable (json : SerdeJson)

/-- The text of a join-key cell. A missing key and a null key have none. -/
def keyStr (row : Row) (column : String) : Option String :=
  match (row[column]? : Option Value) with
  | none => none
  | some .null => none
  | some (.string s) => some s
  | some v => some (json.toString v)

/-- One output row: the left columns, and every right column under its own name,
or under a name with the prefix `right.` when that name is taken. -/
def mergeRows (left right : Row) : Row :=
  right.foldl (fun out k v =>
    if k ∈ out then out.insert ("right." ++ k) v else out.insert k v) left

/-- The positions of the right rows under each key. -/
def joinIndex (right : List Row) (column : String) : BTreeMap String (List (Fin right.length)) :=
  (List.finRange right.length).foldl (fun index i =>
    match keyStr json right[i] column with
    | some k => index.upsert k [] fun positions => positions ++ [i]
    | none => index) ∅

/-- Inner equi-join: left rows in input order, and for each left row its matches
in right input order. -/
def hashJoin (left right : List Row) (keys : JoinKeys) : List Row :=
  let index := joinIndex json right keys.right
  left.flatMap fun l =>
    match keyStr json l keys.left with
    | none => []
    | some k =>
        match index[k]? with
        | some positions => positions.map fun ri => mergeRows l right[ri]
        | none => []

/-- The nested loop that joins rows on the text of their key cells. -/
def loopJoin (left right : List Row) (keys : JoinKeys) : List Row :=
  nestedJoin (fun l => keyStr json l keys.left) (fun r => keyStr json r keys.right) mergeRows
    left right

/-- The index holds, under each key, the positions of the rows with that key. -/
theorem getElem?_joinIndex (right : List Row) (column k : String) :
    (joinIndex json right column)[k]?.getD [] =
      (List.finRange right.length).filter fun i => keyStr json right[i] column = some k := by
  have hread := BTreeMap.getElem?_foldl_push
    (fun i : Fin right.length => keyStr json right[i] column) k (List.finRange right.length) ∅
  rw [Std.ExtTreeMap.getElem?_empty, Option.getD_none, List.nil_append] at hread
  rw [joinIndex, ← hread]
  congr 3
  funext index i
  cases keyStr json right[i] column <;> rfl

/-- The hash join is the nested loop. -/
theorem hashJoin_eq_loopJoin (left right : List Row) (keys : JoinKeys) :
    hashJoin json left right keys = loopJoin json left right keys := by
  rw [hashJoin, loopJoin, nestedJoin]
  congr 1
  funext l
  rw [matchesOf]
  cases keyStr json l keys.left with
  | none => rfl
  | some k =>
      have hindex := getElem?_joinIndex json right keys.right k
      have hrows : (right.filter fun r => keyStr json r keys.right = some k).map (mergeRows l) =
          ((List.finRange right.length).filter fun i =>
            keyStr json right[i] keys.right = some k).map fun i => mergeRows l right[i] := by
        conv_lhs => rw [← List.map_getElem_finRange right, List.filter_map, List.map_map]
        rfl
      change _ = (right.filter fun r => keyStr json r keys.right = some k).map (mergeRows l)
      rw [hrows, ← hindex]
      cases hprobe : (joinIndex json right keys.right)[k]? with
      | none => simp [hprobe]
      | some positions => simp [hprobe]

/-- The two rows have keys with one text. -/
def SameKey (keys : JoinKeys) (l r : Row) : Prop :=
  ∃ k, keyStr json l keys.left = some k ∧ keyStr json r keys.right = some k

instance (keys : JoinKeys) (l r : Row) : Decidable (SameKey json keys l r) :=
  decidable_of_iff (keyStr json l keys.left ≠ none ∧
      keyStr json l keys.left = keyStr json r keys.right) <| by
    rw [SameKey]
    cases keyStr json l keys.left with
    | none => simp
    | some k => simp [eq_comm]

/-- The key of the row is missing or null. -/
def Keyless (row : Row) (column : String) : Prop :=
  (row[column]? : Option Value) = none ∨ (row[column]? : Option Value) = some .null

theorem keyStr_eq_none_iff (row : Row) (column : String) :
    keyStr json row column = none ↔ Keyless row column := by
  rw [keyStr, Keyless]
  cases (row[column]? : Option Value) with
  | none => simp
  | some v => cases v <;> simp

instance (row : Row) (column : String) : Decidable (Keyless row column) :=
  decidable_of_iff ((match (row[column]? : Option Value) with
      | none | some .null => true
      | some _ => false) = true) <| by
    rw [Keyless]
    cases (row[column]? : Option Value) with
    | none => simp
    | some v => cases v <;> simp

/-- The keys of both sides, each of them once. -/
def joinKeyTexts (left right : List Row) (keys : JoinKeys) : List String :=
  (left.filterMap (fun l => keyStr json l keys.left) ++
    right.filterMap fun r => keyStr json r keys.right).dedup

/-- The hash join merges every left row, in their order, with every right row of
its key, in theirs. Each key adds as many rows as it has left rows times right
rows, and rows with a missing or null key add none. -/
theorem hashJoin_rows (left right : List Row) (keys : JoinKeys) :
    hashJoin json left right keys = left.flatMap (fun l =>
        (right.filter fun r => SameKey json keys l r).map (mergeRows l)) ∧
      (hashJoin json left right keys).length =
        ((joinKeyTexts json left right keys).map fun k =>
          (left.countP fun l => keyStr json l keys.left = some k) *
            right.countP fun r => keyStr json r keys.right = some k).sum ∧
      hashJoin json (left.filter fun l => ¬Keyless l keys.left)
          (right.filter fun r => ¬Keyless r keys.right) keys =
        hashJoin json left right keys := by
  simp only [hashJoin_eq_loopJoin, loopJoin]
  refine ⟨?_, ?_, ?_⟩
  · rw [nestedJoin]
    congr 1
    funext l
    rw [matchesOf]
    cases hl : keyStr json l keys.left with
    | none => simp [SameKey, hl]
    | some k => simp [SameKey, hl]
  · apply length_nestedJoin
    · exact List.nodup_dedup _
    · intro l hl k hk
      rw [joinKeyTexts, List.mem_dedup, List.mem_append]
      exact .inl (List.mem_filterMap.mpr ⟨l, hl, hk⟩)
  · have hkeyed : ∀ column : String, (fun row => decide ¬Keyless row column) =
        fun row => (keyStr json row column).isSome := by
      intro column
      funext row
      simp only [← keyStr_eq_none_iff json]
      cases keyStr json row column <;> rfl
    rw [hkeyed, hkeyed]
    exact nestedJoin_filter_isSome _ _ _ left right

variable (bucketHash : String → U64)

/-- The bucket of a key among `n`. -/
def bucketOf (n : Nat) (k : String) : Nat :=
  (bucketHash k).val.toNat % n

theorem bucketOf_lt (n : Nat) (k : String) : bucketOf bucketHash (max n 1) k < max n 1 :=
  Nat.mod_lt _ (by omega)

/-- Cut rows into `n` buckets, at least one, by the hash of their key. Rows
without a key are dropped. -/
def partitionByKey (rows : List Row) (column : String) (n : Nat) :
    Vector (List Row) (max n 1) :=
  rows.foldl (fun buckets row =>
    match keyStr json row column with
    | some k =>
        have := bucketOf_lt bucketHash n k
        let b := bucketOf bucketHash (max n 1) k
        buckets.set b (buckets[b] ++ [row])
    | none => buckets) (Vector.replicate (max n 1) [])

/-- Join bucket by bucket, in bucket order. -/
def distributedJoin (left right : List Row) (keys : JoinKeys) (partitions : Nat) : List Row :=
  let n := max partitions 1
  let lb := partitionByKey json bucketHash left keys.left n
  let rb := partitionByKey json bucketHash right keys.right n
  (List.finRange n).flatMap fun (i : Fin n) => hashJoin json lb[i.val] rb[i.val] keys

/-- Each bucket holds the rows whose key is sent to it, in their order. -/
theorem getElem_partitionByKey (rows : List Row) (column : String) (n i : Nat)
    (hi : i < max n 1) :
    (partitionByKey json bucketHash rows column n)[i] =
      bucket (fun row => keyStr json row column) (bucketOf bucketHash (max n 1)) i rows := by
  suffices hloop : ∀ buckets : Vector (List Row) (max n 1),
      (rows.foldl (fun buckets row =>
        match keyStr json row column with
        | some k =>
            have := bucketOf_lt bucketHash n k
            let b := bucketOf bucketHash (max n 1) k
            buckets.set b (buckets[b] ++ [row])
        | none => buckets) buckets)[i] =
          buckets[i] ++ bucket (fun row => keyStr json row column)
            (bucketOf bucketHash (max n 1)) i rows from
    (hloop _).trans (by simp)
  induction rows with
  | nil => simp [bucket]
  | cons row rows ih =>
      intro buckets
      rw [List.foldl_cons, ih]
      cases hkey : keyStr json row column with
      | none => simp [bucket, hkey]
      | some k =>
          by_cases hb : bucketOf bucketHash (max n 1) k = i
          · subst hb
            simp [bucket, hkey]
          · simp [bucket, hkey, hb]

/-- The distributed join runs the nested loop on each pair of buckets. -/
theorem distributedJoin_eq (left right : List Row) (keys : JoinKeys) (partitions : Nat) :
    distributedJoin json bucketHash left right keys partitions =
      (List.range (max partitions 1)).flatMap fun i =>
        loopJoin json
          (bucket (fun l => keyStr json l keys.left)
            (bucketOf bucketHash (max partitions 1)) i left)
          (bucket (fun r => keyStr json r keys.right)
            (bucketOf bucketHash (max partitions 1)) i right) keys := by
  have hn : max (max partitions 1) 1 = max partitions 1 := by omega
  rw [← List.map_coe_finRange_eq_range, List.flatMap_map]
  simp only [distributedJoin, getElem_partitionByKey, hashJoin_eq_loopJoin, hn]

/-- The join of the buckets is the join up to the order of the rows, and the
join itself when there is one bucket. -/
theorem distributedJoin_equiv (left right : List Row) (keys : JoinKeys) (partitions : Nat) :
    (distributedJoin json bucketHash left right keys partitions).Perm
        (hashJoin json left right keys) ∧
      (partitions ≤ 1 → distributedJoin json bucketHash left right keys partitions =
        hashJoin json left right keys) := by
  rw [distributedJoin_eq, hashJoin_eq_loopJoin]
  refine ⟨?_, ?_⟩
  · apply nestedJoin_buckets_perm
    · exact List.nodup_range
    · intro k
      exact List.mem_range.mpr (Nat.mod_lt _ (by omega))
  · intro hone
    have hn : max partitions 1 = 1 := by omega
    rw [hn, List.range_one, List.flatMap_singleton]
    apply nestedJoin_bucket_eq
    intro k
    exact Nat.mod_one _

end CeQuery
