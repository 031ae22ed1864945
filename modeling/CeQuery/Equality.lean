import CeQuery.Combine.MapReduce
import CeQuery.Join

/-!
# Three notions of equality

`WHERE` compares two cells by type and by value, with numbers compared as
binary64. `GROUP BY` and `JOIN` compare the texts of the cells: a string is its
own text, another scalar has its JSON rendering, and an absent column has the
empty text in a group key and no text in a join.

`Clash` lists the pairs on which the two disagree. A string meets another scalar
of that text, two different numbers are equal as binary64, an absent cell meets
a null. On all other pairs of scalars the three notions are one
(`groupKey_agrees_iff`, `keyStr_agrees_iff`), and then the count of a group is
the count of the rows that `WHERE` selects by its value.
-/

namespace CeQuery

/-- The characters of a JSON number. -/
def numeralChars : List Char :=
  "0123456789+-.eE".toList

/-- What is used of the rendering of scalars: fixed words, and for each number a
text of its own. -/
structure SerdeJson.RendersScalars (json : SerdeJson) : Prop where
  null : json.toString .null = "null"
  bool : ∀ b, json.toString (.bool b) = if b then "true" else "false"
  numeral : ∀ n, ∀ c ∈ (json.toString (.number n)).toList, c ∈ numeralChars
  number_ne_empty : ∀ n, json.toString (.number n) ≠ ""
  number_injective : ∀ m n, json.toString (.number m) = json.toString (.number n) → m = n

/-- The cell of a column, null when it is absent. -/
def Row.cell (row : Row) (column : String) : Value :=
  row[column]?.getD .null

/-- The text of a cell in a group key. -/
def cellText (json : SerdeJson) : Option Value → String
  | some (.string s) => s
  | some v => json.toString v
  | none => ""

/-- A cell that is a scalar other than a string, or absent. -/
inductive Bare : Option Value → Prop
  | absent : Bare none
  | null : Bare (some .null)
  | bool (b : Bool) : Bare (some (.bool b))
  | number (n : Number) : Bare (some (.number n))

/-- The pairs of cells on which texts and comparisons disagree. -/
def Clash (json : SerdeJson) : Option Value → Option Value → Prop
  | some (.string _), some (.string _) => False
  | some (.string s), b => s = cellText json b
  | a, some (.string s) => cellText json a = s
  | some (.number m), some (.number n) =>
      m ≠ n ∧ CmpOp.eq.eval (.number m) (.number n) = true
  | none, some .null => True
  | some .null, none => True
  | _, _ => False

theorem bare_or_string {a : Option Value} (ha : (a.getD .null).IsScalar) :
    Bare a ∨ ∃ s, a = some (.string s) := by
  cases a with
  | none => exact .inl .absent
  | some v =>
      cases v with
      | null => exact .inl .null
      | bool b => exact .inl (.bool b)
      | number n => exact .inl (.number n)
      | string s => exact .inr ⟨s, rfl⟩
      | array _ => exact absurd ha id
      | object _ => exact absurd ha id

theorem eq_eval_iff {a b : Value} : CmpOp.eq.eval a b = true ↔ jsonCmp a b = some .eq := by
  cases h : jsonCmp a b with
  | none => simp [CmpOp.eval, h]
  | some o => cases o <;> simp [CmpOp.eval, h]

theorem number_eq_eval_self (n : Number) : CmpOp.eq.eval (.number n) (.number n) = true := by
  have hself : ∀ x : F64, x.isNaN = false → F64.partialCmp x x = some .eq :=
    fun x hx => F64.partialCmp_eq_eq_iff.mpr ⟨F64.le_refl hx, F64.le_refl hx⟩
  rw [eq_eval_iff]
  cases n with
  | posInt n => exact hself _ (F64.not_nan_ofInt n.val)
  | negInt n => exact hself _ (F64.not_nan_ofInt n.val)
  | float x => exact hself _ (F64.isFinite_iff.mp x.finite).1

section Agree

variable {json : SerdeJson} {a b : Option Value}

/-- A string is compared with no other scalar. -/
theorem string_agrees_iff (s : String) (hb : Bare b) :
    (s = cellText json b ↔ CmpOp.eq.eval (.string s) (b.getD .null) = true) ↔
      ¬s = cellText json b := by
  have hne : ¬CmpOp.eq.eval (.string s) (b.getD .null) = true := by
    rw [eq_eval_iff]
    cases hb <;> simp [jsonCmp]
  simp [hne]

theorem agrees_string_iff (s : String) (ha : Bare a) :
    (cellText json a = s ↔ CmpOp.eq.eval (a.getD .null) (.string s) = true) ↔
      ¬cellText json a = s := by
  have hne : ¬CmpOp.eq.eval (a.getD .null) (.string s) = true := by
    rw [eq_eval_iff]
    cases ha <;> simp [jsonCmp]
  simp [hne]

theorem bare_eq_agrees_iff (ha : Bare a) (hb : Bare b) :
    (a = b ↔ CmpOp.eq.eval (a.getD .null) (b.getD .null) = true) ↔ ¬Clash json a b := by
  cases ha <;> cases hb
  case number.number m n =>
    by_cases hmn : m = n
    · subst hmn
      simp [Clash, number_eq_eval_self]
    · simp [Clash, hmn]
  case bool.bool x y => cases x <;> cases y <;> simp [Clash, eq_eval_iff, jsonCmp]
  all_goals simp [Clash, eq_eval_iff, jsonCmp]

variable (hjson : json.RendersScalars)
include hjson

/-- Only a number has the text of a number. -/
theorem cellText_eq_number_iff (ha : Bare a) (n : Number) :
    cellText json a = cellText json (some (.number n)) ↔ a = some (.number n) := by
  have hword : ∀ {w : String}, (∃ c ∈ w.toList, c ∉ numeralChars) →
      w ≠ json.toString (.number n) := by
    rintro _ ⟨c, hc, hletter⟩ rfl
    exact hletter (hjson.numeral n c hc)
  cases ha with
  | absent => simpa [cellText] using (hjson.number_ne_empty n).symm
  | null => simpa [cellText, hjson.null] using hword (w := "null") ⟨'n', by decide, by decide⟩
  | bool x =>
      cases x with
      | false =>
          simpa [cellText, hjson.bool] using hword (w := "false") ⟨'l', by decide, by decide⟩
      | true => simpa [cellText, hjson.bool] using hword (w := "true") ⟨'t', by decide, by decide⟩
  | number m =>
      refine ⟨fun h => ?_, congrArg (cellText json)⟩
      rw [hjson.number_injective m n h]

/-- The texts of cells that are not strings differ. -/
theorem cellText_eq_iff (ha : Bare a) (hb : Bare b) :
    cellText json a = cellText json b ↔ a = b := by
  cases ha with
  | number m => rw [eq_comm, cellText_eq_number_iff hjson hb m, eq_comm]
  | absent =>
      cases hb with
      | number n => exact cellText_eq_number_iff hjson .absent n
      | bool y => cases y <;> simp [cellText, hjson.bool]
      | _ => simp [cellText, hjson.null]
  | null =>
      cases hb with
      | number n => exact cellText_eq_number_iff hjson .null n
      | bool y => cases y <;> simp [cellText, hjson.null, hjson.bool]
      | _ => simp [cellText, hjson.null]
  | bool x =>
      cases hb with
      | number n => exact cellText_eq_number_iff hjson (.bool x) n
      | bool y => cases x <;> cases y <;> simp [cellText, hjson.bool]
      | _ => cases x <;> simp [cellText, hjson.null, hjson.bool]

/-- Two cells have one text and compare as equal, or neither, unless they clash. -/
theorem cellText_agrees_iff (ha : (a.getD .null).IsScalar) (hb : (b.getD .null).IsScalar) :
    (cellText json a = cellText json b ↔ CmpOp.eq.eval (a.getD .null) (b.getD .null) = true) ↔
      ¬Clash json a b := by
  obtain ha | ⟨s, rfl⟩ := bare_or_string ha <;> obtain hb | ⟨t, rfl⟩ := bare_or_string hb
  · rw [cellText_eq_iff hjson ha hb]
    exact bare_eq_agrees_iff ha hb
  · have hclash : Clash json a (some (.string t)) ↔ cellText json a = t := by
      cases ha <;> rfl
    rw [hclash]
    exact agrees_string_iff t ha
  · have hclash : Clash json (some (.string s)) b ↔ s = cellText json b := by
      cases hb <;> rfl
    rw [hclash]
    exact string_agrees_iff s hb
  · simp [Clash, cellText, eq_eval_iff, jsonCmp]

end Agree

section Rows

variable {json : SerdeJson}

/-- A cell that is not null joins on its text. -/
theorem keyStr_eq_cellText {row : Row} {c : String} (h : row.cell c ≠ .null) :
    keyStr json row c = some (cellText json row[c]?) := by
  rw [Row.cell] at h
  rw [keyStr]
  cases hcell : row[c]? with
  | none => exact absurd (by rw [hcell]; rfl) h
  | some v =>
      rw [hcell] at h
      cases v with
      | null => exact absurd rfl h
      | _ => rfl

/-- The group key of a single column is the text of its cell. -/
theorem groupKey_single (q : Query) (c : String) (row : Row) :
    { q with groupBy := [c] }.groupKey json row = [cellText json row[c]?] :=
  rfl

/-- The number of rows of each value of a column. -/
def Query.countBy (q : Query) (c : String) : Query :=
  { q with groupBy := [c], aggregates := [.count] }

/-- The partial of some rows counts the members of each group. -/
theorem count_of_reference {q : Query} {c : String} {rows : List Row} {p : Partial}
    {key : List String} (href : (q.countBy c).Reference json rows p)
    (hmembers : (q.countBy c).members json key rows ≠ []) :
    p.groups[key]? =
      some [.count (U64.saturated ((q.countBy c).members json key rows).length)] := by
  have hgroup := href.groups key
  cases hget : p.groups[key]? with
  | none =>
      rw [hget] at hgroup
      exact absurd hgroup hmembers
  | some accs =>
      rw [hget] at hgroup
      obtain ⟨_, hdescribed⟩ := hgroup
      cases hdescribed with
      | @cons _ acc _ _ hacc hrest =>
          cases hrest
          cases acc <;> simp only [Agg.Describes] at hacc
          rw [hacc]

/-- The group of a row has as many members as the filter on the cell of that row
selects, if no cell of the column clashes with it. -/
theorem members_eq_where {q : Query} {c : String} {rows : List Row} {row₀ : Row}
    (hjson : json.RendersScalars) (hscalar : (row₀.cell c).IsScalar)
    (hclash : ∀ row ∈ rows, q.predicate.eval row = true →
      (row.cell c).IsScalar ∧ ¬Clash json row[c]? row₀[c]?) :
    (q.countBy c).members json [cellText json row₀[c]?] rows =
      rows.filter fun row => (q.predicate.and (.cmp c .eq (row₀.cell c))).eval row := by
  apply List.filter_congr
  intro row hrow
  have hkey : (q.countBy c).groupKey json row = [cellText json row[c]?] := rfl
  have hfilter : (q.predicate.and (.cmp c .eq (row₀.cell c))).eval row =
      (q.predicate.eval row && CmpOp.eq.eval (row.cell c) (row₀.cell c)) := rfl
  rw [hkey, hfilter]
  change (q.predicate.eval row && _) = _
  cases hp : q.predicate.eval row with
  | false => rfl
  | true =>
      obtain ⟨hrowScalar, hnot⟩ := hclash row hrow hp
      have hagrees := (cellText_agrees_iff hjson hrowScalar hscalar).mpr hnot
      rw [Bool.true_and, Bool.true_and, Bool.eq_iff_iff, decide_eq_true_iff, List.singleton_inj]
      exact hagrees

/-- Texts and comparisons agree exactly on the pairs of cells that do not clash,
in group keys and in joins, and then a group is counted as the filter on its
value counts. -/
theorem equality_agrees_iff (hjson : json.RendersScalars) :
    (∀ (q : Query) (c : String) (row₁ row₂ : Row),
      (row₁.cell c).IsScalar → (row₂.cell c).IsScalar →
        (({ q with groupBy := [c] }.groupKey json row₁ =
            { q with groupBy := [c] }.groupKey json row₂ ↔
          CmpOp.eq.eval (row₁.cell c) (row₂.cell c) = true) ↔
        ¬Clash json row₁[c]? row₂[c]?)) ∧
    (∀ (keys : JoinKeys) (l r : Row), (l.cell keys.left).IsScalar →
      (r.cell keys.right).IsScalar → l.cell keys.left ≠ .null → r.cell keys.right ≠ .null →
        ((keyStr json l keys.left = keyStr json r keys.right ↔
          CmpOp.eq.eval (l.cell keys.left) (r.cell keys.right) = true) ↔
        ¬Clash json l[keys.left]? r[keys.right]?) ∧
        (hashJoin json [l] [r] keys = [mergeRows l r] ↔
          keyStr json l keys.left = keyStr json r keys.right)) ∧
    (∀ (q : Query) (c : String) (rows : List Row) (row₀ : Row), row₀ ∈ rows →
      q.predicate.eval row₀ = true →
      (∀ row ∈ rows, q.predicate.eval row = true →
        (row.cell c).IsScalar ∧ ¬Clash json row[c]? row₀[c]?) →
      ∀ tree : MergeTree (List Row), tree.parts.flatten.Perm rows →
        (tree.eval (.empty [.count]) Partial.merge
            ((q.countBy c).mapShard json)).groups[[cellText json row₀[c]?]]? =
          some [.count (U64.saturated (rows.filter fun row =>
            (q.predicate.and (.cmp c .eq (row₀.cell c))).eval row).length)]) := by
  refine ⟨?_, ?_, ?_⟩
  · intro q c row₁ row₂ h₁ h₂
    rw [groupKey_single, groupKey_single, List.singleton_inj]
    exact cellText_agrees_iff hjson h₁ h₂
  · intro keys l r hl hr hlnull hrnull
    have hl' : keyStr json l keys.left = some (cellText json l[keys.left]?) :=
      keyStr_eq_cellText hlnull
    have hr' : keyStr json r keys.right = some (cellText json r[keys.right]?) :=
      keyStr_eq_cellText hrnull
    refine ⟨?_, ?_⟩
    · rw [hl', hr', Option.some_inj]
      exact cellText_agrees_iff hjson hl hr
    · rw [hashJoin_eq_loopJoin, loopJoin, nestedJoin, List.flatMap_singleton, matchesOf, hl']
      by_cases hkey : keyStr json r keys.right = some (cellText json l[keys.left]?)
      · simp [hkey]
      · simp [hkey, Ne.symm hkey]
  · intro q c rows row₀ hmem hpass hclash tree hdist
    rw [← members_eq_where hjson (hclash row₀ hmem hpass).1 hclash]
    refine count_of_reference (Query.reference_eval ?_ tree hdist) ?_
    · simp [Query.ExactSums, Query.countBy]
    · rw [Query.members_ne_nil]
      exact ⟨row₀, hmem, hpass, rfl⟩

end Rows

/-- The sample instance with a text for every number: the digits of an integer,
and for a binary64 number those of its bit pattern, with a point. -/
def SerdeJson.numerals : SerdeJson :=
  { SerdeJson.sample with
    toString := fun
      | .number (.float x) => x.val.toModel.toBits.toNat.repr ++ ".0"
      | v => SerdeJson.sample.toString v }

private theorem mem_numeralChars_of_isDigit {c : Char} (h : Text.isDigit c = true) :
    c ∈ numeralChars := by
  have hall : ∀ c ∈ "0123456789".toList, c ∈ numeralChars := by decide
  exact hall c (Decimal.isDigit_cases h)

private theorem mem_numeralChars_int {n : Int} {c : Char} (hc : c ∈ (toString n).toList) :
    c ∈ numeralChars ∧ c ≠ '.' := by
  obtain hdigit | rfl | rfl := Text.mem_of_signed (Text.signed_toString n) c hc
  · refine ⟨mem_numeralChars_of_isDigit hdigit, ?_⟩
    rintro rfl
    cases hdigit
  · decide
  · decide

private theorem int_toString_inj {m n : Int} (h : toString m = toString n) : m = n := by
  have hread := Text.signed_toString m
  rw [h, Text.signed_toString n] at hread
  exact (Option.some_inj.mp hread).symm

private theorem int_ne_empty (n : Int) : toString n ≠ "" := by
  intro h
  have hread := Text.signed_toString n
  rw [h] at hread
  cases hread

/-- The text of an integer has no point. -/
private theorem int_ne_float (n : Int) (s : String) : toString n ≠ s ++ ".0" := by
  intro h
  have hpoint : '.' ∈ (toString n).toList := by
    rw [h, String.toList_append]
    exact List.mem_append_right _ (by decide)
  exact (mem_numeralChars_int hpoint).2 rfl

private theorem float_text_inj {x y : FiniteF64}
    (h : x.val.toModel.toBits.toNat.repr ++ ".0" = y.val.toModel.toBits.toNat.repr ++ ".0") :
    x = y := by
  have hbits : x.val.toModel.toBits.toNat.repr = y.val.toModel.toBits.toNat.repr := by
    have hlists := congrArg String.toList h
    rw [String.toList_append, String.toList_append, List.append_left_inj] at hlists
    exact String.toList_inj.mp hlists
  obtain ⟨⟨⟨xbits, _⟩⟩, _⟩ := x
  obtain ⟨⟨⟨ybits, _⟩⟩, _⟩ := y
  have hsame : xbits = ybits := UInt64.toNat_inj.mp (Text.toString_inj hbits)
  cases hsame
  rfl

theorem SerdeJson.numerals_rendersScalars : numerals.RendersScalars where
  null := rfl
  bool _ := rfl
  numeral n c hc := by
    cases n with
    | posInt n => exact (mem_numeralChars_int (n := n.val) hc).1
    | negInt n => exact (mem_numeralChars_int (n := n.val) hc).1
    | float x =>
        rw [numerals, String.toList_append, List.mem_append] at hc
        obtain hc | hc := hc
        · exact (mem_numeralChars_int (n := x.val.toModel.toBits.toNat) hc).1
        · have hall : ∀ c ∈ ".0".toList, c ∈ numeralChars := by decide
          exact hall c hc
  number_ne_empty n h := by
    cases n with
    | posInt n => exact int_ne_empty n.val h
    | negInt n => exact int_ne_empty n.val h
    | float x =>
        have hlength := congrArg String.length h
        simp [numerals, String.length_append] at hlength
  number_injective m n h := by
    cases m with
    | posInt m =>
        cases n with
        | posInt n => exact congrArg Number.posInt (BoundedInt.ext (int_toString_inj h))
        | negInt n =>
            have hval : m.val = n.val := int_toString_inj h
            have hpos := m.lo_le
            have hneg := n.le_hi
            omega
        | float y => exact absurd h (int_ne_float m.val _)
    | negInt m =>
        cases n with
        | posInt n =>
            have hval : m.val = n.val := int_toString_inj h
            have hpos := n.lo_le
            have hneg := m.le_hi
            omega
        | negInt n => exact congrArg Number.negInt (BoundedInt.ext (int_toString_inj h))
        | float y => exact absurd h (int_ne_float m.val _)
    | float x =>
        cases n with
        | posInt n => exact absurd h.symm (int_ne_float n.val _)
        | negInt n => exact absurd h.symm (int_ne_float n.val _)
        | float y => rw [float_text_inj h]

private def single (v : Value) : Row :=
  .ofList [("a", v)]

private def countAll : Query where
  dataset := "t"
  aggregates := [.count]
  predicate := .true
  groupBy := ["a"]
  orderBy := []
  limit := none
  projection := none

private def u64 (n : Nat) (h : n < 2 ^ 64) : Value :=
  .ofU64 ⟨n, by omega, by omega⟩

private def one : Row := single (u64 1 (by decide))
private def two : Row := single (u64 2 (by decide))
private def text : Row := single (.string "1")
private def oneFloat : Row := single (.number (.float .one))

/-- Two ones and a two, in two shards that are merged in the other order. -/
theorem equality_agrees_iff_three_rows :
    ((countAll.groupKey .numerals one = countAll.groupKey .numerals two ↔
        CmpOp.eq.eval (one.cell "a") (two.cell "a") = true) ∧
      (keyStr .numerals one "a" = keyStr .numerals two "a" ↔
        CmpOp.eq.eval (one.cell "a") (two.cell "a") = true)) ∧
    ((MergeTree.merge (.part [two, one]) (.part [one])).eval (.empty [.count]) Partial.merge
        ((countAll.countBy "a").mapShard .numerals)).groups[["1"]]? =
      some [.count (U64.saturated ([one, two, one].filter fun row =>
        (countAll.predicate.and (.cmp "a" .eq (one.cell "a"))).eval row).length)] := by
  have hclash : ¬Clash .numerals one["a"]? two["a"]? := by
    rintro ⟨_, heq⟩
    exact absurd heq (by decide)
  obtain ⟨hgroup, hjoin, hcount⟩ := equality_agrees_iff SerdeJson.numerals_rendersScalars
  refine ⟨⟨?_, ?_⟩, ?_⟩
  · exact (hgroup countAll "a" one two trivial trivial).mpr hclash
  · exact (hjoin ⟨"a", "a"⟩ one two trivial trivial nofun nofun).1.mpr hclash
  · refine hcount countAll "a" [one, two, one] one (by simp) rfl ?_ _ ?_
    · intro row hrow _
      have hrows : row = one ∨ row = two := by simpa [or_comm] using hrow
      obtain rfl | rfl := hrows
      · refine ⟨trivial, ?_⟩
        rintro ⟨hne, _⟩
        exact hne rfl
      · refine ⟨trivial, ?_⟩
        rintro ⟨_, heq⟩
        exact absurd heq (by decide)
    · exact List.Perm.swap one two [one] |>.trans (.refl _)

/-- The sample instance with the text of the number 1.0. -/
private def pointed : SerdeJson :=
  { SerdeJson.sample with
    toString := fun
      | .number (.float x) => if x = .one then "1.0" else ""
      | v => SerdeJson.sample.toString v }

/-- A number and its digits as a string are one group and one join key, but not
equal; the numbers 1 and 1.0 are equal, but have two groups and do not join. -/
theorem equality_disagrees :
    (countAll.groupKey pointed one = countAll.groupKey pointed text ∧
      keyStr pointed one "a" = keyStr pointed text "a" ∧
      CmpOp.eq.eval (one.cell "a") (text.cell "a") = false) ∧
    (countAll.groupKey pointed one ≠ countAll.groupKey pointed oneFloat ∧
      keyStr pointed one "a" ≠ keyStr pointed oneFloat "a" ∧
      CmpOp.eq.eval (one.cell "a") (oneFloat.cell "a") = true) ∧
    (countAll.mapShard pointed [one, text]).groups[["1"]]? = some [.count (U64.saturated 2)] ∧
    ([one, text].filter fun row =>
      (countAll.predicate.and (.cmp "a" .eq (one.cell "a"))).eval row).length = 1 := by
  refine ⟨⟨by decide, by decide, by decide⟩, ⟨by decide, by decide, by decide⟩, rfl, by decide⟩

end CeQuery
