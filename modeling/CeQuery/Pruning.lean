import CeQuery.Plan
import CeQuery.Stats

/-!
# Partition pruning

Whether a shard is skipped is decided on the numbers of its columns, whether a
row is accepted on the JSON types of its cells. `Refuted` restates the planner's
decision without statistics: the numbers of the rows rule the predicate out.
The two readings differ in one place, a string cell compared with a quoted
number, and `Misled` traces an accepted row of a skipped shard to it.
-/

namespace CeQuery

/-- No number of the list satisfies the comparison with `v`; for an equation,
all of them lie on one side of `v`. -/
def CmpOp.Excludes (v : F64) (xs : List F64) : CmpOp → Prop
  | .gt => ∀ x ∈ xs, ¬v < x
  | .ge => ∀ x ∈ xs, ¬v ≤ x
  | .lt => ∀ x ∈ xs, ¬x < v
  | .le => ∀ x ∈ xs, ¬x ≤ v
  | .eq => (∀ x ∈ xs, ¬x ≤ v) ∨ ∀ x ∈ xs, ¬v ≤ x
  | .ne => False

/-- The numbers of the rows rule the predicate out. A comparison can only be
ruled out on a column that is present with numbers only. -/
def Refuted (rows : List Row) : Predicate → Prop
  | .true => False
  | .not _ => False
  | .or a b => Refuted rows a ∧ Refuted rows b
  | .and a b => Refuted rows a ∨ Refuted rows b
  | .cmp field op value =>
      ∃ v, asF64 value = some v ∧ columnCells field rows ≠ [] ∧
        (∀ c ∈ columnCells field rows, (asF64 c).isSome = true) ∧
          op.Excludes v (numericCells field rows)

/-- The row is accepted although the rows as numbers rule the predicate out: it
satisfies a comparison of a string cell with a quoted number as text only. -/
def Misled (rows : List Row) (row : Row) : Predicate → Prop
  | .true => False
  | .not _ => False
  | .or a b => Misled rows row a ∧ Refuted rows b ∨ Refuted rows a ∧ Misled rows row b
  | .and a b =>
      Misled rows row a ∧ b.eval row = true ∨ a.eval row = true ∧ Misled rows row b
  | .cmp field op value =>
      ∃ s t, row[field]? = some (.string s) ∧ value = .string t ∧
        op.eval (.string s) (.string t) = true ∧ Refuted rows (.cmp field op value)

/-! ## Skipping a shard -/

/-- The range test of the planner fails exactly if the numbers exclude the
literal. -/
private theorem excludes_iff {xs : List F64} {min max v : F64}
    (hmin : F64.Extremum .least xs min) (hmax : F64.Extremum .greatest xs max) (op : CmpOp) :
    (match op with
      | .gt => decide (v < max)
      | .ge => decide (v ≤ max)
      | .lt => decide (min < v)
      | .le => decide (min ≤ v)
      | .eq => decide (min ≤ v) && decide (v ≤ max)
      | .ne => true) = false ↔ op.Excludes v xs := by
  have hge : v ≤ max ↔ ∃ x ∈ xs, v ≤ x := by
    constructor
    · intro hle
      exact ⟨max, hmax.mem, hle⟩
    · rintro ⟨x, hx, hle⟩
      exact F64.le_trans hle (hmax.bound x hx (F64.not_nan_of_le hle).2)
  have hle : min ≤ v ↔ ∃ x ∈ xs, x ≤ v := by
    constructor
    · intro hle
      exact ⟨min, hmin.mem, hle⟩
    · rintro ⟨x, hx, hle⟩
      exact F64.le_trans (hmin.bound x hx (F64.not_nan_of_le hle).1) hle
  have hgt : v < max ↔ ∃ x ∈ xs, v < x := by
    constructor
    · intro hlt
      exact ⟨max, hmax.mem, hlt⟩
    · rintro ⟨x, hx, hlt⟩
      have hnan := (F64.not_nan_of_le (F64.lt_iff.mp hlt).1).2
      exact F64.lt_of_lt_of_le hlt (hmax.bound x hx hnan)
  have hlt : min < v ↔ ∃ x ∈ xs, x < v := by
    constructor
    · intro hlt
      exact ⟨min, hmin.mem, hlt⟩
    · rintro ⟨x, hx, hlt⟩
      have hnan := (F64.not_nan_of_le (F64.lt_iff.mp hlt).1).1
      exact F64.lt_of_le_of_lt (hmin.bound x hx hnan) hlt
  cases op with
  | gt => simp [hgt, CmpOp.Excludes]
  | ge => simp [hge, CmpOp.Excludes]
  | lt => simp [hlt, CmpOp.Excludes]
  | le => simp [hle, CmpOp.Excludes]
  | eq => simp [hle, hge, CmpOp.Excludes, or_iff_not_imp_left]
  | ne => simp [CmpOp.Excludes]

/-- The planner skips a shard exactly if the numbers of its rows rule the
predicate out. -/
theorem canMatch_eq_false_iff (rows : List Row) (predicate : Predicate) :
    canMatch (computeStats rows) predicate = false ↔ Refuted rows predicate := by
  induction predicate with
  | true => simp [canMatch, Refuted]
  | not a _ => simp [canMatch, Refuted]
  | or a b iha ihb => simp [canMatch, Refuted, iha, ihb]
  | and a b iha ihb =>
      rw [canMatch, Bool.and_eq_false_iff, iha, ihb]
      rfl
  | cmp field op value =>
      have hbounds := computeStats_bounds field rows
      rw [canMatch]
      cases hentry : (computeStats rows).numeric[field]? with
      | none =>
          rw [hentry] at hbounds
          apply iff_of_false (by simp)
          rintro ⟨v, _, hne, hnumeric, _⟩
          rcases hbounds with hempty | ⟨c, hc, hnone⟩
          · exact hne hempty
          · have hsome := hnumeric c hc
            rw [hnone] at hsome
            cases hsome
      | some entry =>
          rw [hentry] at hbounds
          obtain ⟨hnumeric, hmin, hmax⟩ := hbounds
          have hne : columnCells field rows ≠ [] := by
            intro hempty
            have hmem := hmin.mem
            rw [hempty] at hmem
            cases hmem
          rw [← numericCells_eq] at hmin hmax
          cases hv : asF64 value with
          | none => simp [Refuted, hv]
          | some v =>
              simp only [Refuted, hv, Option.some.injEq, exists_eq_left']
              apply (excludes_iff hmin hmax op).trans
              exact ⟨fun h => ⟨hne, hnumeric, h⟩, fun h => h.2.2⟩

/-! ## The rows of a skipped shard -/

/-- A comparison that holds between numbers is not excluded by them. -/
private theorem not_excludes_of_eval {m n : Number} {x v : F64} {xs : List F64} {op : CmpOp}
    (hx : m.asF64 = some x) (hv : n.asF64 = some v) (hmem : x ∈ xs)
    (heval : op.eval (.number m) (.number n) = true) : ¬op.Excludes v xs := by
  have hcmp : jsonCmp (.number m) (.number n) = F64.partialCmp x v := by
    simp [jsonCmp, hx, hv]
  unfold CmpOp.eval at heval
  rw [hcmp] at heval
  have heq : F64.partialCmp x v = some .eq → x ≤ v ∧ v ≤ x := F64.partialCmp_eq_eq_iff.mp
  have hlt : F64.partialCmp x v = some .lt → x < v ∧ x ≤ v := fun h =>
    have hlt := F64.partialCmp_eq_lt_iff.mp h
    ⟨hlt, (F64.lt_iff.mp hlt).1⟩
  have hgt : F64.partialCmp x v = some .gt → v < x ∧ v ≤ x := fun h =>
    have hgt := F64.partialCmp_eq_gt_iff.mp h
    ⟨hgt, (F64.lt_iff.mp hgt).1⟩
  intro hexcludes
  cases hord : F64.partialCmp x v with
  | none =>
      rw [hord] at heval
      cases op <;> simp [CmpOp.Excludes] at heval hexcludes
  | some ord =>
      rw [hord] at heval heq hlt hgt
      cases op <;> cases ord <;> simp [CmpOp.Excludes] at heval heq hlt hgt hexcludes <;> grind

/-- A number or a string is unordered with every value of another type, so only
`ne` can hold between them. -/
private theorem excludes_ne_of_unordered {left right : Value} {v : F64} {xs : List F64} {op : CmpOp}
    (hcmp : jsonCmp left right = none) (heval : op.eval left right = true) :
    ¬op.Excludes v xs := by
  unfold CmpOp.eval at heval
  rw [hcmp] at heval
  cases op <;> simp [CmpOp.Excludes] at heval ⊢

/-- On a column of numbers, a comparison that is accepted and yet refuted is one
of a string cell with a quoted number. -/
private theorem misled_cmp_iff {rows : List Row} {row : Row} (hrow : row ∈ rows) (field : String)
    (op : CmpOp) (value : Value) : Misled rows row (.cmp field op value) ↔
      (Predicate.cmp field op value).eval row = true ∧ Refuted rows (.cmp field op value) := by
  constructor
  · rintro ⟨s, t, hcell, rfl, heval, hrefuted⟩
    refine ⟨?_, hrefuted⟩
    rw [Predicate.eval, hcell]
    exact heval
  · rintro ⟨heval, hrefuted⟩
    rw [Predicate.eval] at heval
    have hexcluded := hrefuted
    obtain ⟨v, hv, _, hnumeric, hexcludes⟩ := hexcluded
    have hliteral : (∃ n, value = .number n ∧ n.asF64 = some v) ∨ ∃ t, value = .string t := by
      cases value <;> simp_all [asF64]
    cases hcell : (row[field]? : Option Value) with
    | none =>
        rw [hcell] at heval
        refine absurd hexcludes (excludes_ne_of_unordered ?_ heval)
        rcases hliteral with ⟨n, rfl, _⟩ | ⟨t, rfl⟩ <;> rfl
    | some c =>
        rw [hcell] at heval
        have hmem : c ∈ columnCells field rows := List.mem_filterMap.mpr ⟨row, hrow, hcell⟩
        obtain ⟨x, hx⟩ := Option.isSome_iff_exists.mp (hnumeric c hmem)
        have hxmem : x ∈ numericCells field rows := by
          rw [numericCells_eq]
          exact List.mem_filterMap.mpr ⟨c, hmem, hx⟩
        have hkind : (∃ m, c = .number m ∧ m.asF64 = some x) ∨ ∃ s, c = .string s := by
          cases c <;> simp_all [asF64]
        rcases hkind with ⟨m, rfl, hm⟩ | ⟨s, rfl⟩ <;> rcases hliteral with ⟨n, rfl, hn⟩ | ⟨t, rfl⟩
        · exact absurd hexcludes (not_excludes_of_eval hm hn hxmem heval)
        · exact absurd hexcludes (excludes_ne_of_unordered rfl heval)
        · exact absurd hexcludes (excludes_ne_of_unordered rfl heval)
        · exact ⟨s, t, hcell, rfl, heval, hrefuted⟩

/-- A row is misled exactly if it is accepted and its shard is refuted. -/
theorem misled_iff {rows : List Row} {row : Row} (hrow : row ∈ rows) (predicate : Predicate) :
    Misled rows row predicate ↔ predicate.eval row = true ∧ Refuted rows predicate := by
  induction predicate with
  | true => simp [Misled, Refuted]
  | not a _ => simp [Misled, Refuted]
  | cmp field op value => exact misled_cmp_iff hrow field op value
  | or a b iha ihb =>
      simp only [Misled, Refuted, iha, ihb, Predicate.eval, Bool.or_eq_true]
      grind
  | and a b iha ihb =>
      simp only [Misled, Refuted, iha, ihb, Predicate.eval, Bool.and_eq_true]
      grind

/-- Skipping a shard by its statistics loses no row exactly if none of its rows
is misled. -/
theorem shardCanMatch_sound_iff (rows : List Row) (predicate : Predicate) :
    ((∃ row ∈ rows, predicate.eval row = true) →
        shardCanMatch (some (computeStats rows)) predicate = true) ↔
      ∀ row ∈ rows, ¬Misled rows row predicate := by
  have hfalse := canMatch_eq_false_iff rows predicate
  constructor
  · intro hsound row hrow hmisled
    obtain ⟨heval, hrefuted⟩ := (misled_iff hrow predicate).mp hmisled
    have htrue := hsound ⟨row, hrow, heval⟩
    rw [shardCanMatch, hfalse.mpr hrefuted] at htrue
    cases htrue
  · rintro hnone ⟨row, hrow, heval⟩
    by_contra hskip
    have hrefuted := hfalse.mp (by simpa [shardCanMatch] using hskip)
    exact hnone row hrow ((misled_iff hrow predicate).mpr ⟨heval, hrefuted⟩)

end CeQuery
