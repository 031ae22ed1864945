import Mathlib.Tactic.Common

/-!
# The order of binary64 numbers

`Float` is the binary64 type of the standard library, with one NaN. Its
comparisons are defined on unpacked sign, mantissa and exponent. `rank` maps an
unpacked number to a triple of integers so that the IEEE comparison becomes the
lexicographic comparison of triples (`unpacked_compare`), whose order laws are
already known. The laws that hold away from NaN are read off from it.

`minNum` and `maxNum` are the minimum and maximum that ignore a NaN operand.
`Extremum` states what folding them over a list can and cannot promise: the
result is one of the elements, no ordered element lies beyond it, and it is NaN
only if every element is. Zeros of either sign are equal in this order, so it
says nothing about which of them is returned.
-/

namespace CeQuery

abbrev F64 : Type := Float

namespace F64

open Float.Model (UnpackedFloat)

/-- Order-preserving integer coordinates of an unpacked number. -/
private def rank : UnpackedFloat → Int × Int × Int
  | .notANumber => (0, 0, 0)
  | .infinity .positive => (2, 0, 0)
  | .infinity .negative => (-2, 0, 0)
  | .zero _ => (0, 0, 0)
  | .finite .positive m e _ => (1, e, m)
  | .finite .negative m e _ => (-1, -e, -m)

private def compareRank : Int × Int × Int → Int × Int × Int → Ordering :=
  compareLex (compareOn (·.1)) (compareLex (compareOn (·.2.1)) (compareOn (·.2.2)))

private instance : Std.TransCmp compareRank := by
  unfold compareRank
  infer_instance

private theorem compare_neg (a b : Int) : compare (-a) (-b) = (compare a b).swap := by
  simp only [compare, compareOfLessAndEq]
  grind [Ordering.swap]

private theorem compare_natCast (a b : Nat) : compare (a : Int) b = compare a b := by
  simp only [compare, compareOfLessAndEq]
  grind

private theorem isNaN_notANumber : UnpackedFloat.notANumber.isNaN = true := rfl

private theorem isNaN_infinity (s : UnpackedFloat.Sign) :
    (UnpackedFloat.infinity s).isNaN = false := rfl

private theorem isNaN_zero (s : UnpackedFloat.Sign) : (UnpackedFloat.zero s).isNaN = false := rfl

private theorem isNaN_finite (s : UnpackedFloat.Sign) (m : Nat) (e : Int) (hm : m > 0) :
    (UnpackedFloat.finite s m e hm).isNaN = false := rfl

private theorem unpacked_compare (a b : UnpackedFloat) :
    a.compare b = if a.isNaN || b.isNaN then none else some (compareRank (rank a) (rank b)) := by
  rcases a with (_ | _) | _ | _ | ⟨_ | _, m, e, _⟩ <;>
    rcases b with (_ | _) | _ | _ | ⟨_ | _, n, f, _⟩ <;>
    dsimp only [UnpackedFloat.compare, isNaN_notANumber, isNaN_infinity, isNaN_zero, isNaN_finite,
      rank] <;>
    simp [compareRank, compareLex, compareOn, compare_neg, compare_natCast,
      Ordering.swap_then] <;> rfl

private def coords (x : F64) : Int × Int × Int := rank x.toModel.unpack

private theorem le_iff_coords {x y : F64} : x ≤ y ↔
    x.isNaN = false ∧ y.isNaN = false ∧ (compareRank (coords x) (coords y)).isLE = true := by
  have h : x ≤ y ↔ (x.toModel.unpack.compare y.toModel.unpack).any (·.isLE) = true := by
    change decide (x.toModel.unpack.le y.toModel.unpack = true) = true ↔ _
    rw [decide_eq_true_iff, UnpackedFloat.le]
  rw [h, unpacked_compare]
  change _ ↔ x.toModel.unpack.isNaN = false ∧ y.toModel.unpack.isNaN = false ∧ _
  cases x.toModel.unpack.isNaN <;> cases y.toModel.unpack.isNaN <;> simp [coords]

private theorem lt_iff_coords {x y : F64} : x < y ↔
    x.isNaN = false ∧ y.isNaN = false ∧ compareRank (coords x) (coords y) = .lt := by
  have h : x < y ↔ x.toModel.unpack.compare y.toModel.unpack == some .lt := by
    change decide (x.toModel.unpack.lt y.toModel.unpack = true) = true ↔ _
    rw [decide_eq_true_iff, UnpackedFloat.lt]
  rw [h, unpacked_compare]
  change _ ↔ x.toModel.unpack.isNaN = false ∧ y.toModel.unpack.isNaN = false ∧ _
  cases x.toModel.unpack.isNaN <;> cases y.toModel.unpack.isNaN <;> simp [coords]

theorem not_nan_of_le {x y : F64} (h : x ≤ y) : x.isNaN = false ∧ y.isNaN = false :=
  ⟨(le_iff_coords.mp h).1, (le_iff_coords.mp h).2.1⟩

theorem le_refl {x : F64} (hx : x.isNaN = false) : x ≤ x :=
  have same : compareRank (coords x) (coords x) = .eq := Std.ReflCmp.compare_self
  le_iff_coords.mpr ⟨hx, hx, same ▸ rfl⟩

theorem le_trans {x y z : F64} (hxy : x ≤ y) (hyz : y ≤ z) : x ≤ z := by
  obtain ⟨hx, _, h₁⟩ := le_iff_coords.mp hxy
  obtain ⟨_, hz, h₂⟩ := le_iff_coords.mp hyz
  exact le_iff_coords.mpr ⟨hx, hz, Std.TransCmp.isLE_trans h₁ h₂⟩

private theorem le_iff_isLE {x y : F64} (hx : x.isNaN = false) (hy : y.isNaN = false) :
    x ≤ y ↔ (compareRank (coords x) (coords y)).isLE = true := by
  rw [le_iff_coords, hx, hy]
  exact ⟨fun h => h.2.2, fun h => ⟨rfl, rfl, h⟩⟩

private theorem lt_iff_lt {x y : F64} (hx : x.isNaN = false) (hy : y.isNaN = false) :
    x < y ↔ compareRank (coords x) (coords y) = .lt := by
  rw [lt_iff_coords, hx, hy]
  exact ⟨fun h => h.2.2, fun h => ⟨rfl, rfl, h⟩⟩

private theorem coords_swap (x y : F64) :
    compareRank (coords y) (coords x) = (compareRank (coords x) (coords y)).swap :=
  Std.OrientedCmp.eq_swap

/-- Away from NaN, exactly one of `x ≤ y` and `y < x` holds. -/
theorem not_le_iff {x y : F64} (hx : x.isNaN = false) (hy : y.isNaN = false) :
    ¬x ≤ y ↔ y < x := by
  rw [le_iff_isLE hx hy, lt_iff_lt hy hx, coords_swap x y]
  cases compareRank (coords x) (coords y) <;> decide

theorem lt_iff {x y : F64} : x < y ↔ x ≤ y ∧ ¬y ≤ x := by
  constructor
  · intro h
    obtain ⟨hx, hy, hlt⟩ := lt_iff_coords.mp h
    refine ⟨(le_iff_isLE hx hy).mpr ?_, (not_le_iff hy hx).mpr h⟩
    rw [hlt]
    rfl
  · rintro ⟨hle, hnot⟩
    obtain ⟨hx, hy⟩ := not_nan_of_le hle
    exact (not_le_iff hy hx).mp hnot

theorem le_total {x y : F64} (hx : x.isNaN = false) (hy : y.isNaN = false) : x ≤ y ∨ y ≤ x := by
  by_cases h : x ≤ y
  · exact .inl h
  · exact .inr (lt_iff.mp ((not_le_iff hx hy).mp h)).1

private theorem eq_of_compareRank_eq {a b : Int × Int × Int} (h : compareRank a b = .eq) :
    a = b := by
  simp only [compareRank, compareLex_eq_eq, compareOn] at h
  obtain ⟨hclass, hexponent, hmantissa⟩ := h
  exact Prod.ext (Std.LawfulEqOrd.eq_of_compare hclass)
    (Prod.ext (Std.LawfulEqOrd.eq_of_compare hexponent) (Std.LawfulEqOrd.eq_of_compare hmantissa))

theorem finite_congr {s : UnpackedFloat.Sign} {m m' : Nat} {e e' : Int} {hpos : 0 < m}
    {hpos' : 0 < m'} (hm : m = m') (he : e = e') :
    UnpackedFloat.finite s m e hpos = .finite s m' e' hpos' := by
  subst hm he
  rfl

private theorem eq_or_zero_of_rank_eq {u v : UnpackedFloat} (hu : u.isNaN = false)
    (hv : v.isNaN = false) (h : rank u = rank v) :
    u = v ∨ (∃ s, u = .zero s) ∧ ∃ s, v = .zero s := by
  rcases u with (_ | _) | _ | s | ⟨_ | _, m, e, _⟩ <;>
    rcases v with (_ | _) | _ | t | ⟨_ | _, n, f, _⟩ <;>
    first
    | exact .inl rfl
    | exact .inr ⟨⟨_, rfl⟩, _, rfl⟩
    | exact absurd hu Bool.noConfusion
    | exact absurd hv Bool.noConfusion
    | dsimp only [rank] at h
      rw [Prod.mk.injEq, Prod.mk.injEq] at h
  -- what is left are different kinds of numbers, or finite ones of the same sign
  all_goals first
    | omega
    | exact .inl (finite_congr (by omega) (by omega))

/-- Numbers that are equal in the order have the same unpacked form or are zeros. -/
theorem unpack_eq_or_zero_of_le_of_le {x y : F64} (hxy : x ≤ y) (hyx : y ≤ x) :
    x.toModel.unpack = y.toModel.unpack ∨
      (∃ s, x.toModel.unpack = .zero s) ∧ ∃ s, y.toModel.unpack = .zero s := by
  obtain ⟨hx, hy, hle⟩ := le_iff_coords.mp hxy
  obtain ⟨_, _, hge⟩ := le_iff_coords.mp hyx
  apply eq_or_zero_of_rank_eq hx hy
  apply eq_of_compareRank_eq
  rw [coords_swap x y] at hge
  change compareRank (coords x) (coords y) = .eq
  cases hcmp : compareRank (coords x) (coords y) with
  | lt => simp [hcmp] at hge
  | eq => rfl
  | gt => simp [hcmp] at hle

theorem lt_of_lt_of_le {x y z : F64} (hxy : x < y) (hyz : y ≤ z) : x < z := by
  obtain ⟨hle, hnot⟩ := lt_iff.mp hxy
  exact lt_iff.mpr ⟨le_trans hle hyz, fun hzx => hnot (le_trans hyz hzx)⟩

theorem lt_of_le_of_lt {x y z : F64} (hxy : x ≤ y) (hyz : y < z) : x < z := by
  obtain ⟨hle, hnot⟩ := lt_iff.mp hyz
  exact lt_iff.mpr ⟨le_trans hxy hle, fun hzx => hnot (le_trans hzx hxy)⟩

theorem isFinite_iff {x : F64} : x.isFinite = true ↔ x.isNaN = false ∧ x.isInf = false := by
  show x.toModel.unpack.isFinite = true ↔
    x.toModel.unpack.isNaN = false ∧ x.toModel.unpack.isInf = false
  cases x.toModel.unpack <;>
    dsimp only [UnpackedFloat.isFinite, UnpackedFloat.isInf, isNaN_notANumber, isNaN_infinity,
      isNaN_zero, isNaN_finite] <;> decide

private theorem not_nan_unpack_components {s : UnpackedFloat.Sign}
    {e : BitVec Float.Model.Format.binary64.exponentBits}
    {m : BitVec Float.Model.Format.binary64.mantissaBitsWithoutImplicit} (h : e = -1#_ → m = 0#_) :
    (UnpackedFloat.unpack .binary64 (UnpackedFloat.packComponents .binary64 s e m)).isNaN =
      false := by
  have hexponent :
      UnpackedFloat.unpackExponent (UnpackedFloat.packComponents .binary64 s e m) = e :=
    UnpackedFloat.unpackExponent_packComponents
  have hmantissa :
      UnpackedFloat.unpackMantissa (UnpackedFloat.packComponents .binary64 s e m) = m :=
    UnpackedFloat.unpackMantissa_packComponents
  generalize UnpackedFloat.packComponents .binary64 s e m = packed at hexponent hmantissa ⊢
  unfold UnpackedFloat.unpack
  dsimp only
  by_cases he : UnpackedFloat.unpackExponent packed = -1#_
  · rw [if_pos he, if_pos (hmantissa.trans (h (hexponent.symm.trans he)))]
    rfl
  · rw [if_neg he]
    by_cases hzero : UnpackedFloat.unpackExponent packed = 0#_
    · rw [if_pos hzero]
      by_cases hm : UnpackedFloat.unpackMantissa packed = 0#_
      · rw [dif_pos hm]
        rfl
      · rw [dif_neg hm]
        rfl
    · rw [if_neg hzero]
      rfl

/-- Packing does not make a NaN of a number. -/
theorem not_nan_unpack_pack {f : UnpackedFloat} (h : f.isNaN = false) :
    (UnpackedFloat.unpack .binary64 (UnpackedFloat.pack .binary64 f)).isNaN = false := by
  fun_cases UnpackedFloat.pack with
  | case1 => cases h
  | case2 s => exact not_nan_unpack_components fun _ => rfl
  | case3 s => exact not_nan_unpack_components fun _ => rfl
  | case4 s m e hm b hb => exact not_nan_unpack_components fun _ => rfl
  | case5 s m e hm a b hb ha =>
      apply not_nan_unpack_components
      intro he
      have hval := congrArg BitVec.toNat he
      simp only [BitVec.toNat_ofNat] at hval hb
      rw [Nat.mod_eq_of_lt (by omega)] at hval
      have hones : (-1#11).toNat = 2047 := rfl
      omega
  | case6 s m e hm a b hb ha =>
      apply not_nan_unpack_components
      intro he
      cases he

private theorem not_nan_of_mantissa (s : UnpackedFloat.Sign) (m : Nat) (e : Int) :
    (if h : m = 0 then UnpackedFloat.zero s
      else .finite s m e (Nat.pos_of_ne_zero h)).isNaN = false := by
  by_cases hm : m = 0
  · rw [dif_pos hm]
    rfl
  · rw [dif_neg hm]
    rfl

private theorem not_nan_round {spec : Float.Model.Format} {s : UnpackedFloat.Sign} {m : Nat}
    {e : Int} : (UnpackedFloat.round spec s m e).isNaN = false :=
  not_nan_of_mantissa s _ _

/-- The number nearest to an integer is not a NaN. -/
theorem not_nan_ofInt (n : Int) : (Float.ofModel (Float.Model.ofInt n)).isNaN = false := by
  apply not_nan_unpack_pack
  rw [UnpackedFloat.ofInt, UnpackedFloat.normalize]
  split
  · exact not_nan_round
  · rfl
  · exact not_nan_round

theorem isInf_of_isNaN {x : F64} (h : x.isNaN = true) : x.isInf = false := by
  change x.toModel.unpack.isNaN = true at h
  show x.toModel.unpack.isInf = false
  cases hx : x.toModel.unpack with
  | notANumber => rfl
  | infinity s =>
      rw [hx, isNaN_infinity] at h
      cases h
  | zero s => rfl
  | finite s m e hm => rfl

private theorem fst_le_of_isLE {a b : Int × Int × Int} (h : (compareRank a b).isLE = true) :
    a.1 ≤ b.1 := by
  by_contra hlt
  have hgt : compare a.1 b.1 = .gt := by
    simp only [compare, compareOfLessAndEq]
    grind
  simp [compareRank, compareLex, compareOn, hgt] at h

/-- What lies between finite numbers is finite. -/
theorem isFinite_of_between {x y z : F64} (hxy : x ≤ y) (hyz : y ≤ z) (hx : x.isFinite = true)
    (hz : z.isFinite = true) : y.isFinite = true := by
  have hfinite : ∀ u : UnpackedFloat, u.isFinite = true → -1 ≤ (rank u).1 ∧ (rank u).1 ≤ 1 := by
    intro u hu
    rcases u with _ | _ | _ | ⟨_ | _, _, _, _⟩
    · cases hu
    · cases hu
    all_goals dsimp only [rank]
    all_goals omega
  have hinfinite : ∀ u : UnpackedFloat, u.isInf = true → (rank u).1 = 2 ∨ (rank u).1 = -2 := by
    intro u hu
    rcases u with (_ | _) | _ | _ | _
    · exact .inr rfl
    · exact .inl rfl
    all_goals cases hu
  obtain ⟨_, hy, hlower⟩ := le_iff_coords.mp hxy
  obtain ⟨_, _, hupper⟩ := le_iff_coords.mp hyz
  have hbelow : (coords x).1 ≤ (coords y).1 := fst_le_of_isLE hlower
  have habove : (coords y).1 ≤ (coords z).1 := fst_le_of_isLE hupper
  rw [isFinite_iff]
  refine ⟨hy, ?_⟩
  by_contra hinf
  have hinf : y.toModel.unpack.isInf = true := (Bool.not_eq_false _).mp hinf
  have hy : (coords y).1 = 2 ∨ (coords y).1 = -2 := hinfinite _ hinf
  have hx : -1 ≤ (coords x).1 ∧ _ := hfinite _ hx
  have hz : _ ∧ (coords z).1 ≤ 1 := hfinite _ hz
  omega

/-- The three-way comparison of two numbers; nothing when one of them is NaN. -/
def partialCmp (x y : F64) : Option Ordering :=
  match decide (x ≤ y), decide (y ≤ x) with
  | false, false => none
  | false, true => some .gt
  | true, false => some .lt
  | true, true => some .eq

theorem partialCmp_eq_lt_iff {x y : F64} : partialCmp x y = some .lt ↔ x < y := by
  rw [lt_iff, partialCmp]
  by_cases h₁ : x ≤ y <;> by_cases h₂ : y ≤ x <;> simp [h₁, h₂]

theorem partialCmp_eq_gt_iff {x y : F64} : partialCmp x y = some .gt ↔ y < x := by
  rw [lt_iff, partialCmp]
  by_cases h₁ : x ≤ y <;> by_cases h₂ : y ≤ x <;> simp [h₁, h₂]

theorem partialCmp_eq_eq_iff {x y : F64} : partialCmp x y = some .eq ↔ x ≤ y ∧ y ≤ x := by
  rw [partialCmp]
  by_cases h₁ : x ≤ y <;> by_cases h₂ : y ≤ x <;> simp [h₁, h₂]

/-- A comparison of all numbers that is the three-way comparison away from NaN. -/
def rankCmp (x y : F64) : Ordering :=
  compareRank (coords x) (coords y)

instance : Std.TransCmp rankCmp where
  eq_swap {x y} := by
    rw [rankCmp, rankCmp]
    exact Std.OrientedCmp.eq_swap
  isLE_trans {x y z} hxy hyz := by
    rw [rankCmp] at *
    exact Std.TransCmp.isLE_trans hxy hyz

theorem partialCmp_eq_rankCmp {x y : F64} (hx : x.isNaN = false) (hy : y.isNaN = false) :
    partialCmp x y = some (rankCmp x y) := by
  have hle : x ≤ y ↔ (rankCmp x y).isLE = true := le_iff_isLE hx hy
  have hge : y ≤ x ↔ (rankCmp x y).swap.isLE = true := by
    rw [le_iff_isLE hy hx, coords_swap]
    exact Iff.rfl
  rw [partialCmp]
  simp only [hle, hge]
  cases rankCmp x y <;> rfl

/-- Which end of the order an extremum is taken at. -/
inductive End where
  | least
  | greatest

/-- `e.Within m y`: seen from the end `e`, `m` does not lie behind `y`. -/
def End.Within : End → F64 → F64 → Prop
  | .least, m, y => m ≤ y
  | .greatest, m, y => y ≤ m

instance (e : End) (m y : F64) : Decidable (e.Within m y) := by
  cases e <;> unfold End.Within <;> infer_instance

theorem End.Within.trans {e : End} {x y z : F64} (hxy : e.Within x y) (hyz : e.Within y z) :
    e.Within x z := by
  cases e with
  | least => exact le_trans hxy hyz
  | greatest => exact le_trans hyz hxy

theorem End.Within.not_nan {e : End} {x y : F64} (h : e.Within x y) :
    x.isNaN = false ∧ y.isNaN = false := by
  cases e with
  | least => exact not_nan_of_le h
  | greatest => exact (not_nan_of_le h).symm

theorem End.within_refl (e : End) {x : F64} (hx : x.isNaN = false) : e.Within x x := by
  cases e <;> exact le_refl hx

theorem End.within_total (e : End) {x y : F64} (hx : x.isNaN = false) (hy : y.isNaN = false) :
    e.Within x y ∨ e.Within y x := by
  cases e with
  | least => exact le_total hx hy
  | greatest => exact le_total hy hx

/-- The operand nearer to the end `e`; a NaN operand yields the other one. -/
def End.pick (e : End) (x y : F64) : F64 :=
  if x.isNaN then y
  else if y.isNaN then x
  else if e.Within x y then x else y

@[simp] theorem End.pick_self (e : End) (x : F64) : e.pick x x = x := by
  unfold End.pick
  split_ifs <;> rfl

def minNum : F64 → F64 → F64 := End.least.pick
def maxNum : F64 → F64 → F64 := End.greatest.pick

/-- `m` is an extreme element of `xs`: it occurs there, and every element that
is not NaN lies on the inner side of it. -/
structure Extremum (e : End) (xs : List F64) (m : F64) : Prop where
  mem : m ∈ xs
  bound : ∀ y ∈ xs, y.isNaN = false → e.Within m y

namespace Extremum

variable {e : End} {xs ys : List F64} {m n : F64}

theorem singleton (e : End) (x : F64) : Extremum e [x] x := by
  refine ⟨List.mem_singleton_self x, ?_⟩
  intro y hy hnan
  rw [List.mem_singleton.mp hy] at hnan ⊢
  exact e.within_refl hnan

theorem perm (h : Extremum e xs m) (hperm : xs.Perm ys) : Extremum e ys m :=
  ⟨hperm.mem_iff.mp h.mem, fun y hy => h.bound y (hperm.mem_iff.mpr hy)⟩

/-- An extremum is NaN only when nothing in the list is ordered. -/
theorem all_nan (h : Extremum e xs m) (hm : m.isNaN = true) : ∀ y ∈ xs, y.isNaN = true := by
  intro y hy
  by_contra hnan
  have hordered := (h.bound y hy (Bool.eq_false_iff.mpr hnan)).not_nan.1
  rw [hm] at hordered
  cases hordered

/-- Two extrema combine to the extremum of both lists together. -/
theorem append (hx : Extremum e xs m) (hy : Extremum e ys n) :
    Extremum e (xs ++ ys) (e.pick m n) := by
  unfold End.pick
  split_ifs with hm hn hmn
  · refine ⟨List.mem_append_right _ hy.mem, ?_⟩
    intro z hz hnan
    rcases List.mem_append.mp hz with hz | hz
    · rw [hx.all_nan hm z hz] at hnan
      cases hnan
    · exact hy.bound z hz hnan
  · refine ⟨List.mem_append_left _ hx.mem, ?_⟩
    intro z hz hnan
    rcases List.mem_append.mp hz with hz | hz
    · exact hx.bound z hz hnan
    · rw [hy.all_nan hn z hz] at hnan
      cases hnan
  · refine ⟨List.mem_append_left _ hx.mem, ?_⟩
    intro z hz hnan
    rcases List.mem_append.mp hz with hz | hz
    · exact hx.bound z hz hnan
    · exact hmn.trans (hy.bound z hz hnan)
  · have hnm : e.Within n m :=
      (e.within_total (by simpa using hm) (by simpa using hn)).resolve_left hmn
    refine ⟨List.mem_append_right _ hy.mem, ?_⟩
    intro z hz hnan
    rcases List.mem_append.mp hz with hz | hz
    · exact hnm.trans (hx.bound z hz hnan)
    · exact hy.bound z hz hnan

/-- The extrema of a list are finite exactly if it has a number and no infinity. -/
theorem finite_iff (hmin : Extremum .least xs m) (hmax : Extremum .greatest xs n) :
    (m.isFinite = true ∧ n.isFinite = true) ↔
      (∀ x ∈ xs, x.isInf = false) ∧ ∃ x ∈ xs, x.isNaN = false := by
  constructor
  · rintro ⟨hm, hn⟩
    refine ⟨?_, m, hmin.mem, (isFinite_iff.mp hm).1⟩
    intro x hx
    cases hnan : x.isNaN with
    | true => exact isInf_of_isNaN hnan
    | false =>
        have hfinite := isFinite_of_between (hmin.bound x hx hnan) (hmax.bound x hx hnan) hm hn
        exact (isFinite_iff.mp hfinite).2
  · rintro ⟨hinf, x, hx, hnan⟩
    have hends : ∀ {e : End} {m : F64}, Extremum e xs m → m.isFinite = true := by
      intro e m hm
      refine isFinite_iff.mpr ⟨?_, hinf m hm.mem⟩
      exact ((hm.bound x hx hnan).not_nan).1
    exact ⟨hends hmin, hends hmax⟩

/-- Without NaN the extrema of a list are equal. -/
theorem equal (h : Extremum e xs m) (hn : Extremum e xs n)
    (hnumbers : ∀ x ∈ xs, x.isNaN = false) : m ≤ n ∧ n ≤ m := by
  have hmn := h.bound n hn.mem (hnumbers n hn.mem)
  have hnm := hn.bound m h.mem (hnumbers m h.mem)
  cases e with
  | least => exact ⟨hmn, hnm⟩
  | greatest => exact ⟨hnm, hmn⟩

/-- All extrema of a list are finite if one of them is. -/
theorem isFinite_of_isFinite (h : Extremum e xs m) (hn : Extremum e xs n)
    (hfinite : n.isFinite = true) : m.isFinite = true := by
  have hn' : n.isNaN = false := (isFinite_iff.mp hfinite).1
  have hm : m.isNaN = false := ((h.bound n hn.mem hn').not_nan).1
  have hmn := h.bound n hn.mem hn'
  have hnm := hn.bound m h.mem hm
  cases e with
  | least => exact isFinite_of_between hnm hmn hfinite hfinite
  | greatest => exact isFinite_of_between hmn hnm hfinite hfinite

end Extremum

/-- The extremum of a possibly empty list: nothing exactly when there is no
element at all. -/
def OptExtremum (e : End) (xs : List F64) : Option F64 → Prop
  | none => xs = []
  | some m => Extremum e xs m

theorem OptExtremum.perm {e : End} {xs ys : List F64} {m : Option F64}
    (h : OptExtremum e xs m) (hperm : xs.Perm ys) : OptExtremum e ys m := by
  cases m with
  | none =>
      change ys = []
      have hxs : xs = [] := h
      exact List.perm_nil.mp (hxs ▸ hperm.symm)
  | some m => exact Extremum.perm h hperm

/-- Optional extrema of two lists combine to the extremum of both together. -/
theorem OptExtremum.merge {e : End} {xs ys : List F64} {m n : Option F64}
    (hm : OptExtremum e xs m) (hn : OptExtremum e ys n) :
    OptExtremum e (xs ++ ys) (m.merge e.pick n) := by
  cases m with
  | none =>
      have hxs : xs = [] := hm
      rw [hxs, Option.merge_none_left]
      exact hn
  | some m =>
      cases n with
      | none =>
          have hys : ys = [] := hn
          rw [hys, List.append_nil, Option.merge_none_right]
          exact hm
      | some n => exact Extremum.append hm hn

/-- Taking one more element into account. -/
theorem OptExtremum.snoc {e : End} {xs : List F64} {m : Option F64} (h : OptExtremum e xs m)
    (y : F64) : OptExtremum e (xs ++ [y]) (some (m.elim y fun c => e.pick c y)) := by
  have hy : OptExtremum e [y] (some y) := Extremum.singleton e y
  cases m <;> exact h.merge hy

end F64

end CeQuery
