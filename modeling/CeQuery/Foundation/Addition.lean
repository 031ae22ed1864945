import CeQuery.Foundation.Binary64
import Mathlib.Algebra.GroupWithZero.Nat

/-!
# Adding binary64 numbers

A sum is the negative zero only if both terms are (`NotNegZero.add`): rounding does not
make a zero of a positive mantissa, as its exponent is never below the least one. Away
from the negative zero adding zero changes nothing, and a number that is not finite
stays so in sums and quotients.
-/

namespace CeQuery

namespace F64

open Float.Model (UnpackedFloat Format totalExponent)
open Float.Model.UnpackedFloat (Sign ExtendedMantissa Accuracy pack packComponents unpack
  unpackSign unpackExponent unpackMantissa roundWithAccuracy)

section Round

variable {s t : Sign} {m : Nat} {e : Int} {acc : Accuracy}

theorem le_roundedMantissa (em : ExtendedMantissa) : em.mantissa ≤ em.roundedMantissa := by
  obtain ⟨m, round, sticky⟩ := em
  cases round <;> cases sticky
  · exact Nat.le_refl m
  · exact Nat.le_refl m
  · exact Nat.le_add_right m _
  · exact Nat.le_add_right m 1

/-- By how much a mantissa is shifted to its target exponent. -/
def shiftAmount (m : Nat) (e : Int) : Nat :=
  (Format.binary64.targetExponent (totalExponent m e) - e).toNat

theorem shiftAmount_eq (he : -1074 ≤ e) : shiftAmount m e = m.log2 - 52 := by
  rw [shiftAmount, targetExponent_eq]
  omega

/-- What is left of a mantissa has at most 53 bits and is not zero. -/
theorem shifted_bounds (hm : 0 < m) (he : -1074 ≤ e) :
    0 < m / 2 ^ shiftAmount m e ∧ m / 2 ^ shiftAmount m e < 2 ^ 53 := by
  have hupper : m < 2 ^ (53 + (m.log2 - 52)) :=
    Nat.lt_of_lt_of_le Nat.lt_log2_self (Nat.pow_le_pow_right (by decide) (by omega))
  have hlower : 2 ^ (m.log2 - 52) ≤ m :=
    (Nat.pow_le_pow_right (by decide) (by omega)).trans (Nat.log2_self_le hm.ne')
  rw [shiftAmount_eq he]
  refine ⟨Nat.div_pos hlower (Nat.two_pow_pos _), ?_⟩
  rwa [Nat.div_lt_iff_lt_mul (Nat.two_pow_pos _), ← Nat.pow_add]

/-- A positive mantissa is rounded to a positive one. -/
theorem roundWithAccuracy_eq_finite (hm : 0 < m) (he : -1074 ≤ e) :
    ∃ m' e' hpos, roundWithAccuracy .binary64 s m e acc = .finite s m' e' hpos ∧
      m' < 2 ^ 53 ∧ -1074 ≤ e' := by
  have hfirst : 0 < (ExtendedMantissa.ofMantissaAndAccuracy m acc >>>
      shiftAmount m e).roundedMantissa := by
    apply Nat.lt_of_lt_of_le _ (le_roundedMantissa _)
    rw [mantissa_shiftRight, mantissa_ofMantissaAndAccuracy]
    exact (shifted_bounds hm he).1
  have hround : ∃ m' e', 0 < m' ∧ -1074 ≤ e' ∧ roundWithAccuracy .binary64 s m e acc =
      if h : (ExtendedMantissa.ofMantissaAndAccuracy m' .exact >>> shiftAmount m' e').mantissa = 0
        then .zero s
      else .finite s _ (e' + shiftAmount m' e') (Nat.pos_of_ne_zero h) :=
    ⟨_, e + shiftAmount m e, hfirst, by omega, rfl⟩
  obtain ⟨m', e', hm', he', hround⟩ := hround
  have hsecond := shifted_bounds hm' he'
  rw [← @mantissa_ofMantissaAndAccuracy m' .exact, ← mantissa_shiftRight,
    mantissa_ofMantissaAndAccuracy] at hsecond
  rw [hround, dif_neg hsecond.1.ne']
  exact ⟨_, _, _, rfl, hsecond.2, by omega⟩

/-- A positive mantissa at a possible exponent is rounded to a positive one. -/
theorem round_eq_finite (hm : 0 < m) (he : -1074 ≤ e) :
    ∃ m' e' hpos, UnpackedFloat.round .binary64 s m e = .finite s m' e' hpos ∧
      m' < 2 ^ 53 ∧ -1074 ≤ e' := by
  have hmin : Format.binary64.minExponent = -1074 := by decide
  apply roundWithAccuracy_eq_finite
  · rw [Nat.shiftLeft_eq]
    exact Nat.mul_pos hm (Nat.two_pow_pos _)
  · change -1074 ≤ e - ((e - max _ Format.binary64.minExponent).toNat : Int)
    omega

end Round

section Unpack

variable {s t : Sign} {m : Nat} {e : Int} {x y : F64}

/-- The numbers that can be unpacked: only a zero has neither an exponent nor a mantissa,
a mantissa has at most 53 bits, and no exponent is below the least one. -/
theorem unpack_cases (b : BitVec Format.binary64.numBits) :
    unpack .binary64 b = .infinity (Sign.ofBitVec (unpackSign b)) ∨
      unpack .binary64 b = .notANumber ∨
      (unpackExponent b = 0#_ ∧ unpackMantissa b = 0#_ ∧
        unpack .binary64 b = .zero (Sign.ofBitVec (unpackSign b))) ∨
      ∃ m e hpos, m < 2 ^ 53 ∧ -1074 ≤ e ∧
        unpack .binary64 b = .finite (Sign.ofBitVec (unpackSign b)) m e hpos := by
  have hbias : Format.binary64.exponentBias = 1023 := by decide
  have hmantissa : (unpackMantissa b).toNat < 2 ^ 52 := (unpackMantissa b).isLt
  unfold UnpackedFloat.unpack
  dsimp only
  by_cases hones : unpackExponent b = -1#_
  · rw [if_pos hones]
    by_cases hzero : unpackMantissa b = 0#_
    · rw [if_pos hzero]
      exact .inl rfl
    · rw [if_neg hzero]
      exact .inr (.inl rfl)
  · rw [if_neg hones]
    by_cases hsmall : unpackExponent b = 0#_
    · rw [if_pos hsmall]
      by_cases hzero : unpackMantissa b = 0#_
      · rw [dif_pos hzero]
        exact .inr (.inr (.inl ⟨hsmall, hzero, rfl⟩))
      · rw [dif_neg hzero]
        have hpos : 0 < (unpackMantissa b).toNat :=
          Nat.pos_of_ne_zero fun h => hzero (BitVec.eq_of_toNat_eq h)
        exact .inr (.inr (.inr ⟨_, _, hpos, by omega, by omega, rfl⟩))
    · rw [if_neg hsmall]
      have hexponent : (unpackExponent b).toNat ≠ 0 :=
        fun h => hsmall (BitVec.eq_of_toNat_eq h)
      have himplicit := toNat_implicit (unpackMantissa b)
      exact .inr (.inr (.inr ⟨_, _, by omega, by omega, by omega, rfl⟩))

theorem components_of_unpack_eq_zero {b : BitVec Format.binary64.numBits}
    (h : unpack .binary64 b = .zero t) : unpackExponent b = 0#_ ∧ unpackMantissa b = 0#_ := by
  rcases unpack_cases b with hb | hb | ⟨hexponent, hmantissa, _⟩ | ⟨_, _, _, _, _, hb⟩
  · cases hb.symm.trans h
  · cases hb.symm.trans h
  · exact ⟨hexponent, hmantissa⟩
  · cases hb.symm.trans h

/-- A rounded number is not packed as a zero. -/
theorem unpack_pack_ne_zero {hpos : 0 < m} (hupper : m < 2 ^ 53) (he : -1074 ≤ e) :
    unpack .binary64 (pack .binary64 (.finite s m e hpos)) ≠ .zero t := by
  intro h
  obtain ⟨hexponent, hmantissa⟩ := components_of_unpack_eq_zero h
  have hbias : Format.binary64.exponentBias = 1023 := by decide
  unfold UnpackedFloat.pack at hexponent hmantissa
  dsimp only at hexponent hmantissa
  split at hexponent
  · -- the number is too large
    rw [UnpackedFloat.packedInfinity, UnpackedFloat.unpackExponent_packComponents] at hexponent
    cases hexponent
  · rename_i hrange
    rw [if_neg hrange] at hmantissa
    split at hexponent
    · rw [UnpackedFloat.unpackExponent_packComponents] at hexponent
      have hval := congrArg BitVec.toNat hexponent
      rw [BitVec.toNat_ofNat, BitVec.toNat_zero] at hval
      rw [hbias] at hval hrange
      omega
    · rename_i hlog
      rw [if_neg hlog, UnpackedFloat.unpackMantissa_packComponents] at hmantissa
      have hlog : ¬m.log2 + 1 = 53 := hlog
      have hlower : m.log2 < 53 := (Nat.log2_lt hpos.ne').mpr hupper
      have hupper : m < 2 ^ 52 := (Nat.log2_lt hpos.ne').mp (by omega)
      have hval := congrArg BitVec.toNat hmantissa
      rw [BitVec.toNat_ofNat, BitVec.toNat_zero] at hval
      omega

/-- The number is not the negative zero. -/
def NotNegZero (x : F64) : Prop :=
  x.toModel.unpack ≠ .zero .negative

/-- Rounding does not make a zero. -/
theorem unpack_pack_normalize_ne_zero {n : Int} (hn : n ≠ 0) (he : -1074 ≤ e) :
    unpack .binary64 (pack .binary64 (UnpackedFloat.normalize .binary64 n e s)) ≠ .zero t := by
  rw [UnpackedFloat.normalize]
  cases hcmp : compare n 0 with
  | lt =>
      have hneg : n < 0 := Int.compare_eq_lt.mp hcmp
      have hpos : 0 < (-n).toNat := by omega
      obtain ⟨m', e', _, hround, hupper, he'⟩ := @round_eq_finite .negative _ _ hpos he
      dsimp only
      rw [hround]
      exact unpack_pack_ne_zero hupper he'
  | eq => exact absurd (Int.compare_eq_eq.mp hcmp) hn
  | gt =>
      have hpos : 0 < n.toNat := by
        have := Int.compare_eq_gt.mp hcmp
        omega
      obtain ⟨m', e', _, hround, hupper, he'⟩ := @round_eq_finite .positive _ _ hpos he
      dsimp only
      rw [hround]
      exact unpack_pack_ne_zero hupper he'

theorem unpack_pack_zero : unpack .binary64 (pack .binary64 (.zero s)) = .zero s := by
  cases s <;> rfl

theorem unpack_add : (x + y).toModel.unpack = unpack .binary64
    (pack .binary64 (UnpackedFloat.add .binary64 x.toModel.unpack y.toModel.unpack)) :=
  rfl

end Unpack

section Add

variable {s t : Sign} {x y : F64} {u v : UnpackedFloat}

/-- What is not finite is packed as it is. -/
theorem unpack_pack_of_not_finite (h : u.isFinite = false) :
    unpack .binary64 (pack .binary64 u) = u := by
  cases u with
  | notANumber => rfl
  | infinity s => cases s <;> rfl
  | zero s => cases h
  | finite s m e hm => cases h

theorem isFinite_add_left (h : u.isFinite = false) :
    (UnpackedFloat.add .binary64 u v).isFinite = false := by
  cases u with
  | notANumber => rfl
  | infinity s =>
      cases v with
      | infinity t => cases s <;> cases t <;> rfl
      | _ => rfl
  | zero s => cases h
  | finite s m e hm => cases h

theorem isFinite_add_right (h : v.isFinite = false) :
    (UnpackedFloat.add .binary64 u v).isFinite = false := by
  cases v with
  | notANumber => cases u <;> rfl
  | infinity t =>
      cases u with
      | infinity s => cases s <;> cases t <;> rfl
      | _ => rfl
  | zero s => cases h
  | finite s m e hm => cases h

theorem isFinite_add (h : x.isFinite = false ∨ y.isFinite = false) :
    (x + y).isFinite = false := by
  have hsum : (UnpackedFloat.add .binary64 x.toModel.unpack y.toModel.unpack).isFinite = false :=
    h.elim isFinite_add_left isFinite_add_right
  change (x + y).toModel.unpack.isFinite = false
  rwa [unpack_add, unpack_pack_of_not_finite hsum]

/-- A quotient of what is not finite is not finite. -/
theorem isFinite_div (hx : x.isFinite = false) (hy : y.isFinite = true) :
    (x / y).isFinite = false := by
  have hquotient : (UnpackedFloat.div .binary64 x.toModel.unpack y.toModel.unpack).isFinite =
      false := by
    change x.toModel.unpack.isFinite = false at hx
    change y.toModel.unpack.isFinite = true at hy
    cases hux : x.toModel.unpack with
    | notANumber => rfl
    | infinity s =>
        cases huy : y.toModel.unpack with
        | infinity t =>
            rw [huy] at hy
            cases hy
        | _ => rfl
    | zero s =>
        rw [hux] at hx
        cases hx
    | finite s m e hm =>
        rw [hux] at hx
        cases hx
  change (unpack .binary64 (pack .binary64
    (UnpackedFloat.div .binary64 x.toModel.unpack y.toModel.unpack))).isFinite = false
  rwa [unpack_pack_of_not_finite hquotient]

theorem add_eq_of_unpack {z : F64} (h : UnpackedFloat.add .binary64 x.toModel.unpack
    y.toModel.unpack = z.toModel.unpack) : x + y = z :=
  (congrArg (fun u => Float.ofModel (Float.Model.pack u)) h).trans (pack_unpack z)

theorem sub_eq_of_unpack {z : F64} (h : UnpackedFloat.sub .binary64 x.toModel.unpack
    y.toModel.unpack = z.toModel.unpack) : x - y = z :=
  (congrArg (fun u => Float.ofModel (Float.Model.pack u)) h).trans (pack_unpack z)

theorem notNegZero_of_not_finite (h : x.isFinite = false) : NotNegZero x := by
  intro hzero
  change x.toModel.unpack.isFinite = false at h
  rw [hzero] at h
  cases h

theorem unpack_of_finite (h : x.isFinite = true) : (∃ s, x.toModel.unpack = .zero s) ∨
    ∃ s m e hpos, m < 2 ^ 53 ∧ -1074 ≤ e ∧ x.toModel.unpack = .finite s m e hpos := by
  change (unpack .binary64 x.toModel.toBits.toBitVec).isFinite = true at h
  rcases unpack_cases x.toModel.toBits.toBitVec with hx | hx | ⟨_, _, hx⟩ |
    ⟨m, e, hpos, hm, he, hx⟩
  · rw [hx] at h
    cases h
  · rw [hx] at h
    cases h
  · exact .inl ⟨_, hx⟩
  · exact .inr ⟨_, m, e, hpos, hm, he, hx⟩

/-- A sum is the negative zero only if both terms are. -/
theorem NotNegZero.add (hx : NotNegZero x) (y : F64) : NotNegZero (x + y) := by
  by_cases hfinite : x.isFinite = false ∨ y.isFinite = false
  · exact notNegZero_of_not_finite (isFinite_add hfinite)
  · rw [not_or, Bool.not_eq_false, Bool.not_eq_false] at hfinite
    intro h
    rcases unpack_of_finite hfinite.1 with ⟨s, hux⟩ | ⟨s, m, e, hm, _, he, hux⟩ <;>
      rcases unpack_of_finite hfinite.2 with ⟨t, huy⟩ | ⟨t, n, f, hn, _, hf, huy⟩
    · cases s with
      | negative => exact hx hux
      | positive =>
          rw [unpack_add, hux, huy] at h
          cases t <;> cases h
    · have hsum : x + y = y := add_eq_of_unpack (by rw [hux, huy]; rfl)
      rw [hsum, huy] at h
      cases h
    · have hsum : x + y = x := add_eq_of_unpack (by rw [hux, huy]; rfl)
      rw [hsum, hux] at h
      cases h
    · rw [unpack_add, hux, huy] at h
      obtain ⟨k, hadd⟩ : ∃ k, UnpackedFloat.add .binary64 (.finite s m e hm) (.finite t n f hn) =
          UnpackedFloat.normalize .binary64 k (min e f) .positive := ⟨_, rfl⟩
      rw [hadd] at h
      by_cases hzero : k = 0
      · have hnormalize : UnpackedFloat.normalize .binary64 0 (min e f) .positive =
            .zero .positive := rfl
        rw [hzero, hnormalize, unpack_pack_zero] at h
        cases h
      · exact unpack_pack_normalize_ne_zero hzero (Int.le_min.mpr ⟨he, hf⟩) h

/-- Adding zero changes nothing but the negative zero. -/
theorem add_zero_eq (hx : NotNegZero x) : x + 0 = x := by
  apply add_eq_of_unpack
  rw [NotNegZero] at hx
  cases hux : x.toModel.unpack with
  | infinity s => rfl
  | notANumber => rfl
  | zero s =>
      cases s with
      | negative => exact absurd hux hx
      | positive => rfl
  | finite s m e hm => rfl

theorem zero_add_eq (hx : NotNegZero x) : 0 + x = x := by
  apply add_eq_of_unpack
  rw [NotNegZero] at hx
  cases hux : x.toModel.unpack with
  | infinity s => rfl
  | notANumber => rfl
  | zero s =>
      cases s with
      | negative => exact absurd hux hx
      | positive => rfl
  | finite s m e hm => rfl

theorem sub_self_eq (hx : x.isFinite = true) : x - x = 0 := by
  apply sub_eq_of_unpack
  rcases unpack_of_finite hx with ⟨s, hux⟩ | ⟨s, m, e, hm, _, _, hux⟩
  · rw [hux]
    cases s <;> rfl
  · obtain ⟨k, hsub⟩ : ∃ k : Int, UnpackedFloat.sub .binary64 (.finite s m e hm)
        (.finite s m e hm) = UnpackedFloat.normalize .binary64 (k - k) (min e e) .positive :=
      ⟨_, rfl⟩
    rw [hux, hsub, Int.sub_self]
    rfl

theorem unpackSign_pack {m : Nat} {e : Int} {hpos : 0 < m} :
    Sign.ofBitVec (unpackSign (pack .binary64 (.finite s m e hpos))) = s := by
  unfold UnpackedFloat.pack
  dsimp only
  split
  · exact unpackSign_packComponents
  · split
    · exact unpackSign_packComponents
    · exact unpackSign_packComponents

/-- No absolute value is below that of zero. -/
theorem abs_zero_le_abs (hx : x.isNaN = false) : (0 : F64).abs ≤ x.abs := by
  have hle : ∀ u : UnpackedFloat, u = .infinity .positive ∨ u = .zero .positive ∨
      (∃ m e hpos, u = .finite .positive m e hpos) → (UnpackedFloat.zero .positive).le u := by
    rintro u (rfl | rfl | ⟨m, e, hpos, rfl⟩) <;> rfl
  change x.toModel.unpack.isNaN = false at hx
  change decide ((UnpackedFloat.zero .positive).le
    (unpack .binary64 (pack .binary64 x.toModel.unpack.abs)) = true) = true
  rw [decide_eq_true_eq]
  apply hle
  cases hux : x.toModel.unpack with
  | infinity s => exact .inl (@unpack_pack_of_not_finite (.infinity .positive) rfl)
  | notANumber =>
      rw [hux] at hx
      cases hx
  | zero s => exact .inr (.inl (@unpack_pack_zero .positive))
  | finite s m e hm =>
      change unpack .binary64 (pack .binary64 (.finite .positive m e hm)) = _ ∨ _
      have hsign : Sign.ofBitVec (unpackSign (pack .binary64 (.finite .positive m e hm))) =
          .positive := unpackSign_pack
      have hnan : (unpack .binary64 (pack .binary64 (.finite .positive m e hm))).isNaN = false :=
        not_nan_unpack_pack rfl
      rcases unpack_cases (pack .binary64 (.finite .positive m e hm)) with
        h | h | ⟨_, _, h⟩ | ⟨m', e', hpos, _, _, h⟩
      · rw [hsign] at h
        exact .inl h
      · rw [h] at hnan
        cases hnan
      · rw [hsign] at h
        exact .inr (.inl h)
      · rw [hsign] at h
        exact .inr (.inr ⟨m', e', hpos, h⟩)

/-- A number that is not beyond zero is zero. -/
theorem eq_zero_of_abs_le (hx : NotNegZero x) (hfinite : x.isFinite = true)
    (h : x.abs ≤ (0 : F64).abs) : x = 0 := by
  apply unpack_injective
  rcases unpack_of_finite hfinite with ⟨s, hux⟩ | ⟨s, m, e, hpos, hm, he, hux⟩
  · cases s with
    | negative => exact absurd hux hx
    | positive => exact hux
  · exfalso
    have hzero : ∃ t, x.abs.toModel.unpack = .zero t := by
      have hge := abs_zero_le_abs (isFinite_iff.mp hfinite).1
      rcases unpack_eq_or_zero_of_le_of_le h hge with heq | ⟨hzero, _⟩
      · exact ⟨.positive, heq⟩
      · exact hzero
    obtain ⟨t, ht⟩ := hzero
    change unpack .binary64 (pack .binary64 x.toModel.unpack.abs) = _ at ht
    rw [hux] at ht
    exact unpack_pack_ne_zero hm he ht

end Add

end F64

end CeQuery
