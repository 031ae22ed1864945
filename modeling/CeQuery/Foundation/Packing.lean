import CeQuery.Foundation.FloatOrder
import Mathlib.Algebra.Order.Ring.Int

/-!
# Packing what was unpacked

A binary64 number is determined by its unpacked form: packing gives it back
(`pack_unpack`). So two numbers that are equal in the order of the numbers are the
same number, unless both are zeros (`eq_or_isZero_of_le_of_le`).
-/

namespace CeQuery

namespace F64

open Float.Model (UnpackedFloat Format)
open Float.Model.UnpackedFloat (Sign pack packComponents unpack unpackSign unpackExponent
  unpackMantissa)

private theorem toBitVec_ofBitVec (b : BitVec 1) : (Sign.ofBitVec b).toBitVec = b := by
  rw [Sign.ofBitVec]
  split
  · rename_i hzero
    rw [hzero]
    rfl
  · rename_i hone
    have hone : b = 1#1 := by
      apply BitVec.eq_of_toNat_eq
      have hne : b.toNat ≠ 0 := fun h => hone (BitVec.eq_of_toNat_eq h)
      have hlt := b.isLt
      change b.toNat = 1
      omega
    rw [hone]
    rfl

/-- The components of a packed number. -/
private theorem packComponents_unpacked {spec : Format} (b : BitVec spec.numBits) :
    packComponents spec (Sign.ofBitVec (unpackSign b)) (unpackExponent b) (unpackMantissa b) =
      b := by
  unfold UnpackedFloat.unpackSign UnpackedFloat.unpackExponent UnpackedFloat.unpackMantissa
    UnpackedFloat.packComponents
  rw [toBitVec_ofBitVec]
  apply BitVec.eq_of_getLsbD_eq
  intro i hi
  have hm := spec.hm
  have he := spec.he
  simp only [BitVec.getLsbD_append, BitVec.getLsbD_cast, BitVec.getLsbD_extractLsb]
  -- the bit lies in the mantissa, in the exponent, or is the sign
  by_cases hmantissa : i < spec.mantissaBitsWithoutImplicit
  · have hwithin : i < spec.mantissaBitsWithoutImplicit - 1 + 1 := by omega
    simp [hmantissa, hwithin]
  · by_cases hexponent : i - spec.mantissaBitsWithoutImplicit < spec.exponentBits
    · have hwithin : i - spec.mantissaBitsWithoutImplicit < spec.mantissaBitsWithoutImplicit +
          spec.exponentBits - 1 - spec.mantissaBitsWithoutImplicit + 1 := by omega
      have hpos :
          spec.mantissaBitsWithoutImplicit + (i - spec.mantissaBitsWithoutImplicit) = i := by
        omega
      simp [hmantissa, hexponent, hwithin, hpos]
    · have hsign : spec.mantissaBitsWithoutImplicit + spec.exponentBits = i := by omega
      have hzero : i - spec.mantissaBitsWithoutImplicit - spec.exponentBits = 0 := by omega
      simp [hmantissa, hexponent, hzero, hsign]

section Pack

variable {s : Sign} {m : Nat} {e : Int}

theorem unpackSign_packComponents {spec : Format} {exponent : BitVec spec.exponentBits}
    {mantissa : BitVec spec.mantissaBitsWithoutImplicit} :
    Sign.ofBitVec (unpackSign (packComponents spec s exponent mantissa)) = s := by
  have hsign : unpackSign (packComponents spec s exponent mantissa) = s.toBitVec := by
    apply BitVec.eq_of_getLsbD_eq
    intro i hi
    have hi : i = 0 := by omega
    subst hi
    unfold UnpackedFloat.unpackSign UnpackedFloat.packComponents
    simp [BitVec.getLsbD_append, BitVec.getElem_append]
  rw [hsign]
  cases s <;> rfl

/-- The mantissa with its implicit bit. -/
theorem toNat_implicit (mantissa : BitVec 52) :
    (1#1 ++ mantissa).toNat = 2 ^ 52 + mantissa.toNat := by
  rw [BitVec.toNat_append, ← Nat.shiftLeft_add_eq_or_of_lt mantissa.isLt, Nat.shiftLeft_eq]
  rfl

/-- A mantissa of 53 bits loses its implicit bit. -/
theorem pack_normal {hpos : 0 < m} (hlower : 2 ^ 52 ≤ m) (hupper : m < 2 ^ 53) (he : e ≤ 971) :
    pack .binary64 (.finite s m e hpos) =
      packComponents .binary64 s (BitVec.ofNat _ (e + 1075).toNat) (BitVec.ofNat _ m) := by
  have hlog : m.log2 + 1 = Format.binary64.mantissaBits := by
    have hlog : m.log2 = 52 := (Nat.log2_eq_iff (Nat.ne_of_gt hpos)).mpr ⟨hlower, hupper⟩
    rw [hlog]
    rfl
  have hbiased : (e + (Format.binary64.exponentBias : Nat) + (52 : Nat)).toNat =
      (e + 1075).toNat := by
    have hbias : Format.binary64.exponentBias = 1023 := by decide
    omega
  have hrange : ¬2 ^ 11 ≤ (e + 1075).toNat + 1 := by omega
  unfold UnpackedFloat.pack
  dsimp only
  rw [hbiased, if_neg hrange, if_pos hlog]

/-- A shorter mantissa is stored with the exponent zero. -/
theorem pack_subnormal {hpos : 0 < m} (hupper : m < 2 ^ 52) :
    pack .binary64 (.finite s m (-1074) hpos) =
      packComponents .binary64 s 0#_ (BitVec.ofNat _ m) := by
  have hlog : ¬m.log2 + 1 = Format.binary64.mantissaBits := by
    have hlog : m.log2 < 52 := (Nat.log2_lt (Nat.ne_of_gt hpos)).mpr hupper
    change ¬m.log2 + 1 = 53
    omega
  have hbiased : (-1074 + (Format.binary64.exponentBias : Nat) + (52 : Nat) : Int).toNat = 1 := by
    have hbias : Format.binary64.exponentBias = 1023 := by decide
    omega
  unfold UnpackedFloat.pack
  dsimp only
  rw [hbiased, if_neg (by decide), if_neg hlog]

private theorem pack_congr {m' : Nat} {e' : Int} {hpos : 0 < m} (hm : m = m') (he : e = e') :
    pack .binary64 (.finite s m e hpos) = pack .binary64 (.finite s m' e' (hm ▸ hpos)) := by
  subst hm he
  rfl

end Pack

private theorem pack_unpack_bits {b : BitVec Format.binary64.numBits}
    (hvalid : Format.binary64.Valid b) : pack .binary64 (unpack .binary64 b) = b := by
  have hwhole := packComponents_unpacked b
  have hbias : Format.binary64.exponentBias = 1023 := by decide
  have hexponent := (unpackExponent b).isLt
  have hmantissa := (unpackMantissa b).isLt
  unfold UnpackedFloat.unpack
  dsimp only
  by_cases hones : unpackExponent b = -1#_
  · rw [if_pos hones]
    by_cases hzero : unpackMantissa b = 0#_
    · rw [if_pos hzero]
      rw [hones, hzero] at hwhole
      exact hwhole
    · rw [if_neg hzero]
      exact (hvalid.eq_packedNaN hones hzero).symm
  · rw [if_neg hones]
    by_cases hsmall : unpackExponent b = 0#_
    · rw [if_pos hsmall]
      by_cases hzero : unpackMantissa b = 0#_
      · rw [dif_pos hzero]
        rw [hsmall, hzero] at hwhole
        exact hwhole
      · rw [dif_neg hzero, hsmall]
        have he : ((0#_ : BitVec Format.binary64.exponentBits).toNat : Int) -
            ((Format.binary64.exponentBias : Nat) + (52 : Nat)) + 1 = -1074 := by
          rw [BitVec.toNat_zero]
          omega
        rw [pack_congr rfl he, pack_subnormal hmantissa, BitVec.ofNat_toNat, BitVec.setWidth_eq,
          ← hsmall]
        exact hwhole
    · rw [if_neg hsmall]
      have hones : (unpackExponent b).toNat ≠ 2047 := fun h =>
        hones (BitVec.eq_of_toNat_eq (h.trans (by decide)))
      have hbound : (unpackExponent b).toNat < 2 ^ 11 := hexponent
      have he : ((unpackExponent b).toNat : Int) -
          ((Format.binary64.exponentBias : Nat) + (52 : Nat)) =
            (unpackExponent b).toNat - 1075 := by omega
      have hback : (((unpackExponent b).toNat : Int) - 1075 + 1075).toNat =
          (unpackExponent b).toNat := by omega
      have hmantissa : (unpackMantissa b).toNat < 2 ^ 52 := hmantissa
      have hlow : BitVec.ofNat Format.binary64.mantissaBitsWithoutImplicit
          (2 ^ 52 + (unpackMantissa b).toNat) = unpackMantissa b := by
        apply BitVec.eq_of_toNat_eq
        have hmod : (2 ^ 52 + (unpackMantissa b).toNat) % 2 ^ 52 = (unpackMantissa b).toNat := by
          rw [Nat.add_mod_left, Nat.mod_eq_of_lt hmantissa]
        exact (BitVec.toNat_ofNat _ _).trans hmod
      rw [pack_congr (toNat_implicit _) he, pack_normal (by omega) (by omega) (by omega), hback,
        hlow, BitVec.ofNat_toNat, BitVec.setWidth_eq]
      exact hwhole

private theorem model_ext {x y : Float.Model} (h : x.toBits = y.toBits) : x = y := by
  cases x
  cases y
  cases h
  rfl

/-- Packing an unpacked number gives the number back. -/
theorem pack_unpack (x : F64) : Float.ofModel (Float.Model.pack x.toModel.unpack) = x :=
  congrArg Float.ofModel (model_ext (congrArg UInt64.ofBitVec (pack_unpack_bits x.toModel.valid)))

theorem unpack_injective {x y : F64} (h : x.toModel.unpack = y.toModel.unpack) : x = y := by
  rw [← pack_unpack x, h, pack_unpack]

/-! ## Negation -/

private theorem unpack_eq_neg {b b' : BitVec Format.binary64.numBits}
    (hexponent : unpackExponent b = unpackExponent b')
    (hmantissa : unpackMantissa b = unpackMantissa b')
    (hsign : Sign.ofBitVec (unpackSign b) = -Sign.ofBitVec (unpackSign b')) :
    unpack .binary64 b = (unpack .binary64 b').neg := by
  unfold UnpackedFloat.unpack
  dsimp only
  rw [hexponent, hsign]
  by_cases hones : unpackExponent b' = -1#_
  · rw [if_pos hones, if_pos hones, hmantissa]
    by_cases hzero : unpackMantissa b' = 0#_
    · rw [if_pos hzero, if_pos hzero]
      rfl
    · rw [if_neg hzero, if_neg hzero]
      rfl
  · rw [if_neg hones, if_neg hones]
    by_cases hsmall : unpackExponent b' = 0#_
    · rw [if_pos hsmall, if_pos hsmall]
      by_cases hzero : unpackMantissa b' = 0#_
      · rw [dif_pos hzero, dif_pos (hmantissa.trans hzero)]
        rfl
      · rw [dif_neg hzero, dif_neg (fun h => hzero (hmantissa.symm.trans h))]
        exact finite_congr (congrArg BitVec.toNat hmantissa) rfl
    · rw [if_neg hsmall, if_neg hsmall]
      exact finite_congr (congrArg (fun m => (1#1 ++ m).toNat) hmantissa) rfl

private theorem unpack_packComponents_neg {s : Sign}
    {exponent : BitVec Format.binary64.exponentBits}
    {mantissa : BitVec Format.binary64.mantissaBitsWithoutImplicit} :
    unpack .binary64 (packComponents .binary64 (-s) exponent mantissa) =
      (unpack .binary64 (packComponents .binary64 s exponent mantissa)).neg := by
  apply unpack_eq_neg
  · rw [UnpackedFloat.unpackExponent_packComponents, UnpackedFloat.unpackExponent_packComponents]
  · rw [UnpackedFloat.unpackMantissa_packComponents, UnpackedFloat.unpackMantissa_packComponents]
  · rw [unpackSign_packComponents, unpackSign_packComponents]

private theorem unpack_pack_neg (u : UnpackedFloat) :
    unpack .binary64 (pack .binary64 u.neg) = (unpack .binary64 (pack .binary64 u)).neg := by
  cases u with
  | notANumber => rfl
  | infinity s => exact unpack_packComponents_neg
  | zero s => exact unpack_packComponents_neg
  | finite s m e hm =>
      change unpack .binary64 (pack .binary64 (.finite (-s) m e hm)) = _
      unfold UnpackedFloat.pack
      dsimp only
      split
      · exact unpack_packComponents_neg
      · split
        · exact unpack_packComponents_neg
        · exact unpack_packComponents_neg

/-- Negation changes the sign of the unpacked number. -/
theorem unpack_neg (x : F64) : (-x).toModel.unpack = x.toModel.unpack.neg := by
  have hpacked : (-x).toModel.unpack =
      unpack .binary64 (pack .binary64 x.toModel.unpack.neg) := rfl
  rw [hpacked, unpack_pack_neg]
  exact congrArg (fun b => (unpack .binary64 b).neg) (pack_unpack_bits x.toModel.valid)

/-- A zero of either sign. -/
def IsZero (x : F64) : Prop :=
  ∃ s, x.toModel.unpack = .zero s

theorem eq_or_isZero_of_le_of_le {x y : F64} (hxy : x ≤ y) (hyx : y ≤ x) :
    x = y ∨ x.IsZero ∧ y.IsZero :=
  (unpack_eq_or_zero_of_le_of_le hxy hyx).imp_left unpack_injective

end F64

end CeQuery
