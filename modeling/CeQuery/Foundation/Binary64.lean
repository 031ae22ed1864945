import CeQuery.Foundation.Packing
import CeQuery.Foundation.Rounding

/-!
# Rounding to binary64, and integers

A quotient is rounded once, by the residual bits of its division
(`roundWithAccuracy_quotient`). So the conversion of an integer to a binary64 number
computes `nearest` of it (`isInteger_ofInt`), and numbers that are integers are compared
like these (`partialCmp_of_isInteger`).
-/

namespace CeQuery

namespace F64

open Float.Model (UnpackedFloat Format)
open Float.Model.UnpackedFloat (ExtendedMantissa Accuracy accuracyOfFraction)

/-! ## The residual bits -/

section Residual

variable {em : ExtendedMantissa} {m n r p : Nat} {acc : Accuracy}

theorem mantissa_shiftRight (em : ExtendedMantissa) (k : Nat) :
    (em >>> k).mantissa = em.mantissa / 2 ^ k := by
  induction k with
  | zero => exact (Nat.div_one _).symm
  | succ k ih =>
      change (em >>> k).mantissa / 2 = _
      rw [ih, Nat.div_div_eq_div_mul, Nat.pow_succ]

theorem mantissa_ofMantissaAndAccuracy :
    (ExtendedMantissa.ofMantissaAndAccuracy m acc).mantissa = m := by
  rcases acc with _ | (_ | _ | _) <;> rfl

/-- The bits behind the mantissa stand for the rest `r` of a division by `p`. -/
structure HasRest (em : ExtendedMantissa) (r p : Nat) : Prop where
  lt : r < p
  round : em.roundBit = decide (p ≤ 2 * r)
  sticky : em.stickyBit = decide (2 * r ≠ 0 ∧ 2 * r ≠ p)

/-- The mantissa `n / p`, with the residual bits of the rest. -/
def quotientMantissa (n p : Nat) : ExtendedMantissa :=
  .ofMantissaAndAccuracy (n / p) (accuracyOfFraction (n % p) p)

private theorem HasRest.quotient (hp : 0 < p) : HasRest (quotientMantissa n p) (n % p) p := by
  have hlt := Nat.mod_lt n hp
  rw [quotientMantissa, accuracyOfFraction]
  by_cases hzero : n % p = 0
  · rw [if_pos hzero, hzero]
    exact ⟨hp, (decide_eq_false (by omega)).symm, rfl⟩
  · rw [if_neg hzero]
    obtain hlow | htie | hhigh := Nat.lt_trichotomy (2 * (n % p)) p
    · rw [Nat.compare_eq_lt.mpr hlow]
      exact ⟨hlt, (decide_eq_false (by omega)).symm, (decide_eq_true (by omega)).symm⟩
    · rw [Nat.compare_eq_eq.mpr htie]
      exact ⟨hlt, (decide_eq_true (by omega)).symm, (decide_eq_false (by omega)).symm⟩
    · rw [Nat.compare_eq_gt.mpr hhigh]
      exact ⟨hlt, (decide_eq_true (by omega)).symm, (decide_eq_true (by omega)).symm⟩

private theorem HasRest.shiftRightOne (h : HasRest em r p) :
    HasRest em.shiftRightOne (r + p * (em.mantissa % 2)) (2 * p) := by
  obtain ⟨hlt, hround, hsticky⟩ := h
  obtain heven | hodd := Nat.mod_two_eq_zero_or_one em.mantissa
  · refine ⟨?_, ?_, ?_⟩
    · rw [heven]
      omega
    · rw [ExtendedMantissa.shiftRightOne, heven]
      exact (decide_eq_false (by omega)).symm
    · rw [ExtendedMantissa.shiftRightOne, hround, hsticky, heven, ← Bool.decide_or]
      apply decide_eq_decide.mpr
      omega
  · refine ⟨?_, ?_, ?_⟩
    · rw [hodd]
      omega
    · rw [ExtendedMantissa.shiftRightOne, hodd]
      exact (decide_eq_true (by omega)).symm
    · rw [ExtendedMantissa.shiftRightOne, hround, hsticky, hodd, ← Bool.decide_or]
      apply decide_eq_decide.mpr
      omega

private theorem mantissa_quotient (n p k : Nat) :
    (quotientMantissa n p >>> k).mantissa = n / (p * 2 ^ k) := by
  rw [mantissa_shiftRight, quotientMantissa, mantissa_ofMantissaAndAccuracy,
    Nat.div_div_eq_div_mul]

/-- Shifting a quotient divides it further, and keeps the rest in the residual bits. -/
private theorem HasRest.shiftRight (hp : 0 < p) (n k : Nat) :
    HasRest (quotientMantissa n p >>> k) (n % (p * 2 ^ k)) (p * 2 ^ k) := by
  induction k with
  | zero =>
      rw [Nat.pow_zero, Nat.mul_one]
      exact HasRest.quotient hp
  | succ k ih =>
      have hstep := ih.shiftRightOne
      rw [mantissa_quotient, ← Nat.mod_mul, Nat.mul_comm 2, Nat.mul_assoc, ← Nat.pow_succ] at hstep
      exact hstep

/-- The residual bits decide how the mantissa is rounded. -/
private theorem HasRest.roundedMantissa (h : HasRest em (n % p) p)
    (hmantissa : em.mantissa = n / p) : em.roundedMantissa = roundedDiv n p := by
  obtain ⟨hlt, hround, hsticky⟩ := h
  obtain ⟨m, round, sticky⟩ := em
  dsimp only at hmantissa hround hsticky
  subst hmantissa
  rw [roundedDiv]
  cases round <;> cases sticky
  case false.false =>
    have hhalf := of_decide_eq_false hround.symm
    rw [if_pos (Nat.lt_of_not_le hhalf)]
    rfl
  case false.true =>
    have hhalf := of_decide_eq_false hround.symm
    rw [if_pos (Nat.lt_of_not_le hhalf)]
    rfl
  case true.false =>
    have hhalf := of_decide_eq_true hround.symm
    have htie := of_decide_eq_false hsticky.symm
    rw [if_neg (Nat.not_lt.mpr hhalf), if_pos (by omega)]
    rfl
  case true.true =>
    have hhalf := of_decide_eq_true hround.symm
    have htie := of_decide_eq_true hsticky.symm
    rw [if_neg (Nat.not_lt.mpr hhalf), if_neg htie.2]
    rfl

end Residual

/-! ## Rounding -/

section Round

open Float.Model (totalExponent)
open Float.Model.UnpackedFloat (Sign shiftToExponent shiftToTargetExponent roundWithAccuracy)

variable {s : Sign} {acc : Accuracy} {k m n p : Nat} {e : Int}

theorem targetExponent_eq :
    Format.binary64.targetExponent (totalExponent m e) = max (m.log2 + e - 52) (-1074) := by
  have hbits : (Format.binary64.mantissaBits : Int) = 53 := by decide
  have hmin : Format.binary64.minExponent = -1074 := by decide
  rw [Format.targetExponent, totalExponent, hbits, hmin]
  omega

/-- A mantissa of more than 53 bits is cut to 53 bits. -/
private theorem shiftToTargetExponent_eq (he : -1074 ≤ e) :
    shiftToTargetExponent .binary64 m e acc =
      (ExtendedMantissa.ofMantissaAndAccuracy m acc >>> (m.log2 - 52),
        e + (m.log2 - 52 : Nat)) := by
  have hshift : (max ((m.log2 : Int) + e - 52) (-1074) - e).toNat = m.log2 - 52 := by omega
  rw [shiftToTargetExponent, shiftToExponent, targetExponent_eq, hshift]

/-- The number with a mantissa that may be zero. -/
def ofMantissa (s : Sign) (m : Nat) (e : Int) : UnpackedFloat :=
  if h : m = 0 then .zero s else .finite s m e (Nat.pos_of_ne_zero h)

/-- The mantissa that a quotient is rounded to. -/
def roundedQuotient (n p : Nat) : Nat :=
  roundedDiv n (p * spacing (n / p))

theorem roundedQuotient_le : roundedQuotient n p ≤ 2 ^ 53 := by
  have hquotient : n / p / spacing (n / p) < 2 ^ 53 := div_spacing_lt
  rw [Nat.div_div_eq_div_mul] at hquotient
  exact roundedDiv_le.trans hquotient

theorem le_roundedQuotient (hn : n / p ≠ 0) (hlog : 52 ≤ (n / p).log2) :
    2 ^ 52 ≤ roundedQuotient n p := by
  have hquotient := le_div_spacing hn hlog
  rw [Nat.div_div_eq_div_mul] at hquotient
  exact hquotient.trans div_le_roundedDiv

/-- A quotient with its rest is rounded to the nearest mantissa, and shifted again if the
rounding carried over. -/
theorem roundWithAccuracy_quotient (hp : 0 < p) (he : -1074 ≤ e) :
    roundWithAccuracy .binary64 s (n / p) e (accuracyOfFraction (n % p) p) =
      ofMantissa s (roundedQuotient n p / spacing (roundedQuotient n p))
        (e + ((n / p).log2 - 52 : Nat) + ((roundedQuotient n p).log2 - 52 : Nat)) := by
  have hrounded : (quotientMantissa n p >>> ((n / p).log2 - 52)).roundedMantissa =
      roundedQuotient n p :=
    (HasRest.shiftRight hp n _).roundedMantissa (mantissa_quotient n p _)
  rw [roundWithAccuracy, shiftToTargetExponent_eq he]
  dsimp only
  rw [← quotientMantissa, hrounded, shiftToTargetExponent_eq (by omega), spacing,
    ← @mantissa_ofMantissaAndAccuracy (roundedQuotient n p) .exact, ← mantissa_shiftRight,
    mantissa_ofMantissaAndAccuracy]
  rfl

/-- Shifting the rounded mantissa again loses nothing. -/
private theorem shift_carried {r : Nat} (hlower : 2 ^ 52 ≤ r) (hupper : r ≤ 2 ^ 53) :
    r.log2 - 52 ≤ 1 ∧ r / spacing r * spacing r = r := by
  have hlog : r.log2 < 54 := (Nat.log2_lt (by omega)).mpr (by omega)
  refine ⟨by omega, ?_⟩
  by_cases hsmall : r.log2 ≤ 52
  · rw [spacing_of_log2_le hsmall, Nat.div_one, Nat.mul_one]
  · have hr : r = 2 ^ 53 := by
      have hle : 2 ^ 53 ≤ r := (Nat.le_log2 (by omega)).mp (by omega)
      omega
    have hspacing : spacing (2 ^ 53) = 2 := by
      rw [spacing, Nat.log2_two_pow]
      rfl
    rw [hr, hspacing]
    rfl

/-- A quotient of at least 53 bits is rounded to 53 bits. -/
theorem roundWithAccuracy_eq_normal (hp : 0 < p) (hn : n / p ≠ 0) (hlog : 52 ≤ (n / p).log2)
    (he : -1074 ≤ e) :
    ∃ m e' hpos, roundWithAccuracy .binary64 s (n / p) e (accuracyOfFraction (n % p) p) =
        .finite s m e' hpos ∧
      2 ^ 52 ≤ m ∧ m < 2 ^ 53 ∧ e ≤ e' ∧ e' ≤ e + (n / p).log2 - 51 ∧
      m * 2 ^ (e' - e).toNat = roundedQuotient n p * spacing (n / p) := by
  have hlower := le_roundedQuotient hn hlog
  have hupper := @roundedQuotient_le n p
  rw [roundWithAccuracy_quotient hp he]
  generalize roundedQuotient n p = r at *
  obtain ⟨hcarry, hexact⟩ := shift_carried hlower hupper
  have hr : r ≠ 0 := by omega
  have hmantissa : 2 ^ 52 ≤ r / spacing r := le_div_spacing hr ((Nat.le_log2 hr).mpr hlower)
  rw [ofMantissa, dif_neg (by omega)]
  refine ⟨_, _, _, rfl, hmantissa, div_spacing_lt, by omega, by omega, ?_⟩
  have hexponent : (e + ((n / p).log2 - 52 : Nat) + (r.log2 - 52 : Nat) - e).toNat =
      (r.log2 - 52) + ((n / p).log2 - 52) := by omega
  conv_rhs => rw [← hexact]
  rw [hexponent, Nat.pow_add, ← Nat.mul_assoc, spacing, spacing]

/-- A positive integer is rounded to 53 bits, whatever its exponent. -/
private theorem round_natCast (hn : n ≠ 0) (hlog : 52 ≤ n.log2 + k) (hk : k ≤ 1074) :
    ∃ m e hpos, roundWithAccuracy .binary64 s (n * 2 ^ k) (-k) .exact = .finite s m e hpos ∧
      2 ^ 52 ≤ m ∧ m < 2 ^ 53 ∧ -52 ≤ e ∧ e ≤ n.log2 ∧
      m * 2 ^ (e + 52).toNat = nearestNat n * 2 ^ 52 := by
  have hlog' := log2_mul_two_pow (k := k) hn
  have hne : n * 2 ^ k ≠ 0 := Nat.mul_ne_zero hn (Nat.two_pow_pos k).ne'
  obtain ⟨m, e, hpos, heq, hlower, hupper, hge, hle, hvalue⟩ :=
    @roundWithAccuracy_eq_normal s (n * 2 ^ k) 1 (-k) Nat.one_pos (by rwa [Nat.div_one])
      (by rw [Nat.div_one]; omega) (by omega)
  rw [Nat.div_one, Nat.mod_one] at heq
  rw [Nat.div_one, hlog'] at hle
  rw [roundedQuotient, Nat.div_one, Nat.one_mul, ← nearestNat, nearestNat_mul_two_pow] at hvalue
  have hge' : -52 ≤ e := by
    have hlt : 2 ^ (n.log2 + k) < 2 ^ (53 + (e - -k).toNat) := by
      calc 2 ^ (n.log2 + k)
        _ ≤ nearestNat n * 2 ^ k := by
          rw [Nat.pow_add]
          exact Nat.mul_le_mul_right _ (le_nearestNat hn)
        _ = m * 2 ^ (e - -k).toNat := hvalue.symm
        _ < 2 ^ (53 + (e - -k).toNat) := by
          rw [Nat.pow_add]
          exact Nat.mul_lt_mul_of_pos_right hupper (Nat.two_pow_pos _)
    have hexponents := (Nat.pow_lt_pow_iff_right (by omega)).mp hlt
    omega
  refine ⟨m, e, hpos, heq, hlower, hupper, hge', by omega, ?_⟩
  apply Nat.eq_of_mul_eq_mul_right (Nat.two_pow_pos k)
  have hexponent : (e + 52).toNat + k = (e - -k).toNat + 52 := by omega
  calc m * 2 ^ (e + 52).toNat * 2 ^ k
    _ = m * 2 ^ (e - -k).toNat * 2 ^ 52 := by
      rw [Nat.mul_assoc, ← Nat.pow_add, hexponent, Nat.pow_add, ← Nat.mul_assoc]
    _ = nearestNat n * 2 ^ 52 * 2 ^ k := by rw [hvalue, Nat.mul_right_comm]

end Round

/-! ## Packing -/

section Pack

open Float.Model.UnpackedFloat (Sign pack packComponents unpack unpackSign unpackExponent
  unpackMantissa)

variable {s : Sign} {m : Nat} {e : Int}

/-- A number with an exponent in the range is unpacked from its components. -/
private theorem unpack_packComponents {exponent : BitVec Format.binary64.exponentBits}
    {mantissa : BitVec Format.binary64.mantissaBitsWithoutImplicit} (hones : exponent ≠ -1#_)
    (hzeros : exponent ≠ 0#_) :
    ∃ hpos, unpack .binary64 (packComponents .binary64 s exponent mantissa) =
      .finite s (1#1 ++ mantissa).toNat
        (exponent.toNat - ((Format.binary64.exponentBias : Nat) + (52 : Nat))) hpos := by
  have hexponent : unpackExponent (packComponents .binary64 s exponent mantissa) = exponent :=
    UnpackedFloat.unpackExponent_packComponents
  have hmantissa : unpackMantissa (packComponents .binary64 s exponent mantissa) = mantissa :=
    UnpackedFloat.unpackMantissa_packComponents
  have hsign : Sign.ofBitVec (unpackSign (packComponents .binary64 s exponent mantissa)) = s :=
    unpackSign_packComponents
  generalize packComponents .binary64 s exponent mantissa = packed at *
  subst hexponent hmantissa hsign
  unfold UnpackedFloat.unpack
  dsimp only
  rw [if_neg hones, if_neg hzeros]
  have hpos : 0 < (1#1 ++ unpackMantissa packed).toNat := by
    rw [toNat_implicit]
    omega
  exact ⟨hpos, rfl⟩

/-- A number with a mantissa of 53 bits is packed without loss. -/
theorem unpack_pack {hpos : 0 < m} (hlower : 2 ^ 52 ≤ m) (hupper : m < 2 ^ 53)
    (hge : -1074 ≤ e) (hle : e ≤ 971) :
    (Float.ofModel (Float.Model.pack (.finite s m e hpos))).toModel.unpack =
      .finite s m e hpos := by
  have hexponent : (BitVec.ofNat Format.binary64.exponentBits (e + 1075).toNat).toNat =
      (e + 1075).toNat := by
    rw [BitVec.toNat_ofNat]
    apply Nat.mod_eq_of_lt
    change (e + 1075).toNat < 2 ^ 11
    omega
  have hones : BitVec.ofNat Format.binary64.exponentBits (e + 1075).toNat ≠ -1#_ := by
    intro h
    have hval := congrArg BitVec.toNat h
    have hall : (-1#11).toNat = 2047 := by decide
    rw [hexponent, hall] at hval
    omega
  have hzeros : BitVec.ofNat Format.binary64.exponentBits (e + 1075).toNat ≠ 0#_ := by
    intro h
    have hval := congrArg BitVec.toNat h
    rw [hexponent, BitVec.toNat_zero] at hval
    omega
  have hmantissa : (1#1 ++ BitVec.ofNat 52 m).toNat = m := by
    rw [toNat_implicit, BitVec.toNat_ofNat]
    omega
  obtain ⟨hpos', hunpack⟩ : ∃ hpos, unpack .binary64 (packComponents .binary64 s
      (BitVec.ofNat _ (e + 1075).toNat) (BitVec.ofNat _ m)) = .finite s _ _ hpos :=
    unpack_packComponents hones hzeros
  change UnpackedFloat.unpack .binary64 (UnpackedFloat.pack .binary64 _) = _
  have hbias : Format.binary64.exponentBias = 1023 := by decide
  have hunbiased : ((BitVec.ofNat Format.binary64.exponentBits (e + 1075).toNat).toNat : Int) -
      ((Format.binary64.exponentBias : Nat) + (52 : Nat)) = e := by omega
  rw [pack_normal hlower hupper (by omega), hunpack]
  exact finite_congr hmantissa hunbiased

/-- A shorter mantissa with the least exponent is packed without loss. -/
theorem unpack_pack_subnormal {hpos : 0 < m} (hupper : m < 2 ^ 52) :
    unpack .binary64 (pack .binary64 (.finite s m (-1074) hpos)) = .finite s m (-1074) hpos := by
  have hbias : Format.binary64.exponentBias = 1023 := by decide
  have hvalue : (BitVec.ofNat Format.binary64.mantissaBitsWithoutImplicit m).toNat = m := by
    rw [BitVec.toNat_ofNat]
    exact Nat.mod_eq_of_lt hupper
  rw [pack_subnormal hupper]
  generalize BitVec.ofNat Format.binary64.mantissaBitsWithoutImplicit m = mantissa at hvalue ⊢
  have hexponent : unpackExponent (packComponents .binary64 s 0#_ mantissa) = 0#_ :=
    UnpackedFloat.unpackExponent_packComponents
  have hmantissa : unpackMantissa (packComponents .binary64 s 0#_ mantissa) = mantissa :=
    UnpackedFloat.unpackMantissa_packComponents
  have hsign : Sign.ofBitVec (unpackSign (packComponents .binary64 s 0#_ mantissa)) = s :=
    unpackSign_packComponents
  generalize packComponents .binary64 s 0#_ mantissa = packed at *
  subst hmantissa hsign
  have hne : unpackMantissa packed ≠ 0#_ := by
    intro hzero
    rw [hzero, BitVec.toNat_zero] at hvalue
    omega
  unfold UnpackedFloat.unpack
  dsimp only
  rw [hexponent, if_neg (by decide), if_pos rfl, dif_neg hne]
  refine finite_congr hvalue ?_
  rw [BitVec.toNat_zero]
  omega

private theorem isFinite_packComponents {exponent : BitVec Format.binary64.exponentBits}
    {mantissa : BitVec Format.binary64.mantissaBitsWithoutImplicit} (hones : exponent ≠ -1#_) :
    (unpack .binary64 (packComponents .binary64 s exponent mantissa)).isFinite = true := by
  have hexponent : unpackExponent (packComponents .binary64 s exponent mantissa) = exponent :=
    UnpackedFloat.unpackExponent_packComponents
  generalize packComponents .binary64 s exponent mantissa = packed at *
  subst hexponent
  unfold UnpackedFloat.unpack
  dsimp only
  rw [if_neg hones]
  by_cases hsmall : unpackExponent packed = 0#_
  · rw [if_pos hsmall]
    by_cases hzero : unpackMantissa packed = 0#_
    · rw [dif_pos hzero]
      rfl
    · rw [dif_neg hzero]
      rfl
  · rw [if_neg hsmall]
    rfl

/-- A number is packed as an infinity exactly if its exponent is too large. -/
theorem isFinite_pack_iff {hpos : 0 < m} :
    (unpack .binary64 (pack .binary64 (.finite s m e hpos))).isFinite = true ↔ e ≤ 971 := by
  have hbias : Format.binary64.exponentBias = 1023 := by decide
  have hbiased : (e + (Format.binary64.exponentBias : Nat) + (52 : Nat)).toNat =
      (e + 1075).toNat := by omega
  unfold UnpackedFloat.pack
  dsimp only
  rw [hbiased]
  by_cases hrange : 2 ^ 11 ≤ (e + 1075).toNat + 1
  · rw [if_pos hrange]
    refine iff_of_false ?_ (by omega)
    cases s <;> exact Bool.false_ne_true
  · rw [if_neg hrange]
    refine iff_of_true ?_ (by omega)
    split
    · refine isFinite_packComponents fun h => ?_
      have hval := congrArg BitVec.toNat h
      have hall : (-1#11).toNat = 2047 := by decide
      rw [BitVec.toNat_ofNat, hall, Nat.mod_eq_of_lt (a := (e + 1075).toNat)] at hval
      · omega
      · exact Nat.lt_of_succ_lt (Nat.lt_of_not_le hrange)
    · exact isFinite_packComponents (by decide)

end Pack

/-! ## Integers -/

section Integer

open Float.Model.UnpackedFloat (Sign roundWithAccuracy)

/-- A number with a mantissa of 53 bits that is a multiple of `2 ^ -52`, or zero. -/
def IsNormal : UnpackedFloat → Prop
  | .zero _ => True
  | .finite _ m e _ => 2 ^ 52 ≤ m ∧ m < 2 ^ 53 ∧ -52 ≤ e
  | _ => False

/-- How many times `2 ^ -52` the number is. -/
def scaled : UnpackedFloat → Int
  | .finite s m e _ => s.apply (m * 2 ^ (e + 52).toNat : Nat)
  | _ => 0

/-- How many times `2 ^ -1074` a finite number is. -/
def units : UnpackedFloat → Int
  | .finite s m e _ => s.apply (m * 2 ^ (e + 1074).toNat : Nat)
  | _ => 0

/-- The number is the integer `k`. -/
def IsInteger (k : Int) (u : UnpackedFloat) : Prop :=
  IsNormal u ∧ scaled u = k * 2 ^ 52

/-- The exact value of the number is the integer `k`. -/
def HasValue (u : UnpackedFloat) (k : Int) : Prop :=
  match u with
  | .zero _ => k = 0
  | .finite s m e _ => k * 2 ^ (-e).toNat = s.apply (m * 2 ^ e.toNat : Nat)
  | _ => False

/-- A number that is an integer has this value only. -/
theorem IsInteger.hasValue_iff {u : UnpackedFloat} {a k : Int} (h : IsInteger a u) :
    HasValue u k ↔ k = a := by
  obtain ⟨hnormal, hscaled⟩ := h
  cases u with
  | infinity s => exact hnormal.elim
  | notANumber => exact hnormal.elim
  | zero s =>
      have hzero : a = 0 := by
        have hscaled : (0 : Int) = a * 2 ^ 52 := hscaled
        omega
      rw [hzero]
      exact Iff.rfl
  | finite s m e hm =>
      have hge : -52 ≤ e := hnormal.2.2
      have hpos : (0 : Int) < 2 ^ (-e).toNat := Int.pow_pos (by omega)
      have hnat : m * 2 ^ (e + 52).toNat * 2 ^ (-e).toNat = m * 2 ^ e.toNat * 2 ^ 52 := by
        rw [Nat.mul_assoc, ← Nat.pow_add, Nat.mul_assoc, ← Nat.pow_add]
        congr 2
        omega
      have hcast : ((m * 2 ^ (e + 52).toNat : Nat) : Int) * 2 ^ (-e).toNat =
          (m * 2 ^ e.toNat : Nat) * 2 ^ 52 := by
        exact_mod_cast hnat
      have hscaled : s.apply (m * 2 ^ (e + 52).toNat : Nat) = a * 2 ^ 52 := hscaled
      have hvalue : s.apply (m * 2 ^ e.toNat : Nat) * 2 ^ 52 = a * 2 ^ (-e).toNat * 2 ^ 52 := by
        rw [Int.mul_right_comm, ← hscaled]
        cases s with
        | positive => exact hcast.symm
        | negative =>
            rw [Sign.apply, Sign.apply, Int.neg_mul, Int.neg_mul, hcast]
      have hmagnitude := Int.eq_of_mul_eq_mul_right (by decide) hvalue
      change k * 2 ^ (-e).toNat = s.apply (m * 2 ^ e.toNat : Nat) ↔ k = a
      rw [hmagnitude]
      exact ⟨fun heq => Int.eq_of_mul_eq_mul_right hpos.ne' heq, fun heq => by rw [heq]⟩

theorem IsInteger.neg {x : F64} {a : Int} (h : IsInteger a x.toModel.unpack) :
    IsInteger (-a) (-x).toModel.unpack := by
  obtain ⟨hnormal, hscaled⟩ := h
  rw [unpack_neg]
  cases hx : x.toModel.unpack with
  | infinity s =>
      rw [hx] at hnormal
      exact hnormal.elim
  | notANumber =>
      rw [hx] at hnormal
      exact hnormal.elim
  | zero s =>
      rw [hx] at hscaled
      refine ⟨trivial, ?_⟩
      rw [Int.neg_mul, ← hscaled]
      rfl
  | finite s m e hm =>
      rw [hx] at hnormal hscaled
      refine ⟨hnormal, ?_⟩
      rw [Int.neg_mul, ← hscaled]
      cases s with
      | positive => rfl
      | negative => exact (Int.neg_neg _).symm

theorem isFinite_neg (x : F64) : (-x).isFinite = x.isFinite := by
  change (-x).toModel.unpack.isFinite = x.toModel.unpack.isFinite
  rw [unpack_neg]
  cases x.toModel.unpack <;> rfl

/-- A positive integer with enough bits is rounded to `nearestNat` of it. -/
theorem isInteger_round {s : Sign} {k n : Nat} (hn : n ≠ 0) (hlt : n < 2 ^ 128)
    (hlog : 52 ≤ n.log2 + k) (hk : k ≤ 1074) :
    IsInteger (s.apply (nearestNat n)) (Float.ofModel (Float.Model.pack
      (roundWithAccuracy .binary64 s (n * 2 ^ k) (-k) .exact))).toModel.unpack := by
  obtain ⟨m, e, hpos, heq, hlower, hupper, hge, hle, hvalue⟩ := round_natCast (s := s) hn hlog hk
  have hbits : n.log2 < 128 := (Nat.log2_lt hn).mpr hlt
  rw [heq, unpack_pack hlower hupper (by omega) (by omega)]
  refine ⟨⟨hlower, hupper, hge⟩, ?_⟩
  change s.apply (m * 2 ^ (e + 52).toNat : Nat) = _
  rw [hvalue]
  cases s <;> simp [Sign.apply]

/-- The conversion of an integer rounds it. -/
theorem isInteger_ofInt {n : Int} (hn : n.natAbs < 2 ^ 128) :
    IsInteger (nearest n) (Float.ofModel (Float.Model.ofInt n)).toModel.unpack := by
  have hround : ∀ s : Sign, ∀ k : Nat, k ≠ 0 → k < 2 ^ 128 →
      IsInteger (s.apply (nearestNat k)) (Float.ofModel (Float.Model.pack
        (UnpackedFloat.round .binary64 s k 0))).toModel.unpack := by
    intro s k hk hlt
    have hbits : k.log2 < 128 := (Nat.log2_lt hk).mpr hlt
    have hshift : (0 - max ((k.log2 : Int) + 0 - 52) (-1074)).toNat = 52 - k.log2 := by omega
    rw [UnpackedFloat.round, UnpackedFloat.decreaseExponent, targetExponent_eq, hshift,
      Nat.shiftLeft_eq, Int.zero_sub]
    exact isInteger_round hk hlt (by omega) (by omega)
  change IsInteger _ (Float.ofModel (Float.Model.pack
    (UnpackedFloat.ofInt .binary64 n))).toModel.unpack
  rw [UnpackedFloat.ofInt, UnpackedFloat.normalize]
  cases hcmp : compare n 0 with
  | lt =>
      have hneg : n < 0 := Int.compare_eq_lt.mp hcmp
      have hnearest : nearest n = Sign.negative.apply (nearestNat (-n).toNat) := by
        have hn : n = -((-n).toNat : Int) := by omega
        conv_lhs => rw [hn, nearest_neg, nearest_natCast]
        rfl
      rw [hnearest]
      exact hround .negative _ (by omega) (by omega)
  | eq =>
      have hzero : n = 0 := Int.compare_eq_eq.mp hcmp
      subst hzero
      exact ⟨trivial, rfl⟩
  | gt =>
      have hpos : 0 < n := Int.compare_eq_gt.mp hcmp
      have hnearest : nearest n = Sign.positive.apply (nearestNat n.toNat) := by
        have hn : n = (n.toNat : Int) := by omega
        conv_lhs => rw [hn, nearest_natCast]
        rfl
      rw [hnearest]
      exact hround .positive _ (by omega) (by omega)

/-- Numbers with mantissas of 53 bits are ordered by their exponents first. -/
private theorem compare_scaled {m n a b : Nat} (hm : 2 ^ 52 ≤ m) (hm' : m < 2 ^ 53)
    (hn : 2 ^ 52 ≤ n) (hn' : n < 2 ^ 53) :
    (compare a b).then (compare m n) = compare (m * 2 ^ a) (n * 2 ^ b) := by
  have hlt : ∀ {m n a b : Nat}, m < 2 ^ 53 → 2 ^ 52 ≤ n → a < b → m * 2 ^ a < n * 2 ^ b := by
    intro m n a b hm hn hab
    calc m * 2 ^ a
      _ < 2 ^ 53 * 2 ^ a := Nat.mul_lt_mul_of_pos_right hm (Nat.two_pow_pos a)
      _ = 2 ^ 52 * 2 ^ (a + 1) := by rw [← Nat.pow_add, ← Nat.pow_add]; congr 1; omega
      _ ≤ n * 2 ^ b := Nat.mul_le_mul hn (Nat.pow_le_pow_right (by omega) hab)
  obtain hab | rfl | hab := Nat.lt_trichotomy a b
  · rw [Nat.compare_eq_lt.mpr hab, Nat.compare_eq_lt.mpr (hlt hm' hn hab)]
    rfl
  · rw [Nat.compare_eq_eq.mpr rfl, Ordering.eq_then]
    have hpos := Nat.two_pow_pos a
    obtain hmn | rfl | hmn := Nat.lt_trichotomy m n
    · rw [Nat.compare_eq_lt.mpr hmn,
        Nat.compare_eq_lt.mpr (Nat.mul_lt_mul_of_pos_right hmn hpos)]
    · rw [Nat.compare_eq_eq.mpr rfl, Nat.compare_eq_eq.mpr rfl]
    · rw [Nat.compare_eq_gt.mpr hmn,
        Nat.compare_eq_gt.mpr (Nat.mul_lt_mul_of_pos_right hmn hpos)]
  · rw [Nat.compare_eq_gt.mpr hab, Nat.compare_eq_gt.mpr (hlt hn' hm hab)]
    rfl

private theorem compare_finite {m n : Nat} {e f : Int} (hm : 2 ^ 52 ≤ m) (hm' : m < 2 ^ 53)
    (hn : 2 ^ 52 ≤ n) (hn' : n < 2 ^ 53) (he : -52 ≤ e) (hf : -52 ≤ f) :
    (compare e f).then (compare m n) =
      compare ((m * 2 ^ (e + 52).toNat : Nat) : Int) (n * 2 ^ (f + 52).toNat : Nat) := by
  have hexponents : compare e f = compare (e + 52).toNat (f + 52).toNat := by
    simp only [compare, compareOfLessAndEq]
    grind
  rw [hexponents, compare_scaled hm hm' hn hn']
  simp only [compare, compareOfLessAndEq]
  grind

private theorem compare_negated (a b : Int) : compare (-a) (-b) = (compare a b).swap := by
  simp only [compare, compareOfLessAndEq]
  grind [Ordering.swap]

private theorem compare_scaled_of_normal {u v : UnpackedFloat} (hu : IsNormal u)
    (hv : IsNormal v) : u.compare v = some (compare (scaled u) (scaled v)) := by
  have hpos : ∀ {m : Nat} {e : Int}, 2 ^ 52 ≤ m → 0 < ((m * 2 ^ (e + 52).toNat : Nat) : Int) := by
    intro m e hm
    exact Int.natCast_pos.mpr (Nat.mul_pos (by omega) (Nat.two_pow_pos _))
  cases u with
  | infinity s => exact hu.elim
  | notANumber => exact hu.elim
  | zero s =>
      cases v with
      | infinity s => exact hv.elim
      | notANumber => exact hv.elim
      | zero t => rfl
      | finite t n f hn =>
          have hn := hpos (e := f) hv.1
          cases t with
          | positive => exact congrArg some (Int.compare_eq_lt.mpr hn).symm
          | negative => exact congrArg some (Int.compare_eq_gt.mpr (Int.neg_neg_of_pos hn)).symm
  | finite s m e hm =>
      obtain ⟨hmlower, hmupper, he⟩ := hu
      have hm := hpos (e := e) hmlower
      cases v with
      | infinity s => exact hv.elim
      | notANumber => exact hv.elim
      | zero t =>
          cases s with
          | positive => exact congrArg some (Int.compare_eq_gt.mpr hm).symm
          | negative => exact congrArg some (Int.compare_eq_lt.mpr (Int.neg_neg_of_pos hm)).symm
      | finite t n f hn =>
          obtain ⟨hnlower, hnupper, hf⟩ := hv
          have hn := hpos (e := f) hnlower
          have hmagnitude := compare_finite hmlower hmupper hnlower hnupper he hf
          cases s <;> cases t
          case positive.positive => exact congrArg some hmagnitude
          case positive.negative =>
            exact congrArg some
              (Int.compare_eq_gt.mpr (Int.lt_trans (Int.neg_neg_of_pos hn) hm)).symm
          case negative.positive =>
            exact congrArg some
              (Int.compare_eq_lt.mpr (Int.lt_trans (Int.neg_neg_of_pos hm) hn)).symm
          case negative.negative =>
            refine congrArg some ((congrArg Ordering.swap hmagnitude).trans ?_)
            exact (compare_negated _ _).symm

/-- Numbers that are integers are compared like these. -/
theorem compare_of_isInteger {u v : UnpackedFloat} {a b : Int} (hu : IsInteger a u)
    (hv : IsInteger b v) : u.compare v = some (compare a b) := by
  rw [compare_scaled_of_normal hu.1 hv.1, hu.2, hv.2]
  simp only [compare, compareOfLessAndEq]
  grind

theorem le_iff_of_isInteger {x y : F64} {a b : Int} (hx : IsInteger a x.toModel.unpack)
    (hy : IsInteger b y.toModel.unpack) : x ≤ y ↔ a ≤ b := by
  change decide (x.toModel.unpack.le y.toModel.unpack = true) = true ↔ _
  rw [decide_eq_true_iff, UnpackedFloat.le, compare_of_isInteger hx hy]
  exact Int.isLE_compare

theorem partialCmp_of_isInteger {x y : F64} {a b : Int} (hx : IsInteger a x.toModel.unpack)
    (hy : IsInteger b y.toModel.unpack) : partialCmp x y = some (compare a b) := by
  rw [partialCmp]
  simp only [le_iff_of_isInteger hx hy, le_iff_of_isInteger hy hx]
  obtain hlt | rfl | hgt := lt_trichotomy a b
  · rw [Int.compare_eq_lt.mpr hlt, decide_eq_true hlt.le, decide_eq_false hlt.not_ge]
  · rw [Int.compare_eq_eq.mpr rfl, decide_eq_true (Int.le_refl a)]
  · rw [Int.compare_eq_gt.mpr hgt, decide_eq_true hgt.le, decide_eq_false hgt.not_ge]

theorem isFinite_of_isInteger {x : F64} {a : Int} (h : IsInteger a x.toModel.unpack) :
    x.isFinite = true := by
  change x.toModel.unpack.isFinite = true
  cases hx : x.toModel.unpack with
  | infinity s =>
      rw [hx] at h
      exact h.1.elim
  | notANumber =>
      rw [hx] at h
      exact h.1.elim
  | zero s => rfl
  | finite s m e hm => rfl

end Integer

end F64

end CeQuery
