import CeQuery.Foundation.Addition
import CeQuery.Foundation.Text

/-!
# Decimal numerals as binary64 numbers

A numeral is a fraction of two natural numbers, which is rounded once (`Numeral.Reads`).
If it is an integer, the number read from it is that integer rounded to 53 bits
(`isInteger_toFloat`), and if it is a binary64 number, it is read as this number
(`Equals.toFloat`). What is read is finite exactly if the fraction is below the middle
between the greatest finite number and the next power of two (`isFinite_toFloat_iff`).
-/

namespace CeQuery

open Float.Model (UnpackedFloat Format totalExponent)
open Float.Model.UnpackedFloat (Sign accuracyOfFraction divCore roundWithAccuracy)

namespace F64

/-- The middle between the greatest finite number and the next power of two, from which on
numbers are rounded to an infinity. -/
def overflowThreshold : Nat :=
  (2 ^ 54 - 1) * 2 ^ 970

variable {a b k t x : Nat} {s : Sign}

theorem two_pow_mono (h : a ≤ b) : 2 ^ a ≤ 2 ^ b :=
  Nat.pow_le_pow_right (by decide) h

theorem le_overflowThreshold (h : t ≤ 970) : 2 ^ t ≤ overflowThreshold := by
  rw [overflowThreshold]
  exact (two_pow_mono h).trans (Nat.le_mul_of_pos_left _ (by decide))

private theorem pred_mul_two_pow_le : (2 ^ a - 1) * 2 ^ b ≤ 2 ^ (a + b) := by
  rw [Nat.pow_add]
  exact Nat.mul_le_mul_right _ (Nat.sub_le _ 1)

theorem overflowThreshold_le (h : 54 + 970 ≤ t) : overflowThreshold ≤ 2 ^ t :=
  pred_mul_two_pow_le.trans (two_pow_mono h)

private theorem mul_two_pow_add : x * 2 ^ (t + k) = x * 2 ^ t * 2 ^ k := by
  rw [Nat.pow_add, Nat.mul_assoc]

theorem overflowThreshold_pos : 0 < overflowThreshold :=
  Nat.lt_of_lt_of_le Nat.one_pos (le_overflowThreshold (t := 0) (by decide))

/-- A quotient is rounded to a power of two exactly if it is above the middle between
that power and the greatest number with 53 bits before it. -/
theorem two_pow_le_roundedQuotient_iff (hb : 0 < b) (hquotient : a / b ≠ 0)
    (hlog : 52 ≤ (a / b).log2) (hx : 54 ≤ x) :
    2 ^ x ≤ roundedQuotient a b * spacing (a / b) ↔ (2 ^ 54 - 1) * 2 ^ (x - 54) * b ≤ a := by
  have hpos : 0 < spacing (a / b) := spacing_pos
  have hbelow : a < 2 ^ ((a / b).log2 + 1) * b :=
    (Nat.div_lt_iff_lt_mul hb).mp Nat.lt_log2_self
  have habove : 2 ^ (a / b).log2 * b ≤ a :=
    (Nat.le_div_iff_mul_le hb).mp (Nat.log2_self_le hquotient)
  obtain ⟨t, rfl⟩ : ∃ t, x = t + 54 := ⟨x - 54, by omega⟩
  have hhalf : 2 ^ (t + 53) ≤ (2 ^ 54 - 1) * 2 ^ t := by
    rw [Nat.pow_add, Nat.mul_comm]
    exact Nat.mul_le_mul_right _ (by decide)
  have hwhole : (2 ^ 54 - 1) * 2 ^ t ≤ 2 ^ (t + 54) := by
    rw [Nat.pow_add, Nat.mul_comm]
    exact Nat.mul_le_mul_left _ (by decide)
  rw [Nat.add_sub_cancel]
  obtain hlt | heq | hgt := Nat.lt_trichotomy ((a / b).log2 + 1) (t + 54)
  · -- the quotient is below half of the power
    refine iff_of_false (Nat.not_le.mpr ?_) (Nat.not_le.mpr ?_)
    · calc roundedQuotient a b * spacing (a / b)
        _ ≤ 2 ^ 53 * spacing (a / b) := Nat.mul_le_mul_right _ roundedQuotient_le
        _ = 2 ^ ((a / b).log2 + 1) := by
          rw [spacing, ← Nat.pow_add]
          congr 1
          omega
        _ < 2 ^ (t + 54) := Nat.pow_lt_pow_right (by decide) hlt
    · calc a
        _ < 2 ^ ((a / b).log2 + 1) * b := hbelow
        _ ≤ 2 ^ (t + 53) * b :=
          Nat.mul_le_mul_right _ (Nat.pow_le_pow_right (by decide) (by omega))
        _ ≤ (2 ^ 54 - 1) * 2 ^ t * b := Nat.mul_le_mul_right _ hhalf
  · -- the quotient has the greatest exponent below the power
    have hspacing : spacing (a / b) = 2 ^ (t + 1) := by
      rw [spacing]
      congr 1
      omega
    have hbound : a / b / spacing (a / b) < 2 ^ 53 := div_spacing_lt
    rw [Nat.div_div_eq_div_mul] at hbound
    have hpower : 2 ^ (t + 54) = 2 ^ 53 * 2 ^ (t + 1) := by
      rw [← Nat.pow_add]
      congr 1
      omega
    have hmiddle : (2 * (2 ^ 53 - 1) + 1) * (b * 2 ^ (t + 1)) =
        2 * ((2 ^ 54 - 1) * 2 ^ t * b) := by
      have hodd : 2 * (2 ^ 53 - 1) + 1 = 2 ^ 54 - 1 := by decide
      have hdouble : 2 ^ (t + 1) = 2 ^ t * 2 := by rw [Nat.pow_add, Nat.pow_one]
      rw [hodd, hdouble]
      ac_rfl
    have hrounded := succ_le_roundedDiv_iff (c := 2 ^ 53 - 1) (n := a)
      (Nat.mul_pos hb hpos) (by decide) (Nat.le_of_lt_succ hbound)
    rw [hspacing, hmiddle] at hrounded
    rw [roundedQuotient, hpower, hspacing, Nat.mul_le_mul_right_iff (Nat.two_pow_pos _)]
    exact hrounded.trans (Nat.mul_le_mul_left_iff (by decide))
  · -- the quotient is not below the power
    refine iff_of_true ?_ ?_
    · calc 2 ^ (t + 54)
        _ ≤ 2 ^ (a / b).log2 := Nat.pow_le_pow_right (by decide) (by omega)
        _ = 2 ^ 52 * spacing (a / b) := by
          rw [spacing, ← Nat.pow_add]
          congr 1
          omega
        _ ≤ roundedQuotient a b * spacing (a / b) :=
          Nat.mul_le_mul_right _ (le_roundedQuotient hquotient hlog)
    · calc (2 ^ 54 - 1) * 2 ^ t * b
        _ ≤ 2 ^ (t + 54) * b := Nat.mul_le_mul_right _ hwhole
        _ ≤ 2 ^ (a / b).log2 * b :=
          Nat.mul_le_mul_right _ (Nat.pow_le_pow_right (by decide) (by omega))
        _ ≤ a := habove

/-- A quotient is computed with at least 53 bits, or down to the least exponent. -/
theorem exists_divCore (ha : 0 < a) (hb : 0 < b) :
    ∃ k : Nat, k ≤ 1074 ∧ divCore .binary64 a 0 b 0 =
        (a * 2 ^ k / b, -(k : Int), accuracyOfFraction (a * 2 ^ k % b) b) ∧
      (a * 2 ^ k / b < 2 ^ 52 → k = 1074) := by
  have htarget : min ((0 : Int) - 0) (Format.binary64.targetExponent
      (totalExponent a 0 - totalExponent b 0)) =
        -((min 0 (max ((a.log2 : Int) - b.log2 - 53) (-1074))).natAbs : Int) := by
    have hbits : (Format.binary64.mantissaBits : Int) = 53 := by decide
    have hmin : Format.binary64.minExponent = -1074 := by decide
    rw [Format.targetExponent, totalExponent, totalExponent, hmin, hbits]
    omega
  generalize hk : (min 0 (max ((a.log2 : Int) - b.log2 - 53) (-1074))).natAbs = k at htarget
  have hshift : ((0 : Int) - 0 - -k).toNat = k := by omega
  refine ⟨k, by omega, ?_, fun hlt => ?_⟩
  · rw [divCore, htarget, hshift, Nat.shiftLeft_eq]
  · by_contra hne
    have hpower : 2 ^ (b.log2 + 53) ≤ a * 2 ^ k := by
      calc 2 ^ (b.log2 + 53)
        _ ≤ 2 ^ (a.log2 + k) := Nat.pow_le_pow_right (by decide) (by omega)
        _ = 2 ^ a.log2 * 2 ^ k := Nat.pow_add ..
        _ ≤ a * 2 ^ k := Nat.mul_le_mul_right _ (Nat.log2_self_le ha.ne')
    have hbelow : a * 2 ^ k < 2 ^ 52 * b := (Nat.div_lt_iff_lt_mul hb).mp hlt
    have hb' : 2 ^ 52 * b ≤ 2 ^ 52 * 2 ^ (b.log2 + 1) :=
      Nat.mul_le_mul_left _ Nat.lt_log2_self.le
    rw [← Nat.pow_add] at hb'
    have hexponent : 52 + (b.log2 + 1) = b.log2 + 53 := by omega
    rw [hexponent] at hb'
    omega

open Float.Model.UnpackedFloat (pack unpack) in
/-- A quotient with enough bits is finite exactly if it is below the middle between the
greatest finite number and the next power of two. -/
theorem isFinite_pack_iff_of_normal (hb : 0 < b) (hk : k ≤ 1074) (hlower : 2 ^ 52 ≤ a * 2 ^ k / b) :
    (unpack .binary64 (pack .binary64 (roundWithAccuracy .binary64 s (a * 2 ^ k / b) (-k)
      (accuracyOfFraction (a * 2 ^ k % b) b)))).isFinite = true ↔
        ¬overflowThreshold * b ≤ a := by
  have hquotient : a * 2 ^ k / b ≠ 0 := by omega
  have hlog : 52 ≤ (a * 2 ^ k / b).log2 := (Nat.le_log2 hquotient).mpr hlower
  obtain ⟨m, e, hpos, hround, hmlower, hmupper, hge, hle, hvalue⟩ :=
    @roundWithAccuracy_eq_normal s (a * 2 ^ k) b (-k) hb hquotient hlog (by omega)
  have hmiddle := two_pow_le_roundedQuotient_iff (x := 1024 + k) hb hquotient hlog (by omega)
  have hmiddle' : (2 ^ 54 - 1) * 2 ^ (1024 + k - 54) * b ≤ a * 2 ^ k ↔
      overflowThreshold * b ≤ a := by
    have hexponent : 1024 + k - 54 = 970 + k := by omega
    have hscaled : (2 ^ 54 - 1) * 2 ^ (970 + k) = overflowThreshold * 2 ^ k := mul_two_pow_add
    rw [hexponent, hscaled, Nat.mul_right_comm]
    exact Nat.mul_le_mul_right_iff (Nat.two_pow_pos k)
  rw [hround, isFinite_pack_iff, ← hmiddle', ← hmiddle, ← hvalue, Nat.not_le]
  refine ⟨fun hsmall => ?_, fun hlt => ?_⟩
  · calc m * 2 ^ (e - -k).toNat
      _ < 2 ^ 53 * 2 ^ (e - -k).toNat := Nat.mul_lt_mul_of_pos_right hmupper (Nat.two_pow_pos _)
      _ = 2 ^ (53 + (e - -k).toNat) := (Nat.pow_add ..).symm
      _ ≤ 2 ^ (1024 + k) := Nat.pow_le_pow_right (by decide) (by omega)
  · have hle : 2 ^ (52 + (e - -k).toNat) < 2 ^ (1024 + k) := by
      rw [Nat.pow_add]
      exact (Nat.mul_le_mul_right _ hmlower).trans_lt hlt
    have hexponents := (Nat.pow_lt_pow_iff_right (by decide)).mp hle
    omega

open Float.Model.UnpackedFloat (pack unpack) in
/-- What is rounded from the least exponent is finite. -/
theorem isFinite_pack_of_subnormal (hb : 0 < b) (hlt : a / b < 2 ^ 52) :
    (unpack .binary64 (pack .binary64 (roundWithAccuracy .binary64 s (a / b) (-1074)
      (accuracyOfFraction (a % b) b)))).isFinite = true := by
  have hlog : (roundedQuotient a b).log2 ≤ 53 := by
    by_cases hzero : roundedQuotient a b = 0
    · rw [hzero]
      decide
    · have hupper := @roundedQuotient_le a b
      exact Nat.le_of_lt_succ ((Nat.log2_lt hzero).mpr (by omega))
  have hlog' : (a / b).log2 ≤ 52 := by
    by_cases hzero : a / b = 0
    · rw [hzero]
      decide
    · exact ((Nat.log2_lt hzero).mpr hlt).le
  rw [roundWithAccuracy_quotient hb (by decide), ofMantissa]
  by_cases hzero : roundedQuotient a b / spacing (roundedQuotient a b) = 0
  · rw [dif_pos hzero]
    cases s <;> rfl
  · rw [dif_neg hzero, isFinite_pack_iff]
    omega

theorem roundedQuotient_mul (hb : 0 < b) :
    roundedQuotient (a * b) b * spacing a = nearestNat a := by
  rw [roundedQuotient, Nat.mul_div_cancel a hb, Nat.mul_comm b, roundedDiv_mul_right hb, nearestNat]

/-- The finite numbers are the multiples of `2 ^ -1074` with at most 53 bits, up to the
greatest exponent. -/
theorem exists_units {x : F64} (hx : x.isFinite = true) :
    ∃ (t : Sign) (m e : Nat), m < 2 ^ 53 ∧ e ≤ 2045 ∧
      units x.toModel.unpack = t.apply (m * 2 ^ e : Nat) := by
  have hpacked : (UnpackedFloat.unpack .binary64
      (UnpackedFloat.pack .binary64 x.toModel.unpack)).isFinite = true :=
    (congrArg (fun y : F64 => y.isFinite) (pack_unpack x)).trans hx
  change (UnpackedFloat.unpack .binary64 x.toModel.toBits.toBitVec).isFinite = true at hx
  change (UnpackedFloat.unpack .binary64 (UnpackedFloat.pack .binary64
    (UnpackedFloat.unpack .binary64 x.toModel.toBits.toBitVec))).isFinite = true at hpacked
  change ∃ (t : Sign) (m e : Nat), m < 2 ^ 53 ∧ e ≤ 2045 ∧
    units (UnpackedFloat.unpack .binary64 x.toModel.toBits.toBitVec) = t.apply (m * 2 ^ e : Nat)
  rcases unpack_cases x.toModel.toBits.toBitVec with h | h | ⟨_, _, h⟩ | ⟨m, e, hpos, hm, he, h⟩
  · rw [h] at hx
    cases hx
  · rw [h] at hx
    cases hx
  · rw [h]
    exact ⟨.positive, 0, 0, by decide, by decide, rfl⟩
  · rw [h] at hpacked ⊢
    have hupper : e ≤ 971 := isFinite_pack_iff.mp hpacked
    exact ⟨_, m, (e + 1074).toNat, hm, by omega, rfl⟩

section Exact

variable {d e m : Nat}

/-- Every finite number is below the threshold. -/
theorem lt_overflowThreshold (hm : m < 2 ^ 53) (he : e ≤ d + 971) :
    m * 2 ^ e < overflowThreshold * 2 ^ d := by
  have hscaled : overflowThreshold * 2 ^ d = (2 ^ 54 - 1) * 2 ^ (970 + d) := mul_two_pow_add.symm
  rw [hscaled]
  calc m * 2 ^ e
    _ ≤ m * 2 ^ (970 + d + 1) := Nat.mul_le_mul_left _ (two_pow_mono (by omega))
    _ = 2 * m * 2 ^ (970 + d) := by
      rw [Nat.pow_succ, Nat.mul_comm _ 2, ← Nat.mul_assoc, Nat.mul_comm m]
    _ < (2 ^ 54 - 1) * 2 ^ (970 + d) :=
      Nat.mul_lt_mul_of_pos_right (by omega) (Nat.two_pow_pos _)

/-- A quotient that is a binary64 number is not rounded. Numbers are counted in
multiples of `2 ^ -d`. -/
theorem units_pack_of_exact (hb : 0 < b) (ha : 0 < a) (hd : d = 1074) (hk : k ≤ d)
    (hfew : a * 2 ^ k / b < 2 ^ 52 → k = d) (hm : m < 2 ^ 53) (he : e ≤ d + 971)
    (h : a * 2 ^ d = m * 2 ^ e * b) :
    (UnpackedFloat.unpack .binary64 (UnpackedFloat.pack .binary64
      (roundWithAccuracy .binary64 s (a * 2 ^ k / b) (-k)
        (accuracyOfFraction (a * 2 ^ k % b) b)))).isFinite = true ∧
    units (UnpackedFloat.unpack .binary64 (UnpackedFloat.pack .binary64
      (roundWithAccuracy .binary64 s (a * 2 ^ k / b) (-k)
        (accuracyOfFraction (a * 2 ^ k % b) b)))) = s.apply (m * 2 ^ e : Nat) := by
  obtain ⟨j, rfl⟩ : ∃ j, d = k + j := ⟨d - k, by omega⟩
  rw [Nat.pow_add, ← Nat.mul_assoc] at h
  have hpos : 0 < 2 ^ k := Nat.two_pow_pos k
  have hje : j ≤ e := by
    by_contra hlt
    obtain ⟨t, rfl⟩ : ∃ t, j = t + 1 + e := ⟨j - e - 1, by omega⟩
    have hlower : 2 ^ 52 * b ≤ a * 2 ^ k := by
      rw [← Nat.le_div_iff_mul_le hb]
      by_contra hfew'
      have := hfew (Nat.lt_of_not_le hfew')
      omega
    have hcancel : a * 2 ^ k * 2 ^ (t + 1) = m * b := by
      apply Nat.eq_of_mul_eq_mul_right (Nat.two_pow_pos e)
      rw [Nat.mul_assoc, ← Nat.pow_add, h, Nat.mul_right_comm]
    have hdouble : a * 2 ^ k * 2 ≤ a * 2 ^ k * 2 ^ (t + 1) :=
      Nat.mul_le_mul_left _ (two_pow_mono (a := 1) (by omega))
    have hupper : m * b < 2 ^ 53 * b := Nat.mul_lt_mul_of_pos_right hm hb
    omega
  obtain ⟨t, rfl⟩ : ∃ t, e = t + j := ⟨e - j, by omega⟩
  have hexact : a * 2 ^ k = m * 2 ^ t * b := by
    apply Nat.eq_of_mul_eq_mul_right (Nat.two_pow_pos j)
    rw [h, Nat.pow_add, ← Nat.mul_assoc, Nat.mul_right_comm]
  have hquotient : a * 2 ^ k / b = m * 2 ^ t := by rw [hexact, Nat.mul_div_cancel _ hb]
  have hne : m * 2 ^ t ≠ 0 := by
    intro hzero
    rw [hzero, Nat.zero_mul] at hexact
    exact absurd hexact (Nat.mul_pos ha hpos).ne'
  by_cases hlt : a * 2 ^ k / b < 2 ^ 52
  · -- the quotient is the mantissa for the least exponent
    have hj : j = 0 := by
      have := hfew hlt
      omega
    subst hj
    rw [hquotient] at hlt
    have hlog : (m * 2 ^ t).log2 ≤ 52 := ((Nat.log2_lt hne).mpr hlt).le
    have hmantissa : roundedQuotient (a * 2 ^ k) b = m * 2 ^ t := by
      have hone := roundedDiv_mul_right (n := m * 2 ^ t) (p := 1) hb
      rw [roundedDiv_one, Nat.one_mul] at hone
      rw [roundedQuotient, hquotient, spacing_of_log2_le hlog, Nat.mul_one, hexact, hone]
    have hexponent : (-k : Int) + ((m * 2 ^ t).log2 - 52 : Nat) + ((m * 2 ^ t).log2 - 52 : Nat) =
        -1074 := by omega
    rw [roundWithAccuracy_quotient hb (by omega), hmantissa, hquotient, hexponent,
      spacing_of_log2_le hlog, Nat.div_one, ofMantissa, dif_neg hne, unpack_pack_subnormal hlt]
    exact ⟨rfl, congrArg (fun u : Nat => s.apply u) (Nat.mul_one _)⟩
  · -- the quotient is rounded to 53 bits, which it has
    have hlower : 2 ^ 52 ≤ a * 2 ^ k / b := Nat.le_of_not_lt hlt
    have hlog : 52 ≤ (a * 2 ^ k / b).log2 := (Nat.le_log2 (by omega)).mpr hlower
    obtain ⟨m', e', hpos', hround, hmlower, hmupper, hge, _, hvalue⟩ :=
      @roundWithAccuracy_eq_normal s (a * 2 ^ k) b (-k) hb (by omega) hlog (by omega)
    have hrounded : m' * 2 ^ (e' - -k).toNat = m * 2 ^ t := by
      have hm0 : m ≠ 0 := left_ne_zero_of_mul hne
      have hlog' : m.log2 ≤ 52 := Nat.le_of_lt_succ ((Nat.log2_lt hm0).mpr hm)
      rw [hquotient, hexact, roundedQuotient_mul hb, nearestNat_mul_two_pow, nearestNat,
        spacing_of_log2_le hlog', roundedDiv_one, Nat.mul_one] at hvalue
      exact hvalue
    have hrange : (e' - -k).toNat ≤ t := by
      have hlt : 2 ^ (52 + (e' - -k).toNat) < 2 ^ (53 + t) := by
        rw [Nat.pow_add, Nat.pow_add]
        calc 2 ^ 52 * 2 ^ (e' - -k).toNat
          _ ≤ m' * 2 ^ (e' - -k).toNat := Nat.mul_le_mul_right _ hmlower
          _ = m * 2 ^ t := hrounded
          _ < 2 ^ 53 * 2 ^ t := Nat.mul_lt_mul_of_pos_right hm (Nat.two_pow_pos t)
      have hexponents := (Nat.pow_lt_pow_iff_right (by decide)).mp hlt
      omega
    have hleast : -1074 ≤ e' := by omega
    have hgreatest : e' ≤ 971 := by omega
    have hunpack : UnpackedFloat.unpack .binary64 (UnpackedFloat.pack .binary64
        (.finite s m' e' hpos')) = .finite s m' e' hpos' :=
      unpack_pack hmlower hmupper hleast hgreatest
    rw [hround, hunpack]
    refine ⟨rfl, ?_⟩
    have hexponent : (e' + 1074).toNat = (e' - -k).toNat + j := by omega
    change s.apply (m' * 2 ^ (e' + 1074).toNat : Nat) = _
    rw [hexponent, Nat.pow_add, ← Nat.mul_assoc, hrounded, Nat.mul_assoc, ← Nat.pow_add]

end Exact

end F64

namespace Decimal

namespace Numeral

def numerator (n : Numeral) : Nat :=
  n.mantissa * 10 ^ n.exponent.toNat

def denominator (n : Numeral) : Nat :=
  10 ^ (-n.exponent).toNat

/-- The numeral is the natural number `k`. -/
def Denotes (n : Numeral) (k : Nat) : Prop :=
  n.numerator = k * n.denominator

/-- The numeral is exactly the finite number `x`. -/
def Equals (n : Numeral) (x : F64) : Prop :=
  x.isFinite = true ∧
    ((n.numerator * 2 ^ 1074 : Nat) : Int) = F64.units x.toModel.unpack * n.denominator

/-- The numeral is at or above the middle between the greatest finite number and the next
power of two. -/
def Overflows (n : Numeral) : Prop :=
  F64.overflowThreshold * n.denominator ≤ n.numerator

variable {n : Numeral} {k : Nat}

theorem denominator_pos : 0 < n.denominator :=
  Nat.pow_pos (by decide)

/-- The rounding of `numerator / denominator` that starts with `k` bits behind the point. -/
def rounded (n : Numeral) (k : Nat) : UnpackedFloat :=
  roundWithAccuracy .binary64 .positive (n.numerator * 2 ^ k / n.denominator) (-k)
    (accuracyOfFraction (n.numerator * 2 ^ k % n.denominator) n.denominator)

/-- How a numeral is read. What is far out of the range is not computed, and everything
else is rounded once, from enough bits or from the least possible exponent. -/
inductive Reads (n : Numeral) : UnpackedFloat → Prop where
  | zero (small : n.numerator * 2 ^ 1074 < n.denominator) : Reads n (.zero .positive)
  | infinity (large : n.Overflows) : Reads n (.infinity .positive)
  | rounded {k : Nat} (pos : 0 < n.numerator) (bits : k ≤ 1074)
      (few : n.numerator * 2 ^ k / n.denominator < 2 ^ 52 → k = 1074) : Reads n (n.rounded k)

private theorem reads_integer (hm : n.mantissa ≠ 0) (hexponent : 0 ≤ n.exponent)
    (hupper : n.exponent ≤ 2 ^ 11) :
    Reads n (.ofScientific .binary64 n.mantissa n.exponent) := by
  have hnumerator : 0 < n.numerator :=
    Nat.mul_pos (Nat.pos_of_ne_zero hm) (Nat.pow_pos (by decide))
  have hdenominator : n.denominator = 1 := by
    rw [denominator, Int.toNat_of_nonpos (by omega), Nat.pow_zero]
  have hread : UnpackedFloat.ofScientific .binary64 n.mantissa n.exponent = n.rounded 53 := by
    have hlower : ¬n.exponent < -((2 ^ 11 : Int) + n.mantissa.log2) := by omega
    rw [UnpackedFloat.ofScientific, dif_neg hm, if_neg (Int.not_lt.mpr hupper), if_neg hlower,
      if_pos hexponent, rounded, hdenominator, Nat.div_one, Nat.mod_one, numerator,
      Nat.mul_right_comm, ← Nat.shiftLeft_eq]
    rfl
  rw [hread]
  refine .rounded hnumerator (by decide) fun hlt => ?_
  rw [hdenominator, Nat.div_one] at hlt
  omega

private theorem reads_fraction (hm : n.mantissa ≠ 0) (hexponent : ¬0 ≤ n.exponent)
    (hlower : -((2 ^ 11 : Int) + n.mantissa.log2) ≤ n.exponent) :
    Reads n (.ofScientific .binary64 n.mantissa n.exponent) := by
  have hnumerator : n.numerator = n.mantissa := by
    rw [numerator, Int.toNat_of_nonpos (by omega), Nat.pow_zero, Nat.mul_one]
  obtain ⟨k, hk, hcore, hfew⟩ := F64.exists_divCore (Nat.pos_of_ne_zero hm) n.denominator_pos
  have hread : UnpackedFloat.ofScientific .binary64 n.mantissa n.exponent = n.rounded k := by
    have hupper : ¬n.exponent > 2 ^ 11 := by omega
    rw [UnpackedFloat.ofScientific, dif_neg hm, if_neg hupper, if_neg (Int.not_lt.mpr hlower),
      if_neg hexponent, rounded, hnumerator]
    change roundWithAccuracy .binary64 .positive
      (divCore .binary64 n.mantissa 0 n.denominator 0).1
      (divCore .binary64 n.mantissa 0 n.denominator 0).2.1
      (divCore .binary64 n.mantissa 0 n.denominator 0).2.2 = _
    rw [hcore]
  rw [hread]
  refine .rounded ?_ hk ?_
  · rw [hnumerator]
    exact Nat.pos_of_ne_zero hm
  · rw [hnumerator]
    exact hfew

theorem reads (n : Numeral) : Reads n (.ofScientific .binary64 n.mantissa n.exponent) := by
  have hten : ∀ k : Nat, 2 ^ k ≤ 10 ^ k := fun k => Nat.pow_le_pow_left (by decide) k
  by_cases hm : n.mantissa = 0
  · rw [UnpackedFloat.ofScientific, dif_pos hm]
    refine .zero ?_
    rw [numerator, hm, Nat.zero_mul, Nat.zero_mul]
    exact n.denominator_pos
  · by_cases hupper : n.exponent > 2 ^ 11
    · rw [UnpackedFloat.ofScientific, dif_neg hm, if_pos hupper]
      refine .infinity ?_
      calc F64.overflowThreshold * n.denominator
        _ = F64.overflowThreshold := by
          rw [denominator, Int.toNat_of_nonpos (by omega), Nat.pow_zero, Nat.mul_one]
        _ ≤ 2 ^ n.exponent.toNat := F64.overflowThreshold_le (by omega)
        _ ≤ 10 ^ n.exponent.toNat := hten _
        _ ≤ n.numerator := Nat.le_mul_of_pos_left _ (Nat.pos_of_ne_zero hm)
    · by_cases hlower : n.exponent < -((2 ^ 11 : Int) + n.mantissa.log2)
      · rw [UnpackedFloat.ofScientific, dif_neg hm, if_neg hupper, if_pos hlower]
        have hscaled : ∀ k, n.mantissa * 2 ^ k < 2 ^ (n.mantissa.log2 + 1 + k) := by
          intro k
          rw [Nat.pow_add]
          exact Nat.mul_lt_mul_of_pos_right Nat.lt_log2_self (Nat.two_pow_pos k)
        refine .zero ?_
        calc n.numerator * 2 ^ 1074
          _ = n.mantissa * 2 ^ 1074 := by
            rw [numerator, Int.toNat_of_nonpos (by omega), Nat.pow_zero, Nat.mul_one]
          _ < 2 ^ (n.mantissa.log2 + 1 + 1074) := hscaled 1074
          _ ≤ 2 ^ (-n.exponent).toNat := F64.two_pow_mono (by omega)
          _ ≤ n.denominator := hten _
      · by_cases hexponent : 0 ≤ n.exponent
        · exact reads_integer hm hexponent (by omega)
        · exact reads_fraction hm hexponent (by omega)

private theorem unpack_toFloat (n : Numeral) : n.toFloat.toModel.unpack =
    UnpackedFloat.unpack .binary64 (UnpackedFloat.pack .binary64
      (.ofScientific .binary64 n.mantissa n.exponent)) :=
  rfl

theorem numerator_lt_of_small (h : n.numerator * 2 ^ 1074 < n.denominator) :
    n.numerator < n.denominator :=
  Nat.lt_of_le_of_lt (Nat.le_mul_of_pos_right _ (Nat.two_pow_pos _)) h

/-- An integer is read as the integer rounded to 53 bits. -/
theorem isInteger_toFloat (h : n.Denotes k) (hk : k < 2 ^ 128) :
    F64.IsInteger (nearestNat k : Nat) n.toFloat.toModel.unpack := by
  rw [unpack_toFloat]
  have hread := n.reads
  generalize UnpackedFloat.ofScientific .binary64 n.mantissa n.exponent = u at hread ⊢
  cases hread with
  | zero small =>
      have small := numerator_lt_of_small small
      rw [h] at small
      have hzero : k = 0 := by
        by_contra hne
        exact absurd small (Nat.not_lt.mpr (Nat.le_mul_of_pos_left _ (Nat.pos_of_ne_zero hne)))
      rw [hzero]
      exact ⟨trivial, rfl⟩
  | infinity large =>
      rw [Overflows, h] at large
      have hlarge := Nat.le_of_mul_le_mul_right large n.denominator_pos
      have hpower := F64.le_overflowThreshold (t := 128) (by decide)
      exact absurd hk (Nat.not_lt.mpr (hpower.trans hlarge))
  | @rounded j pos bits few =>
      have hne : k ≠ 0 := by
        rintro rfl
        rw [h, Nat.zero_mul] at pos
        exact absurd pos (Nat.lt_irrefl 0)
      have hnumerator : n.numerator * 2 ^ j = k * 2 ^ j * n.denominator := by
        rw [h, Nat.mul_right_comm]
      have hquotient : n.numerator * 2 ^ j / n.denominator = k * 2 ^ j := by
        rw [hnumerator, Nat.mul_div_cancel _ n.denominator_pos]
      have hrounded :
          n.rounded j = roundWithAccuracy .binary64 .positive (k * 2 ^ j) (-j) .exact := by
        rw [rounded, hquotient, hnumerator, Nat.mul_mod_left]
        rfl
      have hlog : 52 ≤ k.log2 + j := by
        rw [hquotient] at few
        by_contra hlt
        have hsmall : k * 2 ^ j < 2 ^ 52 := by
          rw [← Nat.log2_lt (Nat.mul_ne_zero hne (Nat.two_pow_pos j).ne'), log2_mul_two_pow hne]
          omega
        have hj := few hsmall
        omega
      rw [hrounded]
      exact F64.isInteger_round hne hk hlog bits

/-- A numeral is read as a finite number exactly if it does not overflow. -/
theorem isFinite_toFloat_iff : n.toFloat.isFinite = true ↔ ¬n.Overflows := by
  change n.toFloat.toModel.unpack.isFinite = true ↔ _
  rw [unpack_toFloat]
  have hread := n.reads
  generalize UnpackedFloat.ofScientific .binary64 n.mantissa n.exponent = u at hread ⊢
  have hpos := n.denominator_pos
  cases hread with
  | zero small =>
      refine iff_of_true rfl fun hover => ?_
      have hle := Nat.le_mul_of_pos_left n.denominator F64.overflowThreshold_pos
      exact absurd (numerator_lt_of_small small) (Nat.not_lt.mpr (hle.trans hover))
  | infinity large => exact iff_of_false Bool.false_ne_true (not_not.mpr large)
  | @rounded j pos bits few =>
      by_cases hlt : n.numerator * 2 ^ j / n.denominator < 2 ^ 52
      · have hj := few hlt
        subst hj
        refine iff_of_true (F64.isFinite_pack_of_subnormal hpos hlt) fun hover => ?_
        have hle := (Nat.le_mul_of_pos_left n.denominator F64.overflowThreshold_pos).trans hover
        rw [Nat.div_lt_iff_lt_mul hpos] at hlt
        have hpower : 2 ^ 52 ≤ 2 ^ 1074 := F64.two_pow_mono (by decide)
        have hproduct := Nat.mul_le_mul hle hpower
        rw [Nat.mul_comm] at hproduct
        exact absurd hlt (Nat.not_lt.mpr hproduct)
      · exact F64.isFinite_pack_iff_of_normal hpos bits (Nat.le_of_not_lt hlt)

private theorem nat_of_units {a b : Nat} {s : Sign} {k : Nat}
    (h : (a : Int) = s.apply (k : Nat) * b) : a = k * b := by
  have hcast : ((k * b : Nat) : Int) = (k : Int) * b := Int.natCast_mul k b
  cases s with
  | positive =>
      rw [Sign.apply, ← hcast] at h
      exact Int.ofNat_inj.mp h
  | negative =>
      rw [Sign.apply, Int.neg_mul, ← hcast] at h
      omega

/-- A numeral that is a binary64 number is read as this number. -/
theorem Equals.toFloat {x : F64} (h : n.Equals x) : n.Equals n.toFloat := by
  obtain ⟨hfinite, hunits⟩ := h
  obtain ⟨s, m, e, hm, he, hx⟩ := F64.exists_units hfinite
  rw [hx] at hunits
  have hvalue := nat_of_units hunits
  rw [Equals]
  change n.toFloat.toModel.unpack.isFinite = true ∧ _
  rw [unpack_toFloat, hvalue]
  have hread := n.reads
  generalize UnpackedFloat.ofScientific .binary64 n.mantissa n.exponent = u at hread ⊢
  cases hread with
  | zero small =>
      have hzero : m * 2 ^ e = 0 := by
        by_contra hne
        rw [hvalue] at small
        exact absurd small (Nat.not_lt.mpr (Nat.le_mul_of_pos_left _ (Nat.pos_of_ne_zero hne)))
      rw [hzero]
      exact ⟨rfl, Int.natCast_mul 0 _⟩
  | infinity large =>
      have hbelow := F64.lt_overflowThreshold (d := 1074) hm he
      have hlarge := Nat.mul_le_mul_right (2 ^ 1074) large
      rw [hvalue, Nat.mul_right_comm] at hlarge
      exact absurd hbelow (Nat.not_lt.mpr (Nat.le_of_mul_le_mul_right hlarge n.denominator_pos))
  | @rounded k pos bits few =>
      obtain ⟨hround, hexact⟩ := F64.units_pack_of_exact (s := .positive) n.denominator_pos pos rfl
        bits few hm he hvalue
      refine ⟨hround, ?_⟩
      rw [rounded, hexact]
      exact Int.natCast_mul _ _

theorem Denotes.unique {j : Nat} (h : n.Denotes j) (h' : n.Denotes k) : j = k :=
  Nat.eq_of_mul_eq_mul_right n.denominator_pos (h.symm.trans h')

end Numeral

/-! ## Signed numerals -/

section Signed

variable {cs : List Char} {negative : Bool} {n : Numeral} {j k : Int} {x : F64}

/-- The text is a numeral of the integer. -/
inductive Spells (cs : List Char) : Int → Prop where
  | positive {n : Numeral} {k : Nat} (reads : signedNumeral cs = some (false, n))
      (value : n.Denotes k) : Spells cs k
  | negative {n : Numeral} {k : Nat} (reads : signedNumeral cs = some (true, n))
      (value : n.Denotes k) : Spells cs (-k)

/-- The text is a numeral of exactly the finite number. -/
inductive SpellsFloat (cs : List Char) : F64 → Prop where
  | positive {n : Numeral} {x : F64} (reads : signedNumeral cs = some (false, n))
      (value : n.Equals x) : SpellsFloat cs x
  | negative {n : Numeral} {x : F64} (reads : signedNumeral cs = some (true, n))
      (value : n.Equals x) : SpellsFloat cs (-x)

/-- The text is a numeral that overflows. -/
def Overflows (cs : List Char) : Prop :=
  ∃ negative n, signedNumeral cs = some (negative, n) ∧ n.Overflows

theorem Spells.unique (h : Spells cs j) (h' : Spells cs k) : j = k := by
  cases h with
  | positive reads value =>
      cases h' with
      | positive reads' value' =>
          cases reads.symm.trans reads'
          rw [value.unique value']
      | negative reads' _ => cases reads.symm.trans reads'
  | negative reads value =>
      cases h' with
      | positive reads' _ => cases reads.symm.trans reads'
      | negative reads' value' =>
          cases reads.symm.trans reads'
          rw [value.unique value']

/-- A numeral of an integer is read as the integer rounded to 53 bits. -/
theorem Spells.isInteger_parse (h : Spells cs k) (hk : k.natAbs < 2 ^ 128) :
    ∃ x, parse cs = some x ∧ F64.IsInteger (nearest k) x.toModel.unpack := by
  cases h with
  | positive reads value =>
      refine ⟨_, parse_of_signedNumeral reads, ?_⟩
      rw [nearest_natCast]
      exact Numeral.isInteger_toFloat value (by omega)
  | negative reads value =>
      refine ⟨_, parse_of_signedNumeral reads, ?_⟩
      rw [nearest_neg, nearest_natCast]
      exact (Numeral.isInteger_toFloat value (by omega)).neg

/-- A numeral of a binary64 number is read as this number. -/
theorem SpellsFloat.parse_eq (h : SpellsFloat cs x) :
    ∃ y, parse cs = some y ∧ SpellsFloat cs y := by
  cases h with
  | positive reads value =>
      exact ⟨_, parse_of_signedNumeral reads, .positive reads value.toFloat⟩
  | negative reads value =>
      exact ⟨_, parse_of_signedNumeral reads, .negative reads value.toFloat⟩

theorem isFinite_parse_iff (h : signedNumeral cs = some (negative, n)) (hx : parse cs = some x) :
    x.isFinite = true ↔ ¬Overflows cs := by
  have hover : Overflows cs ↔ n.Overflows := by
    refine ⟨?_, fun hover => ⟨negative, n, h, hover⟩⟩
    rintro ⟨_, _, h', hover⟩
    cases h.symm.trans h'
    exact hover
  have hfinite : x.isFinite = n.toFloat.isFinite := by
    cases hx.symm.trans (parse_of_signedNumeral h)
    cases negative with
    | false => rfl
    | true => exact F64.isFinite_neg _
  rw [hover, hfinite, Numeral.isFinite_toFloat_iff]

theorem spells_of_signed (h : Text.signed cs = some k) : Spells cs k := by
  obtain ⟨negative, m, hread, rfl⟩ := signedNumeral_of_signed h
  cases negative with
  | false => exact .positive hread rfl
  | true => exact .negative hread rfl

end Signed

end Decimal

end CeQuery
