import CeQuery.Foundation.Addition

/-!
# Adding integers in binary64

Binary64 numbers that are integers are added without rounding as long as their sum has at
most 53 bits (`isInteger_add`, `isInteger_sub`), whatever their exponents. There is only
one number for an integer of so many bits, except for the two zeros (`eq_of_isInteger`).
-/

namespace CeQuery

theorem nearestNat_eq_self {n : Nat} (h : n < 2 ^ 53) : nearestNat n = n := by
  have hspacing : spacing n = 1 := by
    apply spacing_of_log2_le
    by_cases hn : n = 0
    · rw [hn]
      decide
    · have := (Nat.log2_lt hn).mpr h
      omega
  rw [nearestNat, hspacing, roundedDiv_one, Nat.mul_one]

theorem nearest_eq_self {n : Int} (h : n.natAbs < 2 ^ 53) : nearest n = n := by
  rw [nearest, nearestNat_eq_self h, Int.sign_mul_natAbs]

namespace F64

open Float.Model (UnpackedFloat Format)
open Float.Model.UnpackedFloat (Sign pack unpack)

section Normalize

variable {s : Sign} {k n g : Nat} {c e : Int}

/-- A mantissa that stands for an integer of at most 53 bits is not rounded. -/
theorem isInteger_round_exact (hn : n ≠ 0) (hlt : n < 2 ^ 53) (he : -52 ≤ e)
    (hk : k * 2 ^ (e + 52).toNat = n * 2 ^ 52) :
    IsInteger (s.apply n) (Float.ofModel (Float.Model.pack
      (UnpackedFloat.round .binary64 s k e))).toModel.unpack := by
  have hk0 : k ≠ 0 := by
    rintro rfl
    rw [Nat.zero_mul] at hk
    exact absurd hk.symm (Nat.mul_ne_zero hn (by decide))
  have hlog : k.log2 + (e + 52).toNat = n.log2 + 52 := by
    rw [← log2_mul_two_pow hk0, hk, log2_mul_two_pow hn]
  have hbits : n.log2 < 53 := (Nat.log2_lt hn).mpr hlt
  obtain ⟨j, hj⟩ : ∃ j, j = 52 - k.log2 := ⟨_, rfl⟩
  have hshift : (e - max ((k.log2 : Int) + e - 52) (-1074)).toNat = j := by omega
  have hdown : e - (j : Int) = -((((j : Int) - e).toNat : Nat) : Int) := by omega
  have hmantissa : k * 2 ^ j = n * 2 ^ ((j : Int) - e).toNat := by
    apply Nat.eq_of_mul_eq_mul_right (Nat.two_pow_pos (e + 52).toNat)
    calc k * 2 ^ j * 2 ^ (e + 52).toNat
      _ = n * 2 ^ 52 * 2 ^ j := by rw [Nat.mul_right_comm, hk]
      _ = n * 2 ^ ((j : Int) - e).toNat * 2 ^ (e + 52).toNat := by
        rw [Nat.mul_assoc, ← Nat.pow_add, Nat.mul_assoc, ← Nat.pow_add]
        congr 2
        omega
  have hround := isInteger_round (s := s) (k := ((j : Int) - e).toNat) hn
    (Nat.lt_trans hlt (by decide)) (by omega) (by omega)
  rw [UnpackedFloat.round, UnpackedFloat.decreaseExponent, targetExponent_eq]
  dsimp only
  rw [hshift, Nat.shiftLeft_eq, hdown, hmantissa]
  rwa [nearestNat_eq_self hlt] at hround

/-- The same for a mantissa with a sign. -/
theorem isInteger_normalize {k : Int} (he : -52 ≤ e) (hc : c.natAbs < 2 ^ 53)
    (hk : k * 2 ^ (e + 52).toNat = c * 2 ^ 52) :
    IsInteger c (Float.ofModel (Float.Model.pack
      (UnpackedFloat.normalize .binary64 k e s))).toModel.unpack := by
  have hpow : (0 : Int) < 2 ^ (e + 52).toNat := Int.pow_pos (by decide)
  rw [UnpackedFloat.normalize]
  cases hcmp : compare k 0 with
  | lt =>
      have hneg : k < 0 := Int.compare_eq_lt.mp hcmp
      have hcneg : c < 0 := by
        have hproduct := Int.mul_neg_of_neg_of_pos hneg hpow
        omega
      have hcast : (-k).toNat * 2 ^ (e + 52).toNat = (-c).toNat * 2 ^ 52 := by
        apply Int.ofNat_inj.mp
        rw [Int.natCast_mul, Int.natCast_mul, Int.toNat_of_nonneg (by omega),
          Int.toNat_of_nonneg (by omega), Int.natCast_pow, Int.neg_mul, Int.neg_mul]
        exact congrArg Neg.neg hk
      have hsign : c = Sign.negative.apply (-c).toNat := by
        change c = -((-c).toNat : Int)
        omega
      rw [hsign]
      exact isInteger_round_exact (by omega) (by omega) he hcast
  | eq =>
      have hzero : k = 0 := Int.compare_eq_eq.mp hcmp
      rw [hzero, Int.zero_mul] at hk
      have hc0 : c = 0 := by omega
      change IsInteger c (unpack .binary64 (pack .binary64 (.zero s)))
      rw [hc0, unpack_pack_zero]
      exact ⟨trivial, rfl⟩
  | gt =>
      have hpos : 0 < k := Int.compare_eq_gt.mp hcmp
      have hcpos : 0 < c := by
        have hproduct := Int.mul_pos hpos hpow
        omega
      have hcast : k.toNat * 2 ^ (e + 52).toNat = c.toNat * 2 ^ 52 := by
        apply Int.ofNat_inj.mp
        rw [Int.natCast_mul, Int.natCast_mul, Int.toNat_of_nonneg (by omega),
          Int.toNat_of_nonneg (by omega), Int.natCast_pow]
        exact hk
      have hsign : c = Sign.positive.apply c.toNat := by
        change c = (c.toNat : Int)
        omega
      rw [hsign]
      exact isInteger_round_exact (by omega) (by omega) he hcast

end Normalize

section Add

variable {x y : F64} {a b : Int}

/-- A mantissa that is shifted to a smaller exponent. -/
private theorem apply_shifted {s : Sign} {m : Nat} {e g : Int} (hg : -52 ≤ g) (hle : g ≤ e) :
    s.apply (m <<< (e - g).toNat : Nat) * 2 ^ (g + 52).toNat =
      s.apply (m * 2 ^ (e + 52).toNat : Nat) := by
  have hexponent : (e - g).toNat + (g + 52).toNat = (e + 52).toNat := by omega
  have hshift : m <<< (e - g).toNat * 2 ^ (g + 52).toNat = m * 2 ^ (e + 52).toNat := by
    rw [Nat.shiftLeft_eq, Nat.mul_assoc, ← Nat.pow_add, hexponent]
  have hcast : ((m <<< (e - g).toNat : Nat) : Int) * 2 ^ (g + 52).toNat =
      (m * 2 ^ (e + 52).toNat : Nat) := by
    exact_mod_cast hshift
  cases s with
  | positive => exact hcast
  | negative =>
      rw [Sign.apply, Sign.apply, Int.neg_mul, hcast]

private theorem eq_zero_of_isInteger {s : Sign} (h : IsInteger a (.zero s)) : a = 0 := by
  have hscaled : (0 : Int) = a * 2 ^ 52 := h.2
  omega

/-- Integers are added without rounding if the sum has at most 53 bits. -/
theorem isInteger_add (hx : IsInteger a x.toModel.unpack) (hy : IsInteger b y.toModel.unpack)
    (hsum : (a + b).natAbs < 2 ^ 53) : IsInteger (a + b) (x + y).toModel.unpack := by
  cases hux : x.toModel.unpack with
  | infinity s =>
      rw [hux] at hx
      exact hx.1.elim
  | notANumber =>
      rw [hux] at hx
      exact hx.1.elim
  | zero s =>
      rw [hux] at hx
      rw [eq_zero_of_isInteger hx, Int.zero_add]
      cases huy : y.toModel.unpack with
      | zero t =>
          rw [huy] at hy
          rw [eq_zero_of_isInteger hy, unpack_add, hux, huy]
          cases s <;> cases t <;> exact ⟨trivial, rfl⟩
      | finite t n f hn =>
          have hsame : x + y = y := add_eq_of_unpack (by rw [hux, huy]; rfl)
          rwa [hsame]
      | _ =>
          rw [huy] at hy
          exact hy.1.elim
  | finite s m e hm =>
      cases huy : y.toModel.unpack with
      | zero t =>
          have hsame : x + y = x := add_eq_of_unpack (by rw [hux, huy]; rfl)
          rw [huy] at hy
          rwa [eq_zero_of_isInteger hy, Int.add_zero, hsame]
      | finite t n f hn =>
          rw [hux] at hx
          rw [huy] at hy
          rw [unpack_add, hux, huy]
          obtain ⟨⟨_, _, he⟩, ha⟩ := hx
          obtain ⟨⟨_, _, hf⟩, hb⟩ := hy
          have hg : -52 ≤ min e f := Int.le_min.mpr ⟨he, hf⟩
          refine isInteger_normalize hg hsum ?_
          rw [Int.add_mul, apply_shifted hg (Int.min_le_left e f),
            apply_shifted hg (Int.min_le_right e f), Int.add_mul, ← ha, ← hb]
          rfl
      | _ =>
          rw [huy] at hy
          exact hy.1.elim

theorem sub_eq_add_neg (x y : F64) : x - y = x + -y := by
  have hmodel : ∀ u v : UnpackedFloat,
      UnpackedFloat.sub .binary64 u v = UnpackedFloat.add .binary64 u v.neg := by
    intro u v
    cases u with
    | finite s m e hm =>
        cases v with
        | finite t n f hn =>
            have happly : ∀ k : Int, (-t).apply k = -t.apply k := by
              intro k
              cases t with
              | positive => rfl
              | negative => exact (Int.neg_neg k).symm
            refine congrArg
              (fun k => UnpackedFloat.normalize .binary64 k (min e f) .positive) ?_
            rw [happly, Int.sub_eq_add_neg]
        | _ => rfl
    | _ => cases v <;> rfl
  change Float.ofModel (Float.Model.pack _) = Float.ofModel (Float.Model.pack _)
  rw [unpack_neg]
  exact congrArg (fun u => Float.ofModel (Float.Model.pack u)) (hmodel _ _)

theorem isInteger_sub (hx : IsInteger a x.toModel.unpack) (hy : IsInteger b y.toModel.unpack)
    (hsum : (a - b).natAbs < 2 ^ 53) : IsInteger (a - b) (x - y).toModel.unpack := by
  rw [sub_eq_add_neg]
  exact isInteger_add hx hy.neg hsum

theorem notNegZero_of_isInteger (hx : IsInteger a x.toModel.unpack) (ha : a ≠ 0) :
    NotNegZero x := by
  intro hzero
  rw [hzero] at hx
  exact ha (eq_zero_of_isInteger hx)

/-- Two numbers that are equal are the same, if neither is the negative zero. -/
theorem eq_of_le_of_le (hxy : x ≤ y) (hyx : y ≤ x) (hx : NotNegZero x) (hy : NotNegZero y) :
    x = y := by
  obtain heq | ⟨⟨s, hs⟩, t, ht⟩ := eq_or_isZero_of_le_of_le hxy hyx
  · exact heq
  · apply unpack_injective
    rw [NotNegZero] at hx hy
    rw [hs] at hx ⊢
    rw [ht] at hy ⊢
    cases s with
    | negative => exact absurd rfl hx
    | positive =>
        cases t with
        | negative => exact absurd rfl hy
        | positive => rfl

/-- There is one number for an integer, besides the negative zero. -/
theorem eq_of_isInteger (hx : IsInteger a x.toModel.unpack) (hy : IsInteger a y.toModel.unpack)
    (hxn : NotNegZero x) (hyn : NotNegZero y) : x = y :=
  eq_of_le_of_le ((le_iff_of_isInteger hx hy).mpr (Int.le_refl a))
    ((le_iff_of_isInteger hy hx).mpr (Int.le_refl a)) hxn hyn

end Add

end F64

end CeQuery
