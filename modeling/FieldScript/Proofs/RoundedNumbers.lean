import FieldScript.Decimal.Format
import FieldScript.Proofs.NotANumber

/-!
# Rounded numbers are numbers

A number stays a number when it is rounded to decimal places
(`isNumber_roundPlaces`). The rounded number is made from its bits, and
the bits would be those of not-a-number only if the mantissa had more
than 53 of them: `log2Ratio` finds the exponent that prevents this.
-/

namespace FieldScript
namespace Binary64

open Float.Model

/-! ## Numbers from their bits -/

/-- Bits whose exponent is below the greatest one are a number. -/
theorem isNumber_ofBits {b : UInt64} (h : b.toNat / 2 ^ 52 % 2 ^ 11 ≠ 2047) :
    IsNumber (Float.ofBits b) := by
  have hexponent : @UnpackedFloat.unpackExponent Format.binary64 b.toBitVec ≠ -1#_ := by
    intro heq
    have hnat := congrArg BitVec.toNat heq
    rw [UnpackedFloat.unpackExponent, BitVec.toNat_cast, BitVec.extractLsb_toNat,
      Nat.shiftRight_eq_div_pow] at hnat
    exact h hnat
  have hunpack : (UnpackedFloat.unpack Format.binary64 b.toBitVec).isNaN = false := by
    rw [UnpackedFloat.unpack]
    dsimp only
    rw [if_neg hexponent]
    split
    · split <;> rfl
    · rfl
  exact isNumber_of_pack hunpack

theorem isNumber_infinity : IsNumber infinity :=
  isNumber_iff.mpr (by decide)

/-- A mantissa of less than 54 bits makes a number. -/
theorem isNumber_ofParts {mantissa : Nat} (h : mantissa < 2 ^ 54) (exponent : Int) :
    IsNumber (ofParts mantissa exponent) := by
  have hbits : ∀ (m : Nat) (e : Int), m < 2 ^ 53 → IsNumber
      (if m < twoPow 52 then Float.ofBits (UInt64.ofNat m)
        else if e > 971 then Float.ofBits 0x7ff0000000000000
        else Float.ofBits (UInt64.ofNat ((e + 1075).toNat * twoPow 52 + (m - twoPow 52)))) := by
    intro m e hm
    rw [show twoPow 52 = 4503599627370496 from rfl]
    split
    · refine isNumber_ofBits ?_
      rw [UInt64.toNat_ofNat']
      omega
    · split
      · exact isNumber_infinity
      · refine isNumber_ofBits ?_
        rw [UInt64.toNat_ofNat']
        omega
  rw [ofParts]
  by_cases hlarge : mantissa ≥ twoPow 53
  · rw [if_pos hlarge]
    exact hbits _ _ (by omega)
  · rw [if_neg hlarge]
    exact hbits _ _ (Nat.lt_of_not_le hlarge)

/-! ## Exponents of ratios -/

theorem scaleRatio_div (num den : Nat) (k : Int) :
    ((scaleRatio num den k).1 : ℚ) / (scaleRatio num den k).2 = num / den * 2 ^ k := by
  rw [scaleRatio]
  split
  · rename_i hk
    obtain ⟨n, rfl⟩ := Int.eq_ofNat_of_zero_le hk
    rw [show twoPow (Int.toNat n) = 2 ^ n from rfl, zpow_natCast]
    push_cast
    ring
  · rename_i hk
    obtain ⟨n, hn⟩ := Int.eq_ofNat_of_zero_le (show 0 ≤ -k by omega)
    obtain rfl : k = -(n : Int) := by omega
    rw [show twoPow (- -(n : Int)).toNat = 2 ^ n by rw [neg_neg]; rfl, zpow_neg, zpow_natCast]
    push_cast
    rw [div_mul_eq_div_div, div_eq_mul_inv]

theorem scaleRatio_pos (num : Nat) {den : Nat} (h : 0 < den) (k : Int) :
    0 < (scaleRatio num den k).2 := by
  rw [scaleRatio]
  split
  · exact h
  · exact Nat.mul_pos h (Nat.pow_pos (by decide))

/-- A ratio is less than the power of two after the one that `log2Ratio`
finds. -/
theorem lt_log2Ratio (num : Nat) {den : Nat} (h : 0 < den) :
    (num : ℚ) / den < 2 ^ (log2Ratio num den + 1) := by
  have hden : (0 : ℚ) < den := Nat.cast_pos.mpr h
  rw [log2Ratio]
  generalize hk : ((num.log2 : Int) - den.log2) = k
  dsimp only
  split
  · have hnum : (num : ℚ) < 2 ^ (num.log2 + 1) := by exact_mod_cast Nat.lt_log2_self
    have hlog : (2 : ℚ) ^ den.log2 ≤ den := by exact_mod_cast Nat.log2_self_le h.ne'
    have hexponent : k + 1 = ((num.log2 + 1 : ℕ) : Int) - (den.log2 : ℕ) := by omega
    rw [hexponent, zpow_sub₀ (by norm_num), zpow_natCast, zpow_natCast]
    calc (num : ℚ) / den < 2 ^ (num.log2 + 1) / den := div_lt_div_of_pos_right hnum hden
      _ ≤ 2 ^ (num.log2 + 1) / 2 ^ den.log2 :=
          div_le_div_of_nonneg_left (by positivity) (by positivity) hlog
  · rename_i hsmall
    have hlt : ((scaleRatio num den (-k)).1 : ℚ) / (scaleRatio num den (-k)).2 < 1 := by
      rw [div_lt_one (Nat.cast_pos.mpr (scaleRatio_pos num h _))]
      exact_mod_cast Nat.lt_of_not_le hsmall
    rw [scaleRatio_div, zpow_neg, ← div_eq_mul_inv, div_lt_one (by positivity)] at hlt
    rwa [sub_add_cancel]

theorem roundDiv_le (num den : Nat) : roundDiv num den ≤ num / den + 1 := by
  rw [roundDiv]
  split <;> omega

/-! ## Rounding -/

theorem isNumber_ofNatRatio (num : Nat) {den : Nat} (h : 0 < den) :
    IsNumber (ofNatRatio num den) := by
  rw [ofNatRatio]
  split
  · exact isNumber_iff.mpr (by decide)
  · generalize he : max (log2Ratio num den - 52) (-1074) = e
    dsimp only
    split
    · exact isNumber_infinity
    · have hratio : ((scaleRatio num den (-e)).1 : ℚ) / (scaleRatio num den (-e)).2 < 2 ^ 53 := by
        rw [scaleRatio_div]
        calc (num : ℚ) / den * 2 ^ (-e) < 2 ^ (log2Ratio num den + 1) * 2 ^ (-e) :=
              mul_lt_mul_of_pos_right (lt_log2Ratio num h) (by positivity)
          _ = 2 ^ (log2Ratio num den + 1 - e) := by rw [← zpow_add₀ (by norm_num), sub_eq_add_neg]
          _ ≤ 2 ^ (53 : Int) := zpow_le_zpow_right₀ (by norm_num) (by omega)
      have hpos := scaleRatio_pos num h (-e)
      rw [div_lt_iff₀ (Nat.cast_pos.mpr hpos)] at hratio
      have hquotient : (scaleRatio num den (-e)).1 / (scaleRatio num den (-e)).2 < 2 ^ 53 :=
        Nat.div_lt_of_lt_mul (by rw [Nat.mul_comm]; exact_mod_cast hratio)
      have hround := roundDiv_le (scaleRatio num den (-e)).1 (scaleRatio num den (-e)).2
      exact isNumber_ofParts (by omega) e

theorem isNumber_zero_mul {x : Float} (hx : x.isFinite = true) : IsNumber (0 * x) := by
  have hzero : (0 : Float).toModel.unpack = .zero .positive := rfl
  have hmul : (UnpackedFloat.mul Format.binary64 (0 : Float).toModel.unpack
      x.toModel.unpack).isNaN = false := by
    rw [hzero]
    replace hx : x.toModel.unpack.isFinite = true := hx
    cases hunpack : x.toModel.unpack <;> rw [hunpack] at hx <;> first | rfl | cases hx
  exact isNumber_of_pack hmul

theorem isNumber_roundPlaces (x : Float) (places : Int) :
    IsNumber (roundPlaces x places) ↔ IsNumber x := by
  rw [roundPlaces]
  split
  · exact Iff.rfl
  · rename_i hfinite
    have hx : x.isFinite = true := by
      cases h : x.isFinite
      · exact absurd (by rw [h]; rfl) hfinite
      · rfl
    refine iff_of_true ?_ (isNumber_of_isFinite hx)
    split
    · exact isNumber_zero_mul hx
    · have hratio : ∀ n, IsNumber (ofNatRatio (shiftRatio n 1 (-places)).1
          (shiftRatio n 1 (-places)).2) := by
        intro n
        refine isNumber_ofNatRatio _ ?_
        rw [shiftRatio]
        split
        · exact Nat.one_pos
        · exact Nat.mul_pos Nat.one_pos (Nat.pow_pos (by decide))
      dsimp only
      split
      · exact isNumber_neg (hratio _)
      · exact hratio _

end Binary64
end FieldScript
