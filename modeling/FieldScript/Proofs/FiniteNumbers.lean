import FieldScript.Proofs.FloatRounding
import FieldScript.Proofs.RoundedNumbers

/-!
# What stays finite

A product is finite if its exact value is not larger than some finite
number; a factor of at most one never makes an overflow. What lies between
finite numbers is finite. Twice a number is zero only if the number is.
Rounding to places behind the point keeps a number finite, while rounding
to a large power of ten may not.
-/

namespace FieldScript
namespace Binary64

open Float.Model

/-- The distance of a number from zero. -/
def magnitude (x : Float) : ℚ := size x.toModel.unpack

variable {x y z : Float}

/-- A finite number is a zero, or has a mantissa of 53 bits unless its
exponent is the least one. -/
theorem finite_cases (h : x.isFinite = true) :
    (∃ s, x.toModel.unpack = .zero s) ∨ ∃ s m e hm, x.toModel.unpack = .finite s m e hm ∧
      m < 2 ^ 53 ∧ -1074 ≤ e ∧ e ≤ 971 ∧ (2 ^ 52 ≤ m ∨ e = -1074) := by
  replace h : x.toModel.unpack.isFinite = true := h
  cases hx : x.toModel.unpack with
  | infinity s => rw [hx] at h; cases h
  | notANumber => rw [hx] at h; cases h
  | zero s => exact Or.inl ⟨s, rfl⟩
  | finite s m e hm => exact Or.inr ⟨s, m, e, hm, rfl, bounds_of_unpack hx⟩

/-! ## Products -/

/-- A product that is not larger than some finite number is finite. -/
theorem mul_bounded (hx : x.isFinite = true) (hy : y.isFinite = true) {k : ℕ} {j : ℤ}
    (hk : k < 2 ^ 53) (hlow : -1074 ≤ j) (hhigh : j ≤ 971)
    (h : magnitude x * magnitude y ≤ k * 2 ^ j) :
    (x * y).isFinite = true ∧ magnitude (x * y) ≤ k * 2 ^ j := by
  have hproduct : Storable (UnpackedFloat.mul Format.binary64 x.toModel.unpack y.toModel.unpack) ∧
      size (UnpackedFloat.mul Format.binary64 x.toModel.unpack y.toModel.unpack) ≤ k * 2 ^ j := by
    have hnonneg : (0 : ℚ) ≤ k * 2 ^ j := by positivity
    rw [magnitude, magnitude] at h
    rcases finite_cases hx with ⟨s, hu⟩ | ⟨s, m, e, hm, hu, -, hme, -, hnormal⟩ <;>
      rcases finite_cases hy with ⟨t, hv⟩ | ⟨t, n, f, hn, hv, -, hnf, -, hnormal'⟩ <;>
      rw [hu, hv] at h ⊢
    · exact ⟨trivial, hnonneg⟩
    · exact ⟨trivial, hnonneg⟩
    · exact ⟨trivial, hnonneg⟩
    · have hvalue : ((m * n : ℕ) : ℚ) * 2 ^ (e + f) ≤ k * 2 ^ j := by
        rw [zpow_add₀ (by norm_num), Nat.cast_mul]
        exact le_trans (le_of_eq (by simp only [size]; ring)) h
      refine storable_roundWithAccuracy _ hk hlow hhigh ?_ hvalue
      -- One of the mantissas has all its bits, or both exponents are least.
      rcases hnormal with hnormal | rfl
      · have hlog := log2_add_lt (Nat.mul_pos hm hn).ne' hk hvalue
        have hbits : 52 ≤ (m * n).log2 :=
          (Nat.le_log2 (Nat.mul_pos hm hn).ne').mpr (hnormal.trans (Nat.le_mul_of_pos_right m hn))
        omega
      · rcases hnormal' with hnormal' | rfl
        · have hlog := log2_add_lt (Nat.mul_pos hm hn).ne' hk hvalue
          have hbits : 52 ≤ (m * n).log2 :=
            (Nat.le_log2 (Nat.mul_pos hm hn).ne').mpr (hnormal'.trans (Nat.le_mul_of_pos_left n hm))
          omega
        · decide
  obtain ⟨hfinite, hsize⟩ := storable_stored hproduct.1
  exact ⟨hfinite, hsize.trans hproduct.2⟩

theorem magnitude_le (hx : x.isFinite = true) : magnitude x ≤ ((2 ^ 53 - 1 : ℕ) : ℚ) * 2 ^ (971 : ℤ) := by
  rw [magnitude]
  rcases finite_cases hx with ⟨s, hu⟩ | ⟨s, m, e, hm, hu, hbits, -, hhigh, -⟩ <;> rw [hu]
  · simp only [size]
    positivity
  · exact mul_le_mul (by exact_mod_cast Nat.le_sub_one_of_lt hbits)
      (zpow_le_zpow_right₀ (by norm_num) hhigh) (by positivity) (by positivity)

theorem magnitude_nonneg (x : Float) : 0 ≤ magnitude x := size_nonneg _

theorem isFinite_mul (hx : x.isFinite = true) (hy : y.isFinite = true) (h : magnitude y ≤ 1) :
    (x * y).isFinite = true := by
  have hle : magnitude x * magnitude y ≤ ((2 ^ 53 - 1 : ℕ) : ℚ) * 2 ^ (971 : ℤ) :=
    calc magnitude x * magnitude y ≤ magnitude x * 1 := mul_le_mul_of_nonneg_left h (magnitude_nonneg x)
      _ = magnitude x := mul_one _
      _ ≤ _ := magnitude_le hx
  exact (mul_bounded hx hy (by norm_num) (by norm_num) le_rfl hle).1

theorem isFinite_neg (hx : x.isFinite = true) : (-x).isFinite = true := by
  have hneg : Storable x.toModel.unpack.neg := by
    rcases finite_cases hx with ⟨s, hu⟩ | ⟨s, m, e, hm, hu, hbits, hlow, hhigh, -⟩ <;> rw [hu]
    · trivial
    · exact ⟨hbits, hlow, hhigh⟩
  exact (storable_stored hneg).1

/-! ## Between finite numbers -/

theorem isNumber_of_le (h : x ≤ y) : IsNumber x ∧ IsNumber y := by
  rw [le_iff_compare] at h
  rcases h with h | h <;> exact isNumber_of_compare h

theorem le_of_less (h : x < y) : x ≤ y := by
  obtain ⟨hx, hy⟩ := isNumber_of_lt h
  rw [le_iff hx hy]
  exact ((lt_iff hx hy).mp h).le

theorem le_refl_of_isFinite (h : x.isFinite = true) : x ≤ x := by
  have hx := isNumber_of_isFinite h
  rw [le_iff hx hx]

theorem le_chain (h : x ≤ y) (h' : y ≤ z) : x ≤ z := by
  obtain ⟨hx, hy⟩ := isNumber_of_le h
  obtain ⟨-, hz⟩ := isNumber_of_le h'
  rw [le_iff hx hz]
  exact ((le_iff hx hy).mp h).trans ((le_iff hy hz).mp h')

theorem le_of_not_less (hx : x.isFinite = true) (hy : y.isFinite = true) (h : ¬ y < x) : x ≤ y := by
  have hxn := isNumber_of_isFinite hx
  have hyn := isNumber_of_isFinite hy
  rw [lt_iff hyn hxn, not_lt] at h
  rwa [le_iff hxn hyn]

/-- Between finite numbers there are only finite ones. -/
theorem isFinite_of_between (hx : x.isFinite = true) (hz : z.isFinite = true) (hxy : x ≤ y) (hyz : y ≤ z) :
    y.isFinite = true := by
  obtain ⟨hxn, hyn⟩ := isNumber_of_le hxy
  obtain ⟨-, hzn⟩ := isNumber_of_le hyz
  rw [le_iff hxn hyn, place, place] at hxy
  rw [le_iff hyn hzn, place, place] at hyz
  show y.toModel.unpack.isFinite = true
  cases hy : y.toModel.unpack with
  | notANumber => exact absurd hy hyn
  | zero s => rfl
  | finite s m e hm => rfl
  | infinity s =>
      rw [hy] at hxy hyz
      cases s with
      | negative =>
          rcases finite_cases hx with ⟨t, hu⟩ | ⟨t, m, e, hm, hu, -⟩ <;> rw [hu] at hxy <;> cases t <;>
            simp [orderKey, Prod.Lex.toLex_le_toLex] at hxy
      | positive =>
          rcases finite_cases hz with ⟨t, hu⟩ | ⟨t, m, e, hm, hu, -⟩ <;> rw [hu] at hyz <;> cases t <;>
            simp [orderKey, Prod.Lex.toLex_le_toLex] at hyz

theorem magnitude_le_one (hlow : -1 ≤ x) (hhigh : x ≤ 1) : magnitude x ≤ 1 := by
  have hone : (1 : Float).toModel.unpack = .finite .positive (2 ^ 52) (-52) (by decide) := rfl
  have hless : (-1 : Float).toModel.unpack = .finite .negative (2 ^ 52) (-52) (by decide) := rfl
  have hx : x.isFinite = true := isFinite_of_between (by decide) (by decide) hlow hhigh
  obtain ⟨hlown, hxn⟩ := isNumber_of_le hlow
  obtain ⟨-, hhighn⟩ := isNumber_of_le hhigh
  rw [le_iff hlown hxn, place, place, hless] at hlow
  rw [le_iff hxn hhighn, place, place, hone] at hhigh
  rw [magnitude]
  rcases finite_cases hx with ⟨s, hu⟩ | ⟨s, m, e, hm, hu, hbits, -⟩ <;> rw [hu] at hlow hhigh ⊢
  · simp [size]
  · have hle : e < -52 ∨ e = -52 ∧ m ≤ 2 ^ 52 := by
      cases s with
      | negative =>
          simp [orderKey, Prod.Lex.toLex_le_toLex] at hlow
          omega
      | positive =>
          simp [orderKey, Prod.Lex.toLex_le_toLex] at hhigh
          omega
    have hpower : (m : ℚ) ≤ 2 ^ (-e) := by
      rcases hle with hle | ⟨rfl, hle⟩
      · calc (m : ℚ) ≤ ((2 ^ 53 : ℕ) : ℚ) := by exact_mod_cast hbits.le
          _ = 2 ^ (53 : ℤ) := by norm_num
          _ ≤ 2 ^ (-e) := zpow_le_zpow_right₀ (by norm_num) (by omega)
      · calc (m : ℚ) ≤ ((2 ^ 52 : ℕ) : ℚ) := by exact_mod_cast hle
          _ = 2 ^ (- -52 : ℤ) := by norm_num
    calc size _ ≤ 2 ^ (-e) * 2 ^ e := mul_le_mul_of_nonneg_right hpower (by positivity)
      _ = 1 := by rw [← zpow_add₀ (by norm_num), neg_add_cancel, zpow_zero]

/-- A turn is finite, for a number from zero to one. -/
theorem isFinite_turn (hlow : 0 ≤ x) (hhigh : x ≤ 1) : (x * 2 * 3.141592653589793).isFinite = true := by
  have hone : magnitude x ≤ 1 := magnitude_le_one (le_chain (by decide) hlow) hhigh
  have hx : x.isFinite = true := isFinite_of_between (by decide) (by decide) hlow hhigh
  have htwo : magnitude 2 = 2 := by
    have hunpack : (2 : Float).toModel.unpack = .finite .positive (2 ^ 52) (-51) (by decide) := rfl
    rw [magnitude, hunpack, size]
    norm_num
  have hpi : magnitude 3.141592653589793 ≤ 4 := by
    have hunpack : (3.141592653589793 : Float).toModel.unpack =
      .finite .positive 7074237752028440 (-51) (by decide) := rfl
    rw [magnitude, hunpack, size]
    norm_num
  obtain ⟨hdouble, hle⟩ : (x * 2).isFinite = true ∧ magnitude (x * 2) ≤ (1 : ℕ) * 2 ^ (1 : ℤ) := by
    refine mul_bounded hx (by decide) (by norm_num) (by norm_num) (by norm_num) ?_
    rw [htwo]
    norm_num
    linarith
  have hproduct : magnitude (x * 2) * magnitude 3.141592653589793 ≤ (1 : ℕ) * 2 ^ (3 : ℤ) :=
    calc magnitude (x * 2) * magnitude 3.141592653589793 ≤ 2 * 4 :=
          mul_le_mul (by simpa using hle) hpi (magnitude_nonneg _) (by norm_num)
      _ = _ := by norm_num
  exact (mul_bounded hdouble (by decide) (by norm_num) (by norm_num) (by norm_num) hproduct).1

/-! ## Infinity -/

theorem place_infinity : place infinity = orderKey (.infinity .positive) := by decide

/-- Infinity is the greatest number. -/
theorem le_infinity (hx : IsNumber x) : x ≤ infinity := by
  rw [le_iff hx isNumber_infinity, place_infinity, place]
  cases x.toModel.unpack with
  | infinity s => cases s <;> simp [orderKey, Prod.Lex.toLex_le_toLex]
  | notANumber => simp [orderKey, Prod.Lex.toLex_le_toLex]
  | zero s => simp [orderKey, Prod.Lex.toLex_le_toLex]
  | finite s m e hm => cases s <;> simp [orderKey, Prod.Lex.toLex_le_toLex]

theorem not_infinity_le (hx : x.isFinite = true) : ¬ infinity ≤ x := by
  rw [le_iff isNumber_infinity (isNumber_of_isFinite hx), place_infinity, place, not_le]
  rcases finite_cases hx with ⟨s, hs⟩ | ⟨s, m, e, hm, hs, -⟩
  · simp [hs, orderKey, Prod.Lex.toLex_lt_toLex]
  · cases s <;> simp [hs, orderKey, Prod.Lex.toLex_lt_toLex]

/-! ## Numbers that are not zero -/

theorem equal_zero : (x == 0) = isZero x.toModel.unpack := by
  have hzero : (0 : Float).toModel.unpack = .zero .positive := rfl
  rw [Bool.eq_iff_iff, beq_iff_compare, hzero]
  cases x.toModel.unpack with
  | notANumber => simp [UnpackedFloat.compare, isZero]
  | zero s => simp [UnpackedFloat.compare, isZero]
  | infinity s => cases s <;> simp [UnpackedFloat.compare, isZero]
  | finite s m e hm => cases s <;> simp [UnpackedFloat.compare, isZero]

/-- Twice a number is zero only if the number is. -/
theorem two_mul_ne_zero (h : (x == 0) = false) : (2 * x == 0) = false := by
  rw [equal_zero] at h ⊢
  show isZero (UnpackedFloat.unpack Format.binary64 (UnpackedFloat.pack Format.binary64
    (UnpackedFloat.mul Format.binary64 (2 : Float).toModel.unpack x.toModel.unpack))) = false
  have htwo : (2 : Float).toModel.unpack = .finite .positive (2 ^ 52) (-51) (by decide) := rfl
  rw [htwo]
  cases hx : x.toModel.unpack with
  | zero s => rw [hx] at h; cases h
  | notANumber => decide
  | infinity s => cases s <;> decide
  | finite s m e hm =>
      obtain ⟨-, hlow, -, -⟩ := bounds_of_unpack hx
      have hlarge : 2 ^ 52 ≤ 2 ^ 52 * m := Nat.le_mul_of_pos_right _ hm
      have hnonzero : 2 ^ 52 * m ≠ 0 := by omega
      have hlog : 52 ≤ (2 ^ 52 * m).log2 := (Nat.le_log2 hnonzero).mpr hlarge
      have hrounded : rounded (2 ^ 52 * m) (-51 + e) ≠ 0 := by
        refine rounded_ne_zero (le_trans (Nat.pow_le_pow_right (by norm_num) ?_)
          (Nat.log2_self_le hnonzero))
        rw [fit]
        omega
      have hlevel : -1074 ≤ level (2 ^ 52 * m) (-51 + e) := by
        rw [level, fit]
        omega
      rw [UnpackedFloat.mul, roundWithAccuracy_eq, dif_neg (kept_ne_zero hrounded hlevel)]
      exact isZero_unpack_pack _ _ (kept_lt _ _) (hlevel.trans (le_level _ _))

/-! ## Rounding to decimal places -/

theorem isFinite_ofBits {b : UInt64} (h : b.toNat / 2 ^ 52 % 2 ^ 11 ≠ 2047) :
    (Float.ofBits b).isFinite = true := by
  have hexponent : @UnpackedFloat.unpackExponent Format.binary64 b.toBitVec ≠ -1#_ := by
    intro heq
    have hnat := congrArg BitVec.toNat heq
    rw [UnpackedFloat.unpackExponent, BitVec.toNat_cast, BitVec.extractLsb_toNat,
      Nat.shiftRight_eq_div_pow] at hnat
    exact h hnat
  have hstorable : Storable (UnpackedFloat.unpack Format.binary64 b.toBitVec) := by
    cases hu : UnpackedFloat.unpack Format.binary64 b.toBitVec with
    | zero s => trivial
    | finite s m e hm =>
        obtain ⟨hbits, hlow, hhigh, -⟩ := bounds_of_unpack hu
        exact ⟨hbits, hlow, hhigh⟩
    | infinity s =>
        rw [UnpackedFloat.unpack] at hu
        simp only [hexponent, if_false] at hu
        split at hu
        · split at hu <;> cases hu
        · cases hu
    | notANumber =>
        rw [UnpackedFloat.unpack] at hu
        simp only [hexponent, if_false] at hu
        split at hu
        · split at hu <;> cases hu
        · cases hu
  exact (storable_stored hstorable).1

/-- A mantissa of at most 53 bits makes a finite number, or one more than
that if the exponent can still be raised. -/
theorem isFinite_ofParts {m : ℕ} {e : ℤ} (he : e ≤ 971) (hm : m < 2 ^ 53 ∨ m = 2 ^ 53 ∧ e < 971) :
    (ofParts m e).isFinite = true := by
  rw [ofParts]
  rw [show twoPow 53 = 2 ^ 53 from rfl, show twoPow 52 = 2 ^ 52 from rfl]
  have hbits : ∀ (m : ℕ) (e : ℤ), m < 2 ^ 53 → e ≤ 971 →
      (if m < 2 ^ 52 then Float.ofBits (UInt64.ofNat m)
        else if e > 971 then Float.ofBits 0x7ff0000000000000
        else Float.ofBits (UInt64.ofNat ((e + 1075).toNat * 2 ^ 52 + (m - 2 ^ 52)))).isFinite = true := by
    intro m e hm he
    split
    · refine isFinite_ofBits ?_
      rw [UInt64.toNat_ofNat']
      omega
    · rw [if_neg (by omega)]
      refine isFinite_ofBits ?_
      rw [UInt64.toNat_ofNat']
      omega
  rcases hm with hm | ⟨rfl, he'⟩
  · rw [if_neg (by omega)]
    exact hbits m e hm he
  · rw [if_pos le_rfl]
    exact hbits _ _ (by norm_num) (by omega)

theorem log2Ratio_le {num den : ℕ} (hnum : num ≠ 0) (hden : 0 < den) :
    (2 : ℚ) ^ log2Ratio num den ≤ num / den := by
  have hpos : (0 : ℚ) < den := Nat.cast_pos.mpr hden
  rw [log2Ratio]
  generalize hk : ((num.log2 : Int) - den.log2) = k
  dsimp only
  have hscaled := scaleRatio_div num den (-k)
  have hscaledPos := scaleRatio_pos num hden (-k)
  split
  · rename_i hle
    have hone : (1 : ℚ) ≤ num / den * 2 ^ (-k) := by
      rw [← hscaled, le_div_iff₀ (Nat.cast_pos.mpr hscaledPos), one_mul]
      exact_mod_cast hle
    rwa [zpow_neg, ← div_eq_mul_inv, le_div_iff₀ (by positivity), one_mul] at hone
  · have hlow : (2 : ℚ) ^ num.log2 ≤ num := by exact_mod_cast Nat.log2_self_le hnum
    have hhigh : (den : ℚ) < 2 ^ (den.log2 + 1) := by exact_mod_cast Nat.lt_log2_self
    have hexponent : k - 1 = ((num.log2 : ℕ) : Int) - ((den.log2 + 1 : ℕ) : Int) := by omega
    rw [hexponent, zpow_sub₀ (by norm_num), zpow_natCast, zpow_natCast]
    calc (2 : ℚ) ^ num.log2 / 2 ^ (den.log2 + 1) ≤ num / 2 ^ (den.log2 + 1) :=
          div_le_div_of_nonneg_right hlow (by positivity)
      _ ≤ num / den := div_le_div_of_nonneg_left (Nat.cast_nonneg _) hpos hhigh.le

/-- Rounding a ratio does not pass an integer. -/
theorem roundDiv_le_of_le {num den k : ℕ} (hden : 0 < den) (h : num ≤ k * den) : roundDiv num den ≤ k := by
  rw [roundDiv]
  rcases h.eq_or_lt with rfl | hlt
  · simp [Nat.mul_div_cancel _ hden, hden.ne]
  · have hless : num / den < k := (Nat.div_lt_iff_lt_mul hden).mpr hlt
    split <;> omega

theorem roundDiv_scaleRatio_le {num den k : ℕ} (hden : 0 < den) {e : ℤ}
    (h : (num : ℚ) / den * 2 ^ (-e) ≤ (k : ℚ)) :
    roundDiv (scaleRatio num den (-e)).1 (scaleRatio num den (-e)).2 ≤ k := by
  have hpos := scaleRatio_pos num hden (-e)
  refine roundDiv_le_of_le hpos ?_
  rw [← scaleRatio_div, div_le_iff₀ (Nat.cast_pos.mpr hpos)] at h
  exact_mod_cast h

/-- The logarithm of a ratio that is not larger than some finite number. -/
theorem log2Ratio_lt {num den : ℕ} (hnum : num ≠ 0) (hden : 0 < den)
    (h : (num : ℚ) / den ≤ ((2 ^ 53 - 1 : ℕ) : ℚ) * 2 ^ (971 : ℤ)) : log2Ratio num den < 1024 := by
  have hlt : (2 : ℚ) ^ log2Ratio num den < 2 ^ (53 + 971 : ℤ) :=
    calc (2 : ℚ) ^ log2Ratio num den ≤ num / den := log2Ratio_le hnum hden
      _ ≤ ((2 ^ 53 - 1 : ℕ) : ℚ) * 2 ^ (971 : ℤ) := h
      _ < ((2 ^ 53 : ℕ) : ℚ) * 2 ^ (971 : ℤ) :=
          mul_lt_mul_of_pos_right (by exact_mod_cast (by norm_num : 2 ^ 53 - 1 < 2 ^ 53))
            (by positivity)
      _ = 2 ^ (53 + 971 : ℤ) := by rw [zpow_add₀ (by norm_num), Nat.cast_pow]; rfl
  exact (zpow_lt_zpow_iff_right₀ (by norm_num)).mp hlt

/-- A ratio that is not larger than some finite number is rounded to a
finite number. -/
theorem isFinite_ofNatRatio {num den : ℕ} (hden : 0 < den)
    (h : (num : ℚ) / den ≤ ((2 ^ 53 - 1 : ℕ) : ℚ) * 2 ^ (971 : ℤ)) :
    (ofNatRatio num den).isFinite = true := by
  rw [ofNatRatio]
  split
  · decide
  · rename_i hnum
    have hlog := log2Ratio_lt (by simpa using hnum) hden h
    generalize he : max (log2Ratio num den - 52) (-1074) = e
    dsimp only
    rw [if_neg (by omega)]
    refine isFinite_ofParts (by omega) ?_
    have hbits : roundDiv (scaleRatio num den (-e)).1 (scaleRatio num den (-e)).2 ≤ 2 ^ 53 := by
      refine roundDiv_scaleRatio_le hden ?_
      calc (num : ℚ) / den * 2 ^ (-e) ≤ 2 ^ (log2Ratio num den + 1) * 2 ^ (-e) :=
            mul_le_mul_of_nonneg_right (lt_log2Ratio num hden).le (by positivity)
        _ = 2 ^ (log2Ratio num den + 1 - e) := by rw [← zpow_add₀ (by norm_num), sub_eq_add_neg]
        _ ≤ 2 ^ (53 : Int) := zpow_le_zpow_right₀ (by norm_num) (by omega)
        _ = ((2 ^ 53 : ℕ) : ℚ) := by rw [Nat.cast_pow]; rfl
    rcases eq_or_lt_of_le (show e ≤ 971 by omega) with rfl | hlt
    · -- with the largest exponent only the largest mantissa is left
      refine Or.inl ?_
      have hfew : roundDiv (scaleRatio num den (-971)).1 (scaleRatio num den (-971)).2 ≤ 2 ^ 53 - 1 := by
        refine roundDiv_scaleRatio_le hden ?_
        rw [zpow_neg, ← div_eq_mul_inv, div_le_iff₀ (by positivity)]
        exact h
      omega
    · rcases hbits.eq_or_lt with heq | hless
      · exact Or.inr ⟨heq, hlt⟩
      · exact Or.inl hless

theorem parts_bounds (hx : x.isFinite = true) :
    (parts x).mantissa < 2 ^ 53 ∧ (parts x).exponent ≤ 971 := by
  have hexponent : x.toBits.toNat / 2 ^ 52 % 2 ^ 11 ≠ 2047 := by
    intro hgreatest
    have hspecial : @UnpackedFloat.unpackExponent Format.binary64 x.toModel.toBits.toBitVec = -1#_ := by
      apply BitVec.eq_of_toNat_eq
      rw [UnpackedFloat.unpackExponent, BitVec.toNat_cast, BitVec.extractLsb_toNat,
        Nat.shiftRight_eq_div_pow]
      exact hgreatest
    have hunpack : (UnpackedFloat.unpack Format.binary64 x.toModel.toBits.toBitVec).isFinite = true := hx
    rw [UnpackedFloat.unpack] at hunpack
    simp only [hspecial, if_true] at hunpack
    split at hunpack <;> cases hunpack
  rw [parts, show twoPow 52 = 2 ^ 52 from rfl, show twoPow 11 = 2 ^ 11 from rfl]
  split <;> dsimp only <;> omega

/-- The size of a finite number, rounded to decimal places behind the point,
is not larger than some integer within the range. -/
theorem decimal_le {p : Parts} (hmantissa : p.mantissa < 2 ^ 53) (hexponent : p.exponent ≤ 971) (places : ℕ) :
    ∃ n : ℕ, (n : ℚ) ≤ ((2 ^ 53 - 1 : ℕ) : ℚ) * 2 ^ (971 : ℤ) ∧
      roundDiv (p.ratio.1 * tenPow places) p.ratio.2 ≤ n * tenPow places := by
  have hle : (p.mantissa : ℚ) ≤ ((2 ^ 53 - 1 : ℕ) : ℚ) := by
    exact_mod_cast Nat.le_sub_one_of_lt hmantissa
  rw [Parts.ratio, scaleRatio]
  split
  · rename_i hinteger
    refine ⟨p.mantissa * 2 ^ p.exponent.toNat, ?_,
      roundDiv_le_of_le Nat.one_pos (le_of_eq (mul_one _).symm)⟩
    have hpower : (2 : ℚ) ^ p.exponent.toNat = 2 ^ p.exponent := by
      rw [← zpow_natCast, Int.toNat_of_nonneg hinteger]
    rw [Nat.cast_mul, Nat.cast_pow, Nat.cast_ofNat, hpower]
    exact mul_le_mul hle (zpow_le_zpow_right₀ (by norm_num) hexponent) (by positivity) (by positivity)
  · have hpos : 0 < 1 * twoPow (-p.exponent).toNat := Nat.mul_pos Nat.one_pos (Nat.pow_pos (by decide))
    refine ⟨p.mantissa, ?_, roundDiv_le_of_le hpos (Nat.le_mul_of_pos_right _ hpos)⟩
    calc (p.mantissa : ℚ) ≤ ((2 ^ 53 - 1 : ℕ) : ℚ) * 1 := hle.trans (mul_one _).ge
      _ ≤ _ := mul_le_mul_of_nonneg_left (one_le_zpow₀ (by norm_num) (by norm_num)) (by positivity)

/-- A finite number that is rounded to decimal places behind the point stays
finite. -/
theorem isFinite_roundPlaces {places : ℤ} (hplaces : 0 ≤ places) (hx : x.isFinite = true) :
    (roundPlaces x places).isFinite = true := by
  rw [roundPlaces, hx]
  by_cases hmany : places > 323
  · simpa [hmany] using hx
  · rw [if_neg (by simpa using hmany), if_neg (show ¬ places < -308 by omega)]
    obtain ⟨hmantissa, hexponent⟩ := parts_bounds hx
    obtain ⟨n, hn, hround⟩ := decimal_le hmantissa hexponent places.toNat
    have hpos : 0 < tenPow places.toNat := Nat.pow_pos (by decide)
    have hshift : shiftRatio (parts x).ratio.1 (parts x).ratio.2 places =
        ((parts x).ratio.1 * tenPow places.toNat, (parts x).ratio.2) := if_pos hplaces
    have hback : ∀ r : ℕ, ((shiftRatio r 1 (-places)).1 : ℚ) / (shiftRatio r 1 (-places)).2 =
        r / tenPow places.toNat := by
      intro r
      rw [shiftRatio]
      split
      · obtain rfl : places = 0 := by omega
        simp [tenPow]
      · simp
    have hratio : ((roundDiv ((parts x).ratio.1 * tenPow places.toNat) (parts x).ratio.2 : ℕ) : ℚ) /
        tenPow places.toNat ≤ ((2 ^ 53 - 1 : ℕ) : ℚ) * 2 ^ (971 : ℤ) := by
      rw [div_le_iff₀ (Nat.cast_pos.mpr hpos)]
      calc ((roundDiv ((parts x).ratio.1 * tenPow places.toNat) (parts x).ratio.2 : ℕ) : ℚ)
          ≤ n * tenPow places.toNat := by exact_mod_cast hround
        _ ≤ _ := mul_le_mul_of_nonneg_right hn (Nat.cast_nonneg _)
    have hpos' : ∀ r : ℕ, 0 < (shiftRatio r 1 (-places)).2 := by
      intro r
      rw [shiftRatio]
      split
      · exact Nat.one_pos
      · exact Nat.mul_pos Nat.one_pos (Nat.pow_pos (by decide))
    have hfinite := isFinite_ofNatRatio (hpos' _) ((hback _).trans_le hratio)
    simp only [hshift]
    split
    · exact isFinite_neg hfinite
    · exact hfinite

end Binary64
end FieldScript
