import FieldScript.Proofs.FiniteNumbers

/-!
# Lengths in binary64

Finite numbers that are not negative are ordered by their distance from
zero. A sum of two is rounded to a number that is not below the first one
(`add_isLength`), and a sum that reaches a large bound by little falls back
to it: half of what the last bit is worth there is more than a length can
be. So sums of lengths never overflow, however many there are. A square
root that is finite is such a length (`sqrt_isLength`).

A difference taken the other way round has the other sign and nothing
else, so that its square is the same (`sub_mul_sub_comm`).
-/

namespace FieldScript
namespace Binary64

open Float.Model Float.Model.UnpackedFloat

variable {x y : Float} {u v : UnpackedFloat} {m k n : ℕ} {e j l : ℤ}

/-! ## The order of lengths -/

/-- Finite and not negative. -/
def IsLength (x : Float) : Prop := x.isFinite = true ∧ 0 ≤ x

/-- Zero, or a positive number with the mantissa and the exponent that
storing keeps. -/
def Canonical : UnpackedFloat → Prop
  | .zero _ => True
  | .finite .positive m e _ => m < 2 ^ 53 ∧ -1074 ≤ e ∧ e ≤ 971 ∧ (2 ^ 52 ≤ m ∨ e = -1074)
  | _ => False

theorem isLength_iff : IsLength x ↔ Canonical x.toModel.unpack := by
  have hzero : (0 : Float).toModel.unpack = .zero .positive := rfl
  rw [IsLength, le_iff_compare, hzero]
  constructor
  · rintro ⟨hfinite, hle⟩
    rcases finite_cases hfinite with ⟨s, hu⟩ | ⟨s, m, e, hm, hu, hbounds⟩
    · rw [hu]
      trivial
    · rw [hu] at hle ⊢
      cases s with
      | positive => exact hbounds
      | negative => simp [UnpackedFloat.compare] at hle
  · intro h
    have hfinite : x.isFinite = x.toModel.unpack.isFinite := rfl
    rw [hfinite]
    cases hu : x.toModel.unpack with
    | zero s => exact ⟨rfl, Or.inr rfl⟩
    | notANumber => rw [hu] at h; exact h.elim
    | infinity s => rw [hu] at h; exact h.elim
    | finite s m e hm =>
        rw [hu] at h
        cases s with
        | positive => exact ⟨rfl, Or.inl rfl⟩
        | negative => exact h.elim

/-- What storing keeps is stored as it is. -/
theorem Canonical.stored (h : Canonical u) :
    UnpackedFloat.unpack Format.binary64 (UnpackedFloat.pack Format.binary64 u) = u := by
  cases u with
  | infinity s => exact h.elim
  | notANumber => exact h.elim
  | zero s => cases s <;> rfl
  | finite s m e hm =>
      cases s with
      | negative => exact h.elim
      | positive =>
          obtain ⟨hbits, hlow, hhigh, hfull⟩ := h
          obtain ⟨e', heq, -, hsame⟩ := unpack_pack_finite .positive hm hbits hlow hhigh
          rw [heq, hsame hfull]

/-- A number with a larger exponent is larger, unless it has less bits. -/
theorem size_lt_of_exponent_lt {i : ℤ} (hm : m < 2 ^ 53) (hk : 2 ^ 52 ≤ k) (h : i < j) :
    (m : ℚ) * 2 ^ i < k * 2 ^ j :=
  calc (m : ℚ) * 2 ^ i < 2 ^ 53 * 2 ^ i := mul_lt_mul_of_pos_right (by exact_mod_cast hm) (by positivity)
    _ = 2 ^ 52 * 2 ^ (i + 1) := by rw [zpow_add₀ (by norm_num)]; ring
    _ ≤ k * 2 ^ j := mul_le_mul (by exact_mod_cast hk) (zpow_le_zpow_right₀ (by norm_num) h)
        (by positivity) (by positivity)

theorem size_lt_of_orderKey_lt (hu : Canonical u) (hv : Canonical v) (h : orderKey u < orderKey v) :
    size u < size v := by
  rcases u with s | _ | s | ⟨s, m, i, hm⟩ <;> rcases v with t | _ | t | ⟨t, k, j, hk⟩ <;>
    first
      | exact hu.elim
      | exact hv.elim
      | skip
  · exact absurd h (lt_irrefl _)
  · simp only [size]
    positivity
  · cases s with
    | negative => exact hu.elim
    | positive => simp [orderKey, Prod.Lex.toLex_lt_toLex] at h
  · cases s with
    | negative => exact hu.elim
    | positive =>
      cases t with
      | negative => exact hv.elim
      | positive =>
        simp only [orderKey, Prod.Lex.toLex_lt_toLex, lt_irrefl, true_and, false_or, Nat.cast_lt] at h
        rcases h with hexponent | ⟨rfl, hmantissa⟩
        · have hfull : 2 ^ 52 ≤ k := hv.2.2.2.resolve_right (by have := hu.2.1; omega)
          exact size_lt_of_exponent_lt hu.1 hfull hexponent
        · exact mul_lt_mul_of_pos_right (by exact_mod_cast hmantissa) (by positivity)

theorem size_eq_of_orderKey_eq (hu : Canonical u) (hv : Canonical v) (h : orderKey u = orderKey v) :
    size u = size v := by
  rcases u with s | _ | s | ⟨s, m, i, hm⟩ <;> rcases v with t | _ | t | ⟨t, k, j, hk⟩ <;>
    first
      | exact hu.elim
      | exact hv.elim
      | rfl
      | (cases s <;> simp [orderKey] at h; done)
      | (cases t <;> simp [orderKey] at h; done)
      | skip
  cases s with
  | negative => exact hu.elim
  | positive =>
    cases t with
    | negative => exact hv.elim
    | positive =>
      simp only [orderKey, EmbeddingLike.apply_eq_iff_eq, Prod.mk.injEq, true_and, Nat.cast_inj] at h
      obtain ⟨rfl, rfl⟩ := h
      rfl

/-- Lengths are ordered by their distance from zero. -/
theorem IsLength.lt_iff (hx : IsLength x) (hy : IsLength y) : x < y ↔ magnitude x < magnitude y := by
  rw [Binary64.lt_iff (isNumber_of_isFinite hx.1) (isNumber_of_isFinite hy.1), place, place,
    magnitude, magnitude]
  rw [isLength_iff] at hx hy
  refine ⟨size_lt_of_orderKey_lt hx hy, fun hlt => ?_⟩
  rcases lt_trichotomy (orderKey x.toModel.unpack) (orderKey y.toModel.unpack) with h | h | h
  · exact h
  · exact absurd (size_eq_of_orderKey_eq hx hy h) hlt.ne
  · exact absurd (size_lt_of_orderKey_lt hy hx h) hlt.not_gt

theorem IsLength.magnitude_eq (hx : IsLength x) (hy : IsLength y) (h : (x == y) = true) :
    magnitude x = magnitude y := by
  rw [Binary64.beq_iff (isNumber_of_isFinite hx.1) (isNumber_of_isFinite hy.1)] at h
  exact size_eq_of_orderKey_eq (isLength_iff.mp hx) (isLength_iff.mp hy) h

/-! ## Rounding to the nearest -/

/-- What is less than half above an integer is not rounded up. -/
theorem rounded_halved_le_of_lt_half (h : 2 * m < (2 * k + 1) * 2 ^ n) :
    (halved m n).roundedMantissa ≤ k := by
  by_cases hle : m ≤ k * 2 ^ n
  · exact rounded_halved_le hle
  cases n with
  | zero => omega
  | succ n =>
      have hbelow : m / 2 ^ n < 2 * k + 1 := by
        rw [Nat.div_lt_iff_lt_mul (by positivity)]
        rw [pow_succ] at h
        linarith
      have habove : 2 * k ≤ m / 2 ^ n := by
        rw [Nat.le_div_iff_mul_le (by positivity)]
        rw [pow_succ] at hle
        linarith
      have hhalf : (halved m n).mantissa = 2 * k := by
        rw [halved_mantissa]
        omega
      have hstep : halved m (n + 1) = (halved m n).shiftRightOne := rfl
      rw [hstep, ExtendedMantissa.roundedMantissa, ExtendedMantissa.shiftRightOne, hhalf]
      generalize ((halved m n).roundBit || (halved m n).stickyBit) = sticky
      cases sticky <;> simp [ExtendedMantissa.accuracy, Accuracy.roundToNearestEven]

theorem log2_mul_two_pow (hm : m ≠ 0) (n : ℕ) : (m * 2 ^ n).log2 = m.log2 + n := by
  rw [Nat.log2_eq_iff (Nat.mul_ne_zero hm (by positivity))]
  constructor
  · rw [pow_add]
    exact Nat.mul_le_mul_right _ (Nat.log2_self_le hm)
  · rw [Nat.add_right_comm, pow_add]
    exact Nat.mul_lt_mul_of_pos_right Nat.lt_log2_self (by positivity)

/-- A number that can be stored and is not larger is not passed by
rounding. -/
theorem le_rounded (hm : m ≠ 0) (hfit : e ≤ fit m e) (hk : k < 2 ^ 53) (hj : -1074 ≤ j)
    (h : (k : ℚ) * 2 ^ j ≤ m * 2 ^ e) : (k : ℚ) * 2 ^ j ≤ rounded m e * 2 ^ fit m e := by
  have hfloor : m / 2 ^ (fit m e - e).toNat ≤ rounded m e := by
    rw [← halved_mantissa]
    exact (roundedMantissa_bounds _).1
  by_cases hle : fit m e ≤ j
  · -- a multiple of the last place
    have hsteps : k * 2 ^ (j - fit m e).toNat * 2 ^ (fit m e - e).toNat ≤ m := by
      rw [two_zpow_split hle, two_zpow_split hfit, ← mul_assoc, ← mul_assoc] at h
      have := le_of_mul_le_mul_right h (by positivity)
      exact_mod_cast this
    have hmultiple : k * 2 ^ (j - fit m e).toNat ≤ rounded m e :=
      ((Nat.le_div_iff_mul_le (by positivity)).mpr hsteps).trans hfloor
    rw [two_zpow_split hle, ← mul_assoc]
    exact mul_le_mul_of_nonneg_right (by exact_mod_cast hmultiple) (by positivity)
  · -- less than the first bit
    have hlast : fit m e = (m.log2 : ℤ) + e - 52 := by
      rw [fit] at hle ⊢
      omega
    have hshift : m.log2 = 52 + (fit m e - e).toNat := by omega
    have hfull : 2 ^ 52 ≤ rounded m e := by
      refine le_trans ?_ hfloor
      rw [Nat.le_div_iff_mul_le (by positivity), ← pow_add, ← hshift]
      exact Nat.log2_self_le hm
    exact (size_lt_of_exponent_lt hk hfull (not_le.mp hle)).le

/-- The mantissa has at most 53 bits then, or is the least one with 54. -/
theorem rounded_le_full (hfit : e ≤ fit m e) : rounded m e ≤ 2 ^ 53 := by
  refine rounded_halved_le ?_
  rw [← pow_add]
  refine (Nat.lt_log2_self (n := m)).le.trans (Nat.pow_le_pow_right (by norm_num) ?_)
  rw [fit] at hfit ⊢
  omega

theorem full_or_least (hm : m ≠ 0) (hfit : e ≤ fit m e) :
    2 ^ 52 ≤ rounded m e ∨ fit m e = -1074 := by
  by_cases hleast : fit m e = -1074
  · exact Or.inr hleast
  · refine Or.inl (le_trans ?_ (roundedMantissa_bounds _).1)
    rw [halved_mantissa, Nat.le_div_iff_mul_le (by positivity), ← pow_add]
    refine le_trans (Nat.pow_le_pow_right (by norm_num) ?_) (Nat.log2_self_le hm)
    rw [fit] at hfit hleast ⊢
    omega

/-- The second shift loses nothing. -/
theorem kept_eq (hn : n ≤ 2 ^ 53) (hl : -1074 ≤ l) :
    (n < 2 ^ 53 ∧ kept n l = n ∧ level n l = l) ∨
      (n = 2 ^ 53 ∧ kept n l = 2 ^ 52 ∧ level n l = l + 1) := by
  rcases hn.lt_or_eq with hlt | rfl
  · have hfit : fit n l ≤ l := by
      by_cases hzero : n = 0
      · rw [fit, hzero, Nat.log2_zero]
        omega
      · have hlog := (Nat.log2_lt hzero).mpr hlt
        rw [fit]
        omega
    refine Or.inl ⟨hlt, ?_, max_eq_left hfit⟩
    rw [kept, Int.toNat_of_nonpos (by omega), pow_zero, Nat.div_one]
  · have hfit : fit (2 ^ 53) l = l + 1 := by
      rw [fit, Nat.log2_two_pow]
      omega
    refine Or.inr ⟨rfl, ?_, ?_⟩
    · rw [kept, hfit]
      norm_num
    · rw [level, hfit]
      omega

/-- A number whose exponent is raised to the one it fits is rounded to a
number that is stored as it is. -/
theorem round_canonical (hm : m ≠ 0) (hfit : e ≤ fit m e) (hhigh : fit m e ≤ 968) :
    Canonical (roundWithAccuracy Format.binary64 .positive m e .exact) ∧
      size (roundWithAccuracy Format.binary64 .positive m e .exact) = rounded m e * 2 ^ fit m e := by
  have hlevel : level m e = fit m e := max_eq_right hfit
  have hlow : -1074 ≤ fit m e := le_max_right _ _
  have hfull := full_or_least hm hfit
  rw [roundWithAccuracy_eq, hlevel]
  generalize hr : rounded m e = r at *
  have hr' : r ≤ 2 ^ 53 := hr ▸ rounded_le_full hfit
  split
  · rename_i hzero
    refine ⟨trivial, ?_⟩
    rcases kept_eq hr' hlow with ⟨-, hkept, -⟩ | ⟨-, hkept, -⟩
    · obtain rfl : r = 0 := hkept.symm.trans hzero
      simp [size]
    · rw [hzero] at hkept
      cases hkept
  · rcases kept_eq hr' hlow with ⟨hlt, hkept, hsame⟩ | ⟨rfl, hkept, hnext⟩
    · refine ⟨⟨kept_lt _ _, ?_, ?_, ?_⟩, ?_⟩
      · omega
      · omega
      · rw [hkept, hsame]
        exact hfull
      · rw [size, hkept, hsame]
    · refine ⟨⟨kept_lt _ _, ?_, ?_, ?_⟩, ?_⟩
      · omega
      · omega
      · rw [hkept]
        exact Or.inl le_rfl
      · rw [size, hkept, hnext, zpow_add₀ (by norm_num)]
        push_cast
        ring

theorem two_zpow_bound : (2 : ℚ) ^ (1020 : ℤ) = 2 ^ 53 * 2 ^ (967 : ℤ) := by
  rw [← zpow_natCast, ← zpow_add₀ (by norm_num)]
  rfl

theorem two_zpow_last : (2 : ℚ) ^ (968 : ℤ) = 2 * 2 ^ (967 : ℤ) := by
  rw [← zpow_one_add₀ (by norm_num)]
  rfl

/-- What reaches the bound by less than half of its last place is rounded to
the bound. -/
theorem rounded_le_bound (hm : m ≠ 0) (hfit : e ≤ fit m e)
    (h : (m : ℚ) * 2 ^ e < (2 ^ 53 + 1) * 2 ^ (967 : ℤ)) :
    fit m e ≤ 968 ∧ (rounded m e : ℚ) * 2 ^ fit m e ≤ 2 ^ (1020 : ℤ) := by
  have hlog : (m.log2 : ℤ) + e < 53 + 968 := by
    refine log2_add_lt (k := 2 ^ 52 + 1) hm (by norm_num) (h.le.trans ?_)
    rw [two_zpow_last, ← mul_assoc]
    exact mul_le_mul_of_nonneg_right (by norm_num) (by positivity)
  have hplace : fit m e ≤ 968 := by
    rw [fit]
    omega
  have hbound : ((2 ^ 52 * 2 ^ (968 - fit m e).toNat : ℕ) : ℚ) * 2 ^ fit m e = 2 ^ (1020 : ℤ) := by
    rw [Nat.cast_mul, Nat.cast_pow, Nat.cast_pow, mul_assoc, Nat.cast_ofNat, ← two_zpow_split hplace]
    rw [two_zpow_last, two_zpow_bound]
    ring
  generalize 2 ^ 52 * 2 ^ (968 - fit m e).toNat = b at hbound
  -- half of the last place is left above the bound
  have hhalf : 2 * ((m : ℚ) * 2 ^ e) < 2 * 2 ^ (1020 : ℤ) + 2 ^ fit m e := by
    by_cases hlast : fit m e = 968
    · rw [hlast]
      calc 2 * ((m : ℚ) * 2 ^ e) < 2 * ((2 ^ 53 + 1) * 2 ^ (967 : ℤ)) := by linarith
        _ = 2 * 2 ^ (1020 : ℤ) + 2 ^ (968 : ℤ) := by
            rw [two_zpow_bound, two_zpow_last]
            ring
    · have hbits : (m.log2 : ℤ) + 1 + e ≤ 1020 := by
        rw [fit] at hplace hlast
        omega
      have hbelow : (m : ℚ) * 2 ^ e < 2 ^ (1020 : ℤ) :=
        calc (m : ℚ) * 2 ^ e < 2 ^ (m.log2 + 1) * 2 ^ e :=
              mul_lt_mul_of_pos_right (by exact_mod_cast Nat.lt_log2_self) (by positivity)
          _ = 2 ^ ((m.log2 : ℤ) + 1 + e) := by rw [zpow_add₀ (by norm_num)]; rfl
          _ ≤ 2 ^ (1020 : ℤ) := zpow_le_zpow_right₀ (by norm_num) hbits
      have hpos : (0 : ℚ) < 2 ^ fit m e := by positivity
      linarith
  refine ⟨hplace, ?_⟩
  rw [← hbound]
  refine mul_le_mul_of_nonneg_right ?_ (by positivity)
  have hle : rounded m e ≤ b := by
    refine rounded_halved_le_of_lt_half ?_
    rw [← hbound, two_zpow_split hfit] at hhalf
    have hscaled : (2 * m : ℚ) * 2 ^ e < ((2 * b + 1) * 2 ^ (fit m e - e).toNat) * 2 ^ e := by linarith
    have := lt_of_mul_lt_mul_right hscaled (by positivity)
    exact_mod_cast this
  exact_mod_cast hle

/-! ## Sums of lengths -/

/-- Rounding first lowers the exponent to the one that fits. -/
theorem round_eq (s : Sign) (hm : m ≠ 0) (e : ℤ) : ∃ n l, n ≠ 0 ∧ l ≤ fit n l ∧
    (n : ℚ) * 2 ^ l = m * 2 ^ e ∧
    round Format.binary64 s m e = roundWithAccuracy Format.binary64 s n l .exact := by
  refine ⟨m * 2 ^ (e - fit m e).toNat, e - (e - fit m e).toNat, Nat.mul_ne_zero hm (by positivity),
    ?_, ?_, ?_⟩
  · rw [fit, fit, log2_mul_two_pow hm]
    omega
  · rw [zpow_sub₀ (by norm_num), zpow_natCast]
    push_cast
    field_simp
  · rw [UnpackedFloat.round, targetExponent_eq, decreaseExponent, Nat.shiftLeft_eq]

/-- The exact sum of two positive numbers is rounded. -/
theorem add_positive_eq {k : ℕ} {i : ℤ} (hm : 0 < m) (hk : 0 < k) : ∃ n l, n ≠ 0 ∧ l ≤ fit n l ∧
    (n : ℚ) * 2 ^ l = m * 2 ^ e + k * 2 ^ i ∧
    UnpackedFloat.add Format.binary64 (.finite .positive m e hm) (.finite .positive k i hk) =
      roundWithAccuracy Format.binary64 .positive n l .exact := by
  have hpos : 0 < m * 2 ^ (e - min e i).toNat + k * 2 ^ (i - min e i).toNat := by positivity
  obtain ⟨n, l, hn, hl, hvalue, hround⟩ := round_eq .positive hpos.ne' (min e i)
  refine ⟨n, l, hn, hl, ?_, ?_⟩
  · rw [hvalue, Nat.cast_add, add_mul]
    push_cast
    rw [mul_assoc, mul_assoc, ← two_zpow_split (min_le_left e i), ← two_zpow_split (min_le_right e i)]
  · rw [← hround, UnpackedFloat.add]
    simp only [decreaseExponent, Sign.apply, Nat.shiftLeft_eq]
    rw [← Nat.cast_add, UnpackedFloat.normalize]
    have hcompare : compare ((m * 2 ^ (e - min e i).toNat + k * 2 ^ (i - min e i).toNat : ℕ) : ℤ) 0
        = .gt := compare_gt_iff_gt.mpr (by exact_mod_cast hpos)
    rw [hcompare]
    rfl

theorem add_canonical (hu : Canonical u) (hv : Canonical v) (hulow : size u ≤ 2 ^ (1020 : ℤ))
    (hvlow : size v ≤ 2 ^ (960 : ℤ)) :
    Canonical (UnpackedFloat.add Format.binary64 u v) ∧
      size u ≤ size (UnpackedFloat.add Format.binary64 u v) ∧
      size (UnpackedFloat.add Format.binary64 u v) ≤ 2 ^ (1020 : ℤ) := by
  have hbounds : (2 : ℚ) ^ (960 : ℤ) ≤ 2 ^ (1020 : ℤ) :=
    zpow_le_zpow_right₀ (by norm_num) (by norm_num)
  rcases u with s | _ | s | ⟨s, m, e, hm⟩
  · exact hu.elim
  · exact hu.elim
  · rcases v with t | _ | t | ⟨t, k, i, hk⟩
    · exact hv.elim
    · exact hv.elim
    · rw [UnpackedFloat.add]
      split <;> exact ⟨trivial, le_rfl, hulow⟩
    · exact ⟨hv, size_nonneg _, hvlow.trans hbounds⟩
  · cases s with
    | negative => exact hu.elim
    | positive =>
      rcases v with t | _ | t | ⟨t, k, i, hk⟩
      · exact hv.elim
      · exact hv.elim
      · exact ⟨hu, le_rfl, hulow⟩
      · cases t with
        | negative => exact hv.elim
        | positive =>
          obtain ⟨n, l, hn, hl, hvalue, hadd⟩ := add_positive_eq (e := e) (i := i) hm hk
          simp only [size] at hulow hvlow
          have hsum : (n : ℚ) * 2 ^ l < (2 ^ 53 + 1) * 2 ^ (967 : ℤ) := by
            rw [hvalue]
            refine (add_le_add hulow hvlow).trans_lt ?_
            rw [add_mul, one_mul]
            exact add_lt_add_of_le_of_lt two_zpow_bound.le
              (zpow_lt_zpow_right₀ (by norm_num) (by norm_num))
          obtain ⟨hplace, hle⟩ := rounded_le_bound hn hl hsum
          obtain ⟨hcanonical, hsize⟩ := round_canonical hn hl hplace
          rw [hadd]
          refine ⟨hcanonical, ?_, hsize.trans_le hle⟩
          rw [hsize, size]
          refine le_rounded hn hl hu.1 hu.2.1 (hvalue ▸ ?_)
          have hpos : (0 : ℚ) ≤ k * 2 ^ i := by positivity
          linarith

/-- A length that is added to a sum of lengths leads to such a sum again,
which is not smaller. -/
theorem add_isLength (hx : IsLength x) (hy : IsLength y) (hxlow : magnitude x ≤ 2 ^ (1020 : ℤ))
    (hylow : magnitude y ≤ 2 ^ (960 : ℤ)) :
    IsLength (x + y) ∧ magnitude x ≤ magnitude (x + y) ∧ magnitude (x + y) ≤ 2 ^ (1020 : ℤ) := by
  rw [isLength_iff] at hx hy ⊢
  have hadd := add_canonical hx hy hxlow hylow
  have hsum : (x + y).toModel.unpack =
      UnpackedFloat.add Format.binary64 x.toModel.unpack y.toModel.unpack := hadd.1.stored
  rw [magnitude, magnitude, hsum]
  exact hadd

/-! ## Square roots -/

theorem mantissa_repeat (em : ExtendedMantissa) (n : ℕ) :
    (n.repeat ExtendedMantissa.shiftRightOne em).mantissa = em.mantissa / 2 ^ n := by
  induction n with
  | zero => simp [Nat.repeat]
  | succ n ih =>
      rw [pow_succ, ← Nat.div_div_eq_div_mul, ← ih]
      rfl

/-- However close the exact result is, rounding adds one at most. -/
theorem roundWithAccuracy_le (s : Sign) (m : ℕ) (e : ℤ) (accuracy : Accuracy) :
    ∃ r, r ≤ m / 2 ^ (fit m e - e).toNat + 1 ∧ roundWithAccuracy Format.binary64 s m e accuracy =
      if h : kept r (level m e) = 0 then .zero s
      else .finite s (kept r (level m e)) (level r (level m e)) (Nat.pos_of_ne_zero h) := by
  have hshift : shiftToTargetExponent Format.binary64 m e accuracy =
      ((fit m e - e).toNat.repeat ExtendedMantissa.shiftRightOne (.ofMantissaAndAccuracy m accuracy),
        level m e) := by
    rw [shiftToTargetExponent, targetExponent_eq, ← add_shift_eq_level]
    rfl
  refine ⟨_, (roundedMantissa_bounds _).2.trans_eq ?_, roundWithAccuracy_of_shift hshift⟩
  rw [mantissa_repeat]
  cases accuracy with
  | exact => rfl
  | inexact o => cases o <;> rfl

/-- What is stored of a small result is a length. -/
theorem round_small {accuracy : Accuracy} (he : e ≤ 959) (h : (m : ℚ) * 2 ^ e ≤ 2 ^ (959 : ℤ)) :
    Canonical (UnpackedFloat.unpack Format.binary64 (UnpackedFloat.pack Format.binary64
        (roundWithAccuracy Format.binary64 .positive m e accuracy))) ∧
      size (UnpackedFloat.unpack Format.binary64 (UnpackedFloat.pack Format.binary64
        (roundWithAccuracy Format.binary64 .positive m e accuracy))) ≤ 2 ^ (960 : ℤ) := by
  obtain ⟨r, hr, heq⟩ := roundWithAccuracy_le .positive m e accuracy
  have hlevel : level m e ≤ 959 := by
    by_cases hm : m = 0
    · rw [level, fit, hm, Nat.log2_zero]
      omega
    · have hlog := log2_add_lt (k := 1) hm (by norm_num) (h.trans_eq (one_mul _).symm)
      rw [level, fit]
      omega
  have hvalue : (r : ℚ) * 2 ^ level m e ≤ (1 : ℕ) * 2 ^ (960 : ℤ) := by
    have hfloor : ((m / 2 ^ (fit m e - e).toNat : ℕ) : ℚ) * 2 ^ level m e ≤ m * 2 ^ e := by
      have hle := Nat.div_mul_le_self m (2 ^ (fit m e - e).toNat)
      rw [← add_shift_eq_level, zpow_add₀ (by norm_num), zpow_natCast, mul_comm (2 ^ e), ← mul_assoc]
      exact mul_le_mul_of_nonneg_right (by exact_mod_cast hle) (by positivity)
    calc (r : ℚ) * 2 ^ level m e
        ≤ ((m / 2 ^ (fit m e - e).toNat : ℕ) + 1) * 2 ^ level m e :=
          mul_le_mul_of_nonneg_right (by exact_mod_cast hr) (by positivity)
      _ ≤ m * 2 ^ e + 2 ^ level m e := by rw [add_mul, one_mul]; linarith
      _ ≤ 2 ^ (959 : ℤ) + 2 ^ (959 : ℤ) :=
          add_le_add h (zpow_le_zpow_right₀ (by norm_num) hlevel)
      _ = (1 : ℕ) * 2 ^ (960 : ℤ) := by
          rw [show (960 : ℤ) = 1 + 959 from rfl, zpow_one_add₀ (by norm_num)]
          ring
  have hagain : level r (level m e) ≤ 971 :=
    max_le (by omega) (fit_le (by omega) (by norm_num) (by norm_num) hvalue)
  have hlow : -1074 ≤ level r (level m e) := (le_max_right _ _).trans (le_max_right _ _)
  have hkept := (kept_le r (level m e)).trans hvalue
  rw [Nat.cast_one, one_mul] at hkept
  rw [heq]
  split
  · rw [Canonical.stored (u := .zero .positive) trivial]
    exact ⟨trivial, by simp only [size]; positivity⟩
  · rename_i hpos
    obtain ⟨e', hstored, hle, -⟩ := unpack_pack_finite .positive (Nat.pos_of_ne_zero hpos)
      (kept_lt r (level m e)) hlow hagain
    have hbounds := bounds_of_unpack hstored
    rw [hstored]
    refine ⟨hbounds, le_trans ?_ hkept⟩
    exact mul_le_mul_of_nonneg_left (zpow_le_zpow_right₀ (by norm_num) hle) (by positivity)

/-- The root is not larger than the square root of the exact number. -/
theorem sqrtCore_le (hm : m < 2 ^ 53) (he : e ≤ 971) :
    (sqrtCore Format.binary64 m e).2.1 ≤ 959 ∧
      ((sqrtCore Format.binary64 m e).1 : ℚ) * 2 ^ (sqrtCore Format.binary64 m e).2.1 ≤ 2 ^ (959 : ℤ) := by
  rw [sqrtCore]
  dsimp only
  generalize ht : min (e.ediv 2) _ = t
  have hdouble : 2 * t ≤ e := by
    have hle : t ≤ e.ediv 2 := ht ▸ min_le_left _ _
    have hdiv : e.ediv 2 = e / 2 := rfl
    omega
  refine ⟨by omega, ?_⟩
  rw [Nat.shiftLeft_eq]
  generalize hroot : (m * 2 ^ (e - 2 * t).toNat).sqrt = root
  have hsquare : root * root ≤ m * 2 ^ (e - 2 * t).toNat := hroot ▸ Nat.sqrt_le _
  have hpower : ((root : ℚ) * 2 ^ t) ^ 2 ≤ (2 ^ (512 : ℤ)) ^ 2 :=
    calc ((root : ℚ) * 2 ^ t) ^ 2 = ((root * root : ℕ) : ℚ) * 2 ^ (2 * t) := by
          rw [two_mul, zpow_add₀ (by norm_num)]
          push_cast
          ring
      _ ≤ ((m * 2 ^ (e - 2 * t).toNat : ℕ) : ℚ) * 2 ^ (2 * t) :=
          mul_le_mul_of_nonneg_right (by exact_mod_cast hsquare) (by positivity)
      _ = m * 2 ^ e := by
          rw [two_zpow_split hdouble]
          push_cast
          ring
      _ ≤ 2 ^ 53 * 2 ^ (971 : ℤ) := mul_le_mul (by exact_mod_cast hm.le)
          (zpow_le_zpow_right₀ (by norm_num) he) (by positivity) (by positivity)
      _ = (2 ^ (512 : ℤ)) ^ 2 := by
          rw [← zpow_natCast (2 : ℚ) 53, ← zpow_add₀ (by norm_num),
            ← zpow_natCast ((2 : ℚ) ^ (512 : ℤ)) 2, ← zpow_mul]
          congr 1
  have hle := le_of_sq_le_sq hpower (zpow_nonneg (by norm_num) _)
  exact hle.trans (zpow_le_zpow_right₀ (by norm_num) (by norm_num))

/-- A square root that is finite is a length, and far from the bound of
sums. -/
theorem sqrt_isLength (h : x.sqrt.isFinite = true) :
    IsLength x.sqrt ∧ magnitude x.sqrt ≤ 2 ^ (960 : ℤ) := by
  have hstored : x.sqrt.toModel.unpack = UnpackedFloat.unpack Format.binary64
      (UnpackedFloat.pack Format.binary64 (UnpackedFloat.sqrt Format.binary64 x.toModel.unpack)) := rfl
  have hfinite : x.sqrt.isFinite = x.sqrt.toModel.unpack.isFinite := rfl
  rw [isLength_iff, magnitude]
  rw [hfinite] at h
  rw [hstored] at h ⊢
  cases hu : x.toModel.unpack with
  | notANumber => rw [hu] at h; exact absurd h (by decide)
  | infinity s => rw [hu] at h; cases s <;> exact absurd h (by decide)
  | zero s =>
      rw [UnpackedFloat.sqrt, Canonical.stored (u := .zero s) trivial]
      exact ⟨trivial, by simp only [size]; positivity⟩
  | finite s m e hm =>
      cases s with
      | negative => rw [hu, UnpackedFloat.sqrt] at h; exact absurd h (by decide)
      | positive =>
          obtain ⟨hbits, -, hhigh, -⟩ := bounds_of_unpack hu
          obtain ⟨he, hle⟩ := sqrtCore_le hbits hhigh
          exact round_small he hle

/-! ## What a finite result is made of -/

theorem isFinite_of_stored
    (h : (UnpackedFloat.unpack Format.binary64 (UnpackedFloat.pack Format.binary64 u)).isFinite = true) :
    u.isFinite = true := by
  cases u with
  | notANumber => exact absurd h (by decide)
  | infinity s => cases s <;> exact absurd h (by decide)
  | zero s => rfl
  | finite s m e hm => rfl

theorem isFinite_of_sqrt (h : x.sqrt.isFinite = true) : x.isFinite = true := by
  have hunpacked : ∀ u, (UnpackedFloat.sqrt Format.binary64 u).isFinite = true → u.isFinite = true := by
    rintro (s | _ | s | ⟨s, m, e, hm⟩) hroot
    · cases s <;> cases hroot
    · cases hroot
    · rfl
    · rfl
  exact hunpacked _ (isFinite_of_stored h)

theorem isFinite_of_mul (h : (x * y).isFinite = true) : x.isFinite = true ∧ y.isFinite = true := by
  have hunpacked : ∀ u v, (UnpackedFloat.mul Format.binary64 u v).isFinite = true →
      u.isFinite = true ∧ v.isFinite = true := by
    rintro (s | _ | s | ⟨s, m, e, hm⟩) (t | _ | t | ⟨t, n, f, hn⟩) hproduct <;>
      first
        | exact ⟨rfl, rfl⟩
        | cases hproduct
  exact hunpacked _ _ (isFinite_of_stored h)

theorem isFinite_of_add (h : (x + y).isFinite = true) : x.isFinite = true ∧ y.isFinite = true := by
  have hunpacked : ∀ u v, (UnpackedFloat.add Format.binary64 u v).isFinite = true →
      u.isFinite = true ∧ v.isFinite = true := by
    rintro (s | _ | s | ⟨s, m, e, hm⟩) (t | _ | t | ⟨t, n, f, hn⟩) hsum <;>
      first
        | exact ⟨rfl, rfl⟩
        | cases hsum
        | (cases s <;> cases t <;> cases hsum)
  exact hunpacked _ _ (isFinite_of_stored h)

theorem isFinite_of_sub (h : (x - y).isFinite = true) : x.isFinite = true ∧ y.isFinite = true := by
  have hunpacked : ∀ u v, (UnpackedFloat.sub Format.binary64 u v).isFinite = true →
      u.isFinite = true ∧ v.isFinite = true := by
    rintro (s | _ | s | ⟨s, m, e, hm⟩) (t | _ | t | ⟨t, n, f, hn⟩) hdifference <;>
      first
        | exact ⟨rfl, rfl⟩
        | cases hdifference
        | (cases s <;> cases t <;> cases hdifference)
  exact hunpacked _ _ (isFinite_of_stored h)

/-! ## Differences both ways -/

/-- The same but for the sign. -/
inductive Mirrored : UnpackedFloat → UnpackedFloat → Prop
  | notANumber : Mirrored .notANumber .notANumber
  | infinity (s t : Sign) : Mirrored (.infinity s) (.infinity t)
  | zero (s t : Sign) : Mirrored (.zero s) (.zero t)
  | finite (s t : Sign) (m : ℕ) (e : ℤ) (hm : 0 < m) : Mirrored (.finite s m e hm) (.finite t m e hm)

theorem Mirrored.refl (u : UnpackedFloat) : Mirrored u u := by
  cases u with
  | notANumber => exact .notANumber
  | infinity s => exact .infinity s s
  | zero s => exact .zero s s
  | finite s m e hm => exact .finite s s m e hm

theorem Mirrored.mul_self (h : Mirrored u v) :
    UnpackedFloat.mul Format.binary64 u u = UnpackedFloat.mul Format.binary64 v v := by
  have hsign : ∀ s : Sign, s * s = .positive := fun s => by cases s <;> rfl
  cases h with
  | notANumber => rfl
  | infinity s t => simp only [UnpackedFloat.mul, hsign]
  | zero s t => simp only [UnpackedFloat.mul, hsign]
  | finite s t m e hm => simp only [UnpackedFloat.mul, hsign]

theorem mirrored_packComponents (s t : Sign) (exponent : BitVec 11) (mantissa : BitVec 52) :
    Mirrored (UnpackedFloat.unpack Format.binary64 (packComponents Format.binary64 s exponent mantissa))
      (UnpackedFloat.unpack Format.binary64 (packComponents Format.binary64 t exponent mantissa)) := by
  rw [UnpackedFloat.unpack, UnpackedFloat.unpack]
  simp only [unpackExponent_packComponents, unpackMantissa_packComponents, ofBitVec_unpackSign]
  split
  · split
    · exact .infinity s t
    · exact .notANumber
  · split
    · split
      · exact .zero s t
      · exact .finite s t _ _ _
    · exact .finite s t _ _ _

/-- What is stored of two such numbers differs in the sign only. -/
theorem Mirrored.stored (h : Mirrored u v) :
    Mirrored (UnpackedFloat.unpack Format.binary64 (UnpackedFloat.pack Format.binary64 u))
      (UnpackedFloat.unpack Format.binary64 (UnpackedFloat.pack Format.binary64 v)) := by
  cases h with
  | notANumber => exact .refl _
  | infinity s t => exact mirrored_packComponents s t _ _
  | zero s t => exact mirrored_packComponents s t _ _
  | finite s t m e hm =>
      rw [UnpackedFloat.pack, UnpackedFloat.pack]
      dsimp only
      split
      · exact mirrored_packComponents s t _ _
      · split <;> exact mirrored_packComponents s t _ _

theorem mirrored_round (s t : Sign) (m : ℕ) (e : ℤ) :
    Mirrored (UnpackedFloat.round Format.binary64 s m e) (UnpackedFloat.round Format.binary64 t m e) := by
  unfold UnpackedFloat.round roundWithAccuracy
  dsimp only
  split
  · exact .zero s t
  · exact .finite s t _ _ _

/-- A number is rounded like its opposite. -/
theorem mirrored_normalize (a e : ℤ) (s : Sign) :
    Mirrored (UnpackedFloat.normalize Format.binary64 a e s)
      (UnpackedFloat.normalize Format.binary64 (-a) e s) := by
  rcases lt_trichotomy a 0 with h | rfl | h
  · have hneg : compare (-a) 0 = .gt := compare_gt_iff_gt.mpr (by omega)
    rw [UnpackedFloat.normalize, UnpackedFloat.normalize, compare_lt_iff_lt.mpr h, hneg]
    exact mirrored_round _ _ _ _
  · exact .refl _
  · have hneg : compare (-a) 0 = .lt := compare_lt_iff_lt.mpr (by omega)
    rw [UnpackedFloat.normalize, UnpackedFloat.normalize, compare_gt_iff_gt.mpr h, hneg]
    dsimp only
    rw [Int.neg_neg]
    exact mirrored_round _ _ _ _

theorem mirrored_sub (u v : UnpackedFloat) :
    Mirrored (UnpackedFloat.sub Format.binary64 u v) (UnpackedFloat.sub Format.binary64 v u) := by
  rcases u with s | _ | s | ⟨s, m, i, hm⟩ <;> rcases v with t | _ | t | ⟨t, k, j, hk⟩
  case finite.finite =>
    have hopposite : ∀ a b : ℤ, b - a = -(a - b) := fun a b => (Int.neg_sub a b).symm
    rw [UnpackedFloat.sub, UnpackedFloat.sub]
    dsimp only
    rw [min_comm j i, hopposite (s.apply _) (t.apply _)]
    exact mirrored_normalize _ _ _
  case infinity.infinity => cases s <;> cases t <;> first | exact .notANumber | exact .infinity _ _
  case zero.zero => cases s <;> cases t <;> exact .zero _ _
  all_goals first
    | exact .notANumber
    | exact .infinity _ _
    | exact .finite _ _ _ _ _

/-- The square of a difference is the same both ways round. -/
theorem sub_mul_sub_comm (x y : Float) : (x - y) * (x - y) = (y - x) * (y - x) := by
  have hsquare : ∀ z : Float, z * z = .ofModel (Float.Model.pack
      (UnpackedFloat.mul Format.binary64 z.toModel.unpack z.toModel.unpack)) := fun _ => rfl
  have hmirrored : Mirrored (x - y).toModel.unpack (y - x).toModel.unpack :=
    (mirrored_sub x.toModel.unpack y.toModel.unpack).stored
  rw [hsquare, hsquare, hmirrored.mul_self]

end Binary64
end FieldScript
