import FieldScript.Proofs.FloatOrder

/-!
# Rounding and storing binary64 numbers

A result of arithmetic is a mantissa of any length and an exponent. It is
rounded by halving the mantissa while the exponent grows, and stored in
its bits. `roundWithAccuracy_eq` says what rounding does in terms of
division. What is not larger than a number that can be stored is rounded
to one that is not larger either (`storable_roundWithAccuracy`): that is
why an overflow needs a result beyond the greatest number. Storing keeps
the mantissa (`unpack_pack_finite`).
-/

namespace FieldScript
namespace Binary64

open Float.Model Float.Model.UnpackedFloat

/-! ## Halving -/

/-- The mantissa after some halvings, with what is left over. -/
def halved (m n : ℕ) : ExtendedMantissa :=
  n.repeat ExtendedMantissa.shiftRightOne (.ofMantissaAndAccuracy m .exact)

theorem halved_mantissa (m n : ℕ) : (halved m n).mantissa = m / 2 ^ n := by
  induction n with
  | zero => simp [halved, Nat.repeat, ExtendedMantissa.ofMantissaAndAccuracy]
  | succ n ih =>
      have hstep : (halved m (n + 1)).mantissa = (halved m n).mantissa / 2 := rfl
      rw [hstep, ih, Nat.div_div_eq_div_mul, ← pow_succ]

/-- Nothing is left over of a multiple. -/
theorem halved_exact {m n : ℕ} (h : 2 ^ n ∣ m) :
    (halved m n).roundBit = false ∧ (halved m n).stickyBit = false := by
  induction n with
  | zero => exact ⟨rfl, rfl⟩
  | succ n ih =>
      obtain ⟨hround, hsticky⟩ := ih (dvd_trans (pow_dvd_pow 2 n.le_succ) h)
      have heven : (halved m n).mantissa % 2 = 0 := by
        rw [halved_mantissa]
        obtain ⟨k, rfl⟩ := h
        rw [pow_succ, mul_assoc, Nat.mul_div_cancel_left _ (by positivity)]
        simp
      have hbit : (halved m (n + 1)).roundBit = ((halved m n).mantissa % 2 != 0) := rfl
      have hrest : (halved m (n + 1)).stickyBit =
        ((halved m n).roundBit || (halved m n).stickyBit) := rfl
      simp [hbit, hrest, heven, hround, hsticky]

theorem roundedMantissa_bounds (em : ExtendedMantissa) :
    em.mantissa ≤ em.roundedMantissa ∧ em.roundedMantissa ≤ em.mantissa + 1 := by
  rcases em with ⟨m, _ | _, _ | _⟩ <;>
    simp only [ExtendedMantissa.roundedMantissa, ExtendedMantissa.accuracy,
      Accuracy.roundToNearestEven] <;> omega

/-- Rounding does not pass an integer. -/
theorem rounded_halved_le {m n k : ℕ} (h : m ≤ k * 2 ^ n) :
    (halved m n).roundedMantissa ≤ k := by
  rcases h.eq_or_lt with heq | hlt
  · obtain ⟨hround, hsticky⟩ := halved_exact (heq ▸ Dvd.intro_left k rfl : 2 ^ n ∣ m)
    have hexact : (halved m n).roundedMantissa = (halved m n).mantissa := by
      simp only [ExtendedMantissa.roundedMantissa]
      rw [show (halved m n).accuracy = .exact by
        rcases hm : halved m n with ⟨q, r, s⟩
        rw [hm] at hround hsticky
        obtain rfl := hround
        obtain rfl := hsticky
        rfl]
      rfl
    rw [hexact, halved_mantissa, heq, Nat.mul_div_cancel _ (by positivity)]
  · have hless : m / 2 ^ n < k := (Nat.div_lt_iff_lt_mul (by positivity)).mpr hlt
    have hround := (roundedMantissa_bounds (halved m n)).2
    rw [halved_mantissa] at hround
    omega

/-! ## The result of rounding -/

/-- The least exponent that a number can be written with. -/
def fit (m : ℕ) (e : ℤ) : ℤ := max ((m.log2 : ℤ) + e - 52) (-1074)

theorem targetExponent_eq (m : ℕ) (e : ℤ) :
    Format.binary64.targetExponent (totalExponent m e) = fit m e := by
  have hmin : Format.binary64.minExponent = -1074 := by decide
  have hbits : (Format.binary64.mantissaBits : ℤ) = 53 := by decide
  rw [Format.targetExponent, totalExponent, hmin, hbits, fit]
  omega

theorem shiftToTargetExponent_eq (m : ℕ) (e : ℤ) :
    shiftToTargetExponent Format.binary64 m e .exact =
      (halved m (fit m e - e).toNat, e + (fit m e - e).toNat) := by
  rw [shiftToTargetExponent, targetExponent_eq]
  rfl

/-- The exponent after rounding. -/
def level (m : ℕ) (e : ℤ) : ℤ := max e (fit m e)

theorem le_level (m : ℕ) (e : ℤ) : e ≤ level m e := le_max_left _ _

/-- A mantissa, rounded where the exponent is raised. -/
def rounded (m : ℕ) (e : ℤ) : ℕ := (halved m (fit m e - e).toNat).roundedMantissa

/-- The mantissa that is left if the exponent has to be raised once more. -/
def kept (n : ℕ) (l : ℤ) : ℕ := n / 2 ^ (fit n l - l).toNat

theorem add_shift_eq_level (m : ℕ) (e : ℤ) : e + (fit m e - e).toNat = level m e := by
  rw [level]
  omega

/-- After the first shift the mantissa is rounded, and shifted once more if
that took a bit too many. -/
theorem roundWithAccuracy_of_shift {s : Sign} {m : ℕ} {e l : ℤ} {accuracy : Accuracy}
    {em : ExtendedMantissa} (h : shiftToTargetExponent Format.binary64 m e accuracy = (em, l)) :
    roundWithAccuracy Format.binary64 s m e accuracy =
      if h : kept em.roundedMantissa l = 0 then .zero s
      else .finite s (kept em.roundedMantissa l) (level em.roundedMantissa l)
        (Nat.pos_of_ne_zero h) := by
  rw [roundWithAccuracy]
  simp only [h, shiftToTargetExponent_eq, halved_mantissa, add_shift_eq_level]
  rfl

theorem roundWithAccuracy_eq (s : Sign) (m : ℕ) (e : ℤ) :
    roundWithAccuracy Format.binary64 s m e .exact =
      if h : kept (rounded m e) (level m e) = 0 then .zero s
      else .finite s (kept (rounded m e) (level m e)) (level (rounded m e) (level m e))
        (Nat.pos_of_ne_zero h) :=
  roundWithAccuracy_of_shift (by rw [shiftToTargetExponent_eq, add_shift_eq_level])

/-! ## Rounding does not pass what can be stored -/

/-- The distance from zero of a finite number. -/
def size : UnpackedFloat → ℚ
  | .finite _ m e _ => m * 2 ^ e
  | _ => 0

theorem size_nonneg (u : UnpackedFloat) : 0 ≤ size u := by
  cases u <;> simp only [size] <;> positivity

theorem two_zpow_split {i j : ℤ} (h : i ≤ j) : (2 : ℚ) ^ j = 2 ^ (j - i).toNat * 2 ^ i := by
  rw [← zpow_natCast, ← zpow_add₀ (by norm_num)]
  congr 1
  omega

theorem log2_add_lt {m k : ℕ} {e j : ℤ} (hm : m ≠ 0) (hk : k < 2 ^ 53)
    (h : (m : ℚ) * 2 ^ e ≤ k * 2 ^ j) : (m.log2 : ℤ) + e < 53 + j := by
  have hlow : (2 : ℚ) ^ ((m.log2 : ℤ) + e) ≤ m * 2 ^ e := by
    rw [zpow_add₀ (by norm_num), zpow_natCast]
    exact mul_le_mul_of_nonneg_right (by exact_mod_cast Nat.log2_self_le hm) (by positivity)
  have hhigh : (k : ℚ) * 2 ^ j < 2 ^ (53 + j) := by
    rw [zpow_add₀ (by norm_num)]
    exact mul_lt_mul_of_pos_right (by exact_mod_cast hk) (by positivity)
  exact (zpow_lt_zpow_iff_right₀ (by norm_num)).mp (hlow.trans_lt (h.trans_lt hhigh))

theorem rounded_le {m k : ℕ} {e j : ℤ} (hk : k < 2 ^ 53) (hj : -1074 ≤ j)
    (h : (m : ℚ) * 2 ^ e ≤ k * 2 ^ j) : (rounded m e : ℚ) * 2 ^ level m e ≤ k * 2 ^ j := by
  by_cases hfit : fit m e ≤ e
  · -- nothing is shifted
    have hshift : (fit m e - e).toNat = 0 := by omega
    have hlevel : level m e = e := max_eq_left hfit
    have hrounded : rounded m e = m := by rw [rounded, hshift]; rfl
    rwa [hlevel, hrounded]
  · have hlevel : level m e = fit m e := max_eq_right (by omega)
    by_cases hm : m = 0
    · subst hm
      have hzero : rounded 0 e = 0 := Nat.le_zero.mp (rounded_halved_le (by simp))
      rw [hzero]
      simp only [Nat.cast_zero, zero_mul]
      positivity
    · have hlog := log2_add_lt hm hk h
      have hle : fit m e ≤ j := by rw [fit]; omega
      have hsteps : (m : ℚ) ≤ (k * 2 ^ (j - fit m e).toNat : ℕ) * 2 ^ (fit m e - e).toNat := by
        rw [two_zpow_split hle, two_zpow_split (not_le.mp hfit).le, ← mul_assoc, ← mul_assoc] at h
        have := le_of_mul_le_mul_right h (by positivity)
        exact_mod_cast this
      have hrounded : rounded m e ≤ k * 2 ^ (j - fit m e).toNat :=
        rounded_halved_le (by exact_mod_cast hsteps)
      rw [hlevel, two_zpow_split hle, ← mul_assoc]
      exact mul_le_mul_of_nonneg_right (by exact_mod_cast hrounded) (by positivity)

/-- Zero, or a number with a mantissa and an exponent that can be stored. -/
def Storable : UnpackedFloat → Prop
  | .zero _ => True
  | .finite _ m e _ => m < 2 ^ 53 ∧ -1074 ≤ e ∧ e ≤ 971
  | _ => False

theorem kept_lt (n : ℕ) (l : ℤ) : kept n l < 2 ^ 53 := by
  rw [kept]
  by_cases hn : n = 0
  · simp [hn]
  · rw [Nat.div_lt_iff_lt_mul (by positivity), ← pow_add]
    refine (Nat.lt_log2_self (n := n)).trans_le (Nat.pow_le_pow_right (by norm_num) ?_)
    rw [fit]
    omega

theorem fit_le {m k : ℕ} {e j : ℤ} (he : e ≤ 971) (hk : k < 2 ^ 53) (hj : j ≤ 971)
    (h : (m : ℚ) * 2 ^ e ≤ k * 2 ^ j) : fit m e ≤ 971 := by
  rw [fit]
  by_cases hm : m = 0
  · rw [hm, Nat.log2_zero]
    omega
  · have hlog := log2_add_lt hm hk h
    omega

/-- The second shift does not pass the number. -/
theorem kept_le (n : ℕ) (l : ℤ) : (kept n l : ℚ) * 2 ^ level n l ≤ n * 2 ^ l := by
  have hkept : kept n l * 2 ^ (level n l - l).toNat ≤ n := by
    have hshift : (level n l - l).toNat = (fit n l - l).toNat := by
      rw [level]
      omega
    rw [hshift]
    exact Nat.div_mul_le_self _ _
  calc (kept n l : ℚ) * 2 ^ level n l = ((kept n l * 2 ^ (level n l - l).toNat : ℕ) : ℚ) * 2 ^ l := by
        rw [two_zpow_split (le_level n l)]
        push_cast
        ring
    _ ≤ n * 2 ^ l := mul_le_mul_of_nonneg_right (by exact_mod_cast hkept) (by positivity)

/-- What is not larger than a number that can be stored is rounded to such
a number. -/
theorem storable_roundWithAccuracy (s : Sign) {m k : ℕ} {e j : ℤ} (hk : k < 2 ^ 53) (hlow : -1074 ≤ j)
    (hhigh : j ≤ 971) (he : e ≤ 971) (h : (m : ℚ) * 2 ^ e ≤ k * 2 ^ j) :
    Storable (roundWithAccuracy Format.binary64 s m e .exact) ∧
      size (roundWithAccuracy Format.binary64 s m e .exact) ≤ k * 2 ^ j := by
  have hrounded := rounded_le hk hlow h
  have hlevel : level m e ≤ 971 := max_le he (fit_le he hk hhigh h)
  have hagain : level (rounded m e) (level m e) ≤ 971 := max_le hlevel (fit_le hlevel hk hhigh hrounded)
  rw [roundWithAccuracy_eq]
  generalize rounded m e = n at *
  generalize hl : level m e = l at *
  split
  · exact ⟨trivial, by simp only [size]; positivity⟩
  · have hleast : -1074 ≤ l := by
      rw [← hl, level, fit]
      omega
    exact ⟨⟨kept_lt n l, by rw [level]; omega, hagain⟩, (kept_le n l).trans hrounded⟩

/-! ## Storing -/

/-- A mantissa has 53 bits unless the exponent is the least one. -/
theorem bounds_of_unpack {b : BitVec Format.binary64.numBits} {s : Sign} {m : ℕ} {e : ℤ} {hm : 0 < m}
    (h : unpack Format.binary64 b = .finite s m e hm) :
    m < 2 ^ 53 ∧ -1074 ≤ e ∧ e ≤ 971 ∧ (2 ^ 52 ≤ m ∨ e = -1074) := by
  have hbias : ((Format.binary64.exponentBias : ℤ) + Format.binary64.mantissaBitsWithoutImplicit) = 1075 := by
    decide
  have hexponent := (unpackExponent b).isLt
  have hmantissa := (unpackMantissa b).isLt
  replace hexponent : (unpackExponent b).toNat < 2 ^ 11 := hexponent
  replace hmantissa : (unpackMantissa b).toNat < 2 ^ 52 := hmantissa
  rw [UnpackedFloat.unpack, hbias] at h
  dsimp only at h
  split at h
  · split at h <;> cases h
  · rename_i hordinary
    split at h
    · rename_i hzero
      split at h
      · cases h
      · cases h
        rw [hzero]
        exact ⟨by omega, by decide, by decide, Or.inr rfl⟩
    · rename_i hnonzero
      cases h
      have hpositive : (unpackExponent b).toNat ≠ 0 := fun h => hnonzero (BitVec.eq_of_toNat_eq h)
      have hgreatest : (unpackExponent b).toNat ≠ 2047 := fun h => hordinary (BitVec.eq_of_toNat_eq h)
      have happend : (1#1 ++ unpackMantissa b).toNat = 2 ^ 52 + (unpackMantissa b).toNat := by
        rw [BitVec.toNat_append, ← Nat.shiftLeft_add_eq_or_of_lt hmantissa]
        rfl
      rw [happend]
      omega

/-- The sign that is read is the one that was stored. -/
theorem ofBitVec_unpackSign (s : Sign) (exponent : BitVec 11) (mantissa : BitVec 52) :
    Sign.ofBitVec (unpackSign (packComponents Format.binary64 s exponent mantissa)) = s := by
  rw [unpackSign, packComponents, BitVec.extractLsb,
    BitVec.extractLsb'_append_eq_of_le (by decide), BitVec.extractLsb'_append_eq_of_le (by decide)]
  cases s <;> rfl

/-- A mantissa of 53 bits is stored without the first one. -/
theorem unpack_full (s : Sign) {m : ℕ} {e : ℤ} (hm : 0 < m) (hleast : 2 ^ 52 ≤ m)
    (hbits : m < 2 ^ 53) (hlow : -1074 ≤ e) (hhigh : e ≤ 971) :
    UnpackedFloat.unpack Format.binary64 (packComponents Format.binary64 s
        (BitVec.ofNat 11 (e + 1075).toNat) (BitVec.ofNat 52 m)) = .finite s m e hm := by
  have hexponent : (BitVec.ofNat 11 (e + 1075).toNat).toNat = (e + 1075).toNat := by
    rw [BitVec.toNat_ofNat]
    omega
  have hmantissa : (1#1 ++ BitVec.ofNat 52 m).toNat = m := by
    rw [BitVec.toNat_append, ← Nat.shiftLeft_add_eq_or_of_lt (BitVec.isLt _), BitVec.toNat_ofNat]
    show 2 ^ 52 + m % 2 ^ 52 = m
    omega
  have hordinary : BitVec.ofNat 11 (e + 1075).toNat ≠ -1#11 := by
    intro heq
    have hnat := congrArg BitVec.toNat heq
    rw [hexponent] at hnat
    replace hnat : (e + 1075).toNat = 2047 := hnat
    omega
  have hnonzero : BitVec.ofNat 11 (e + 1075).toNat ≠ 0#11 := by
    intro heq
    have hnat := congrArg BitVec.toNat heq
    rw [hexponent] at hnat
    replace hnat : (e + 1075).toNat = 0 := hnat
    omega
  rw [UnpackedFloat.unpack]
  have hexact : ((e + 1075).toNat : ℤ) - (Format.binary64.exponentBias +
      Format.binary64.mantissaBitsWithoutImplicit) = e := by
    show ((e + 1075).toNat : ℤ) - (1023 + 52) = e
    omega
  simp only [unpackExponent_packComponents, unpackMantissa_packComponents, hordinary, hnonzero,
    if_false, hmantissa, hexponent, ofBitVec_unpackSign, hexact]

/-- A shorter mantissa is stored as it is, with the least exponent. -/
theorem unpack_short (s : Sign) {m : ℕ} (hm : 0 < m) (hfew : m < 2 ^ 52) :
    UnpackedFloat.unpack Format.binary64
      (packComponents Format.binary64 s (0#11) (BitVec.ofNat 52 m)) = .finite s m (-1074) hm := by
  have hmantissa : (BitVec.ofNat 52 m).toNat = m := by
    rw [BitVec.toNat_ofNat]
    omega
  have hnonzero : BitVec.ofNat 52 m ≠ 0#52 := by
    intro heq
    have hnat := congrArg BitVec.toNat heq
    rw [hmantissa] at hnat
    exact hm.ne' hnat
  have hordinary : (0#11 : BitVec 11) ≠ -1#11 := by decide
  rw [UnpackedFloat.unpack]
  simp only [unpackExponent_packComponents, unpackMantissa_packComponents, hordinary, hnonzero,
    if_false, if_true, dif_neg, not_false_eq_true, hmantissa, ofBitVec_unpackSign]
  rfl

/-- What is stored has the same mantissa and no larger exponent, and the
same one if it is the least with this mantissa. -/
theorem unpack_pack_finite (s : Sign) {m : ℕ} {e : ℤ} (hm : 0 < m) (hbits : m < 2 ^ 53)
    (hlow : -1074 ≤ e) (hhigh : e ≤ 971) :
    ∃ e', UnpackedFloat.unpack Format.binary64 (UnpackedFloat.pack Format.binary64 (.finite s m e hm))
      = .finite s m e' hm ∧ e' ≤ e ∧ (2 ^ 52 ≤ m ∨ e = -1074 → e' = e) := by
  have hbias : (e + Format.binary64.exponentBias + Format.binary64.mantissaBitsWithoutImplicit).toNat
      = (e + 1075).toNat := by
    congr 1
    show e + 1023 + 52 = _
    omega
  rw [UnpackedFloat.pack]
  simp only [hbias]
  rw [if_neg (by show ¬ 2 ^ 11 ≤ _; omega)]
  split
  · rename_i hlog
    replace hlog : m.log2 + 1 = 53 := hlog
    have hleast : 2 ^ 52 ≤ m := (Nat.le_log2 hm.ne').mp (by omega)
    exact ⟨e, unpack_full s hm hleast hbits hlow hhigh, le_refl _, fun _ => rfl⟩
  · rename_i hlog
    replace hlog : m.log2 + 1 ≠ 53 := hlog
    have hlt := (Nat.log2_lt hm.ne').mpr hbits
    have hfew : m < 2 ^ 52 := (Nat.log2_lt hm.ne').mp (by omega)
    refine ⟨-1074, unpack_short s hm hfew, hlow, fun hleast => ?_⟩
    omega

theorem storable_stored {u : UnpackedFloat} (h : Storable u) :
    (UnpackedFloat.unpack Format.binary64 (UnpackedFloat.pack Format.binary64 u)).isFinite = true ∧
      size (UnpackedFloat.unpack Format.binary64 (UnpackedFloat.pack Format.binary64 u)) ≤ size u := by
  cases u with
  | infinity s => exact h.elim
  | notANumber => exact h.elim
  | zero s => cases s <;> exact ⟨by decide, le_of_eq (by rfl)⟩
  | finite s m e hm =>
      obtain ⟨hbits, hlow, hhigh⟩ := h
      obtain ⟨e', heq, hle, -⟩ := unpack_pack_finite s hm hbits hlow hhigh
      rw [heq]
      refine ⟨rfl, ?_⟩
      exact mul_le_mul_of_nonneg_left (zpow_le_zpow_right₀ (by norm_num) hle) (by positivity)

/-! ## What is not rounded to zero -/

theorem kept_ne_zero {n : ℕ} {l : ℤ} (hn : n ≠ 0) (hl : -1074 ≤ l) : kept n l ≠ 0 := by
  rw [kept, ← Nat.pos_iff_ne_zero]
  refine Nat.div_pos (le_trans (Nat.pow_le_pow_right (by norm_num) ?_) (Nat.log2_self_le hn))
    (by positivity)
  rw [fit]
  omega

theorem rounded_ne_zero {m : ℕ} {e : ℤ} (h : 2 ^ (fit m e - e).toNat ≤ m) : rounded m e ≠ 0 := by
  have hbound := (roundedMantissa_bounds (halved m (fit m e - e).toNat)).1
  rw [halved_mantissa] at hbound
  have hpos := Nat.div_pos h (by positivity)
  rw [rounded]
  omega

def isZero : UnpackedFloat → Bool
  | .zero _ => true
  | _ => false

/-- A number without bound is stored as infinity, which is not zero. -/
theorem isZero_unpack_pack (s : Sign) {m : ℕ} {e : ℤ} (hm : 0 < m) (hbits : m < 2 ^ 53)
    (hlow : -1074 ≤ e) :
    isZero (UnpackedFloat.unpack Format.binary64
      (UnpackedFloat.pack Format.binary64 (.finite s m e hm))) = false := by
  by_cases hhigh : e ≤ 971
  · obtain ⟨e', heq, -⟩ := unpack_pack_finite s hm hbits hlow hhigh
    rw [heq]
    rfl
  · have hpack : UnpackedFloat.pack Format.binary64 (.finite s m e hm) =
        UnpackedFloat.packedInfinity Format.binary64 s := by
      rw [UnpackedFloat.pack]
      refine if_pos ?_
      show 2 ^ 11 ≤ (e + 1023 + 52).toNat + 1
      omega
    rw [hpack]
    cases s <;> decide

end Binary64
end FieldScript
