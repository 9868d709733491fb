import Mathlib
import FieldScript.Expr.Code

/-!
# Exact numbers

Real numbers as scalars, so that the algorithms and the code of formulas
can be run in exact arithmetic. An operation without a real value (a
quotient by zero, the logarithm of a negative number, an odd root taken as
a power) is undefined, and so is everything that depends on it.

The library functions are given once, as partial functions on the reals
(`Fn.real?`, `power?`): the scalars use them, and so does the value of an
expression.
-/

namespace FieldScript

open Classical

/-! ## Library functions on real numbers -/

/-- Powers with a real value: a negative base has integral ones only, and
zero none with a negative exponent. -/
noncomputable def power? (b e : ℝ) : Option ℝ :=
  if 0 < b ∨ (b = 0 ∧ 0 ≤ e) ∨ (b < 0 ∧ ∃ n : ℤ, e = n) then some (b ^ e) else none

noncomputable def quotient? (x y : ℝ) : Option ℝ := if y = 0 then none else some (x / y)

/-- The remainder with the sign of the divisor. -/
noncomputable def remainder? (x y : ℝ) : Option ℝ :=
  if y = 0 then none else some (x - y * ⌊x / y⌋)

/-- The angle of a point other than the origin. -/
noncomputable def angle? (y x : ℝ) : Option ℝ :=
  if x = 0 ∧ y = 0 then none else some (Complex.arg ⟨x, y⟩)

noncomputable def Fn.unary? : Fn → ℝ → Option ℝ
  | .sin, x => some (Real.sin x)
  | .cos, x => some (Real.cos x)
  | .tan, x => if Real.cos x = 0 then none else some (Real.tan x)
  | .asin, x => if -1 ≤ x ∧ x ≤ 1 then some (Real.arcsin x) else none
  | .acos, x => if -1 ≤ x ∧ x ≤ 1 then some (Real.arccos x) else none
  | .atan, x => some (Real.arctan x)
  | .log, x => if 0 < x then some (Real.log x) else none
  | .exp, x => some (Real.exp x)
  | .abs, x => some |x|
  | .sign, x => some (Real.sign x)
  | .floor, x => some ⌊x⌋
  | .ceiling, x => some ⌈x⌉
  | _, _ => none

noncomputable def Fn.binary? : Fn → ℝ → ℝ → Option ℝ
  | .atan2, y, x => angle? y x
  | .mod, x, y => remainder? x y
  | _, _, _ => none

/-- A function of the library at real arguments. -/
noncomputable def Fn.real? (f : Fn) (xs : List ℝ) : Option ℝ :=
  match f, xs with
  | .max, x :: xs => some (xs.foldl Max.max x)
  | .min, x :: xs => some (xs.foldl Min.min x)
  | f, [x] => f.unary? x
  | f, [x, y] => f.binary? x y
  | _, _ => none

/-- Whether the relation holds. -/
noncomputable def Relation.real (r : Relation) (x y : ℝ) : Bool :=
  match r with
  | .less => decide (x < y)
  | .lessEq => decide (x ≤ y)
  | .greater => decide (y < x)
  | .greaterEq => decide (y ≤ x)
  | .notEqual => decide (x ≠ y)

/-! ## Powers -/

theorem power?_of_pos {b : ℝ} (hb : 0 < b) (e : ℝ) : power? b e = some (b ^ e) :=
  if_pos (Or.inl hb)

theorem power?_neg {b e x : ℝ} (h : power? b e = some x) (hb : b ≠ 0) :
    power? b (-e) = some x⁻¹ := by
  rw [power?] at h
  split at h
  · rename_i hdomain
    obtain rfl := Option.some.inj h
    rcases hdomain with hpos | ⟨hzero, -⟩ | ⟨hneg, n, rfl⟩
    · rw [power?_of_pos hpos, Real.rpow_neg hpos.le]
    · exact absurd hzero hb
    · rw [power?, if_pos (Or.inr (Or.inr ⟨hneg, -n, by push_cast; rfl⟩)),
        ← Int.cast_neg, Real.rpow_intCast, Real.rpow_intCast, zpow_neg]
  · cases h

theorem ne_zero_of_power? {b e x : ℝ} (h : power? b e = some x) (he : e < 0) :
    b ≠ 0 ∧ x ≠ 0 := by
  rw [power?] at h
  split at h
  · rename_i hdomain
    obtain rfl := Option.some.inj h
    rcases hdomain with hpos | ⟨-, hnonneg⟩ | ⟨hneg, n, rfl⟩
    · exact ⟨hpos.ne', (Real.rpow_pos_of_pos hpos e).ne'⟩
    · linarith
    · rw [Real.rpow_intCast]
      exact ⟨hneg.ne, zpow_ne_zero n hneg.ne⟩
  · cases h

theorem not_int_half (n : ℤ) : (1 / 2 : ℝ) ≠ n := by
  intro h
  have htwo : (1 : ℝ) = (2 * n : ℤ) := by
    push_cast
    linarith
  have hint : (1 : ℤ) = 2 * n := by exact_mod_cast htwo
  omega

/-- The power to one half is the square root. -/
theorem power?_half (b : ℝ) : power? b (1 / 2) = if 0 ≤ b then some √b else none := by
  rw [power?, Real.sqrt_eq_rpow]
  refine if_congr ?_ rfl rfl
  constructor
  · rintro (hpos | ⟨rfl, -⟩ | ⟨-, n, hn⟩)
    · exact hpos.le
    · exact le_refl 0
    · exact absurd hn (not_int_half n)
  · intro hb
    rcases hb.lt_or_eq with hpos | rfl
    · exact Or.inl hpos
    · exact Or.inr (Or.inl ⟨rfl, by norm_num⟩)

theorem power?_neg_one {b x : ℝ} (h : power? b (-1) = some x) : b ≠ 0 ∧ x = b⁻¹ := by
  obtain ⟨hb, -⟩ := ne_zero_of_power? h (by norm_num)
  have hone : power? b 1 = some b := by
    rw [power?, Real.rpow_one, if_pos]
    rcases lt_trichotomy b 0 with hneg | hzero | hpos
    · exact Or.inr (Or.inr ⟨hneg, 1, Int.cast_one.symm⟩)
    · exact absurd hzero hb
    · exact Or.inl hpos
  have hinv := power?_neg hone hb
  rw [h] at hinv
  exact ⟨hb, Option.some.inj hinv⟩

/-! ## Scalars -/

/-- A real number, or the result of an operation that has none. -/
inductive Exact where
  | number (x : ℝ)
  | undefined

namespace Exact

noncomputable def ofOption : Option ℝ → Exact
  | some x => number x
  | none => undefined

noncomputable def lift (f : ℝ → Option ℝ) : Exact → Exact
  | number x => ofOption (f x)
  | undefined => undefined

noncomputable def lift2 (f : ℝ → ℝ → Option ℝ) : Exact → Exact → Exact
  | number x, number y => ofOption (f x y)
  | _, _ => undefined

noncomputable def test (p : ℝ → ℝ → Prop) : Exact → Exact → Bool
  | number x, number y => decide (p x y)
  | _, _ => false

/-- The nearest integer; of two, the even one. -/
noncomputable def roundEven (x : ℝ) : ℤ :=
  if x - ⌊x⌋ < ⌊x⌋ + 1 - x then ⌊x⌋
  else if ⌊x⌋ + 1 - x < x - ⌊x⌋ then ⌊x⌋ + 1
  else if Even ⌊x⌋ then ⌊x⌋ else ⌊x⌋ + 1

end Exact

open Exact in
noncomputable instance : Scalar Exact where
  add := lift2 fun x y => some (x + y)
  sub := lift2 fun x y => some (x - y)
  mul := lift2 fun x y => some (x * y)
  div := lift2 quotient?
  neg := lift fun x => some (-x)
  ofRat r := number r
  ofInt n := number n
  pi := number Real.pi
  euler := number (Real.exp 1)
  undefined := undefined
  power := lift2 power?
  sqrt := lift fun x => if 0 ≤ x then some √x else none
  exp := lift Fn.exp.unary?
  log := lift Fn.log.unary?
  sin := lift Fn.sin.unary?
  cos := lift Fn.cos.unary?
  tan := lift Fn.tan.unary?
  asin := lift Fn.asin.unary?
  acos := lift Fn.acos.unary?
  atan := lift Fn.atan.unary?
  atan2 := lift2 angle?
  abs := lift Fn.abs.unary?
  sign := lift Fn.sign.unary?
  floor := lift Fn.floor.unary?
  ceiling := lift Fn.ceiling.unary?
  max := lift2 fun x y => some (max x y)
  min := lift2 fun x y => some (min x y)
  mod := lift2 remainder?
  hypot := lift2 fun x y => some √(x ^ 2 + y ^ 2)
  less := test (· < ·)
  lessEq := test (· ≤ ·)
  equal := test (· = ·)
  isFinite
    | number _ => true
    | undefined => false
  floorInt?
    | number x => some ⌊x⌋
    | undefined => none
  round x places := lift (fun x => some (roundEven (x * 10 ^ places) / 10 ^ places)) x

namespace Exact

theorem zero_eq : (0 : Exact) = number 0 := by
  show number ((0 : ℤ) : ℝ) = number 0
  rw [Int.cast_zero]

@[simp] theorem number_add (x y : ℝ) : number x + number y = number (x + y) := rfl

@[simp] theorem less_number (x y : ℝ) :
    Scalar.less (number x) (number y) = decide (x < y) := rfl

@[simp] theorem equal_number (x y : ℝ) :
    Scalar.equal (number x) (number y) = decide (x = y) := rfl

@[simp] theorem isFinite_number (x : ℝ) : Scalar.isFinite (number x) = true := rfl

theorem lessEq_number (x y : ℝ) : Scalar.lessEq (number x) (number y) = decide (x ≤ y) := rfl

theorem number_sub (x y : ℝ) : number x - number y = number (x - y) := rfl

theorem number_mul (x y : ℝ) : number x * number y = number (x * y) := rfl

theorem number_div (x : ℝ) {y : ℝ} (h : y ≠ 0) : number x / number y = number (x / y) := by
  show ofOption (quotient? x y) = _
  rw [quotient?, if_neg h]
  rfl

/-- Nothing is divided by zero. -/
theorem number_div_zero (x : ℝ) : number x / number 0 = undefined := by
  show ofOption (quotient? x 0) = _
  rw [quotient?, if_pos rfl]
  rfl

theorem ofInt_eq (n : ℤ) : (Scalar.ofInt n : Exact) = number n := rfl

theorem ofNat_eq (n : ℕ) : (OfNat.ofNat n : Exact) = number n := rfl

theorem one_eq : (1 : Exact) = number 1 := by
  rw [ofNat_eq, Nat.cast_one]

theorem half_eq : (Scalar.half : Exact) = number (1 / 2) := by
  show number ((mkRat 1 2 : ℚ) : ℝ) = _
  norm_num

end Exact

end FieldScript
