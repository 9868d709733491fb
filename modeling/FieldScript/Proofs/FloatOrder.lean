import Mathlib
import FieldScript.Scalar

/-!
# The order of binary64 numbers

Comparisons of binary64 numbers are lexicographic comparisons of three
integers: the side of zero, the exponent and the significand, the last two
turned round on the negative side. `orderKey` makes the three integers, so
that every law of the order (transitivity, totality, the equality of the
two zeros) is one of a linear order. Not-a-number has no place in it: a
comparison with it fails, which is why the laws ask for numbers
(`IsNumber`).
-/

namespace FieldScript
namespace Binary64

open Float.Model

/-- Side of zero, exponent and significand. -/
def orderKey : UnpackedFloat → ℤ ×ₗ ℤ ×ₗ ℤ
  | .notANumber => toLex (0, toLex (0, 0))
  | .infinity .negative => toLex (-2, toLex (0, 0))
  | .infinity .positive => toLex (2, toLex (0, 0))
  | .zero _ => toLex (0, toLex (0, 0))
  | .finite .negative m e _ => toLex (-1, toLex (-e, -(m : ℤ)))
  | .finite .positive m e _ => toLex (1, toLex (e, (m : ℤ)))

theorem compare_eq_lt_iff {a b : UnpackedFloat} (ha : a ≠ .notANumber) (hb : b ≠ .notANumber) :
    a.compare b = some .lt ↔ orderKey a < orderKey b := by
  rcases a with s | _ | s | ⟨s, m, e, hm⟩ <;> rcases b with t | _ | t | ⟨t, n, f, hn⟩ <;>
    first
      | exact absurd rfl ha
      | exact absurd rfl hb
      | (cases s <;> cases t <;>
          simp [UnpackedFloat.compare, orderKey, Prod.Lex.toLex_lt_toLex,
            Ordering.then_eq_lt, Ordering.then_eq_gt, compare_lt_iff_lt, compare_gt_iff_gt])
  -- What remains is the order of the two infinities.
  decide

theorem compare_eq_eq_iff {a b : UnpackedFloat} (ha : a ≠ .notANumber) (hb : b ≠ .notANumber) :
    a.compare b = some .eq ↔ orderKey a = orderKey b := by
  rcases a with s | _ | s | ⟨s, m, e, hm⟩ <;> rcases b with t | _ | t | ⟨t, n, f, hn⟩ <;>
    first
      | exact absurd rfl ha
      | exact absurd rfl hb
      | (cases s <;> cases t <;> simp [UnpackedFloat.compare, orderKey])
  -- What remains is the two infinities of different signs.
  · decide
  · decide

theorem compare_notANumber_left (b : UnpackedFloat) :
    UnpackedFloat.compare .notANumber b = none := by
  cases b <;> rfl

theorem compare_notANumber_right (a : UnpackedFloat) :
    a.compare .notANumber = none := by
  cases a <;> rfl

/-- A finite number or an infinity. -/
def IsNumber (x : Float) : Prop := x.toModel.unpack ≠ .notANumber

theorem isNumber_of_isFinite {x : Float} (h : x.isFinite = true) : IsNumber x := by
  intro hx
  have hf : x.toModel.unpack.isFinite = true := h
  rw [hx] at hf
  cases hf

theorem isNumber_iff {x : Float} : IsNumber x ↔ x.isNaN = false := by
  have hx : x.isNaN = x.toModel.unpack.isNaN := rfl
  rw [IsNumber, hx]
  cases x.toModel.unpack <;> simp [UnpackedFloat.isNaN]

/-- The place of a number in the order. -/
def place (x : Float) : ℤ ×ₗ ℤ ×ₗ ℤ := orderKey x.toModel.unpack

variable {x y z : Float}

theorem lt_iff_compare :
    x < y ↔ x.toModel.unpack.compare y.toModel.unpack = some .lt := by
  show decide (x.toModel.lt y.toModel = true) = true ↔ _
  simp [Float.Model.lt, UnpackedFloat.lt]

theorem le_iff_compare :
    x ≤ y ↔ x.toModel.unpack.compare y.toModel.unpack = some .lt
      ∨ x.toModel.unpack.compare y.toModel.unpack = some .eq := by
  show decide (x.toModel.unpack.le y.toModel.unpack = true) = true ↔ _
  rw [decide_eq_true_eq, UnpackedFloat.le]
  rcases x.toModel.unpack.compare y.toModel.unpack with _ | o
  · simp
  · cases o <;> simp

theorem beq_iff_compare :
    (x == y) = true ↔ x.toModel.unpack.compare y.toModel.unpack = some .eq := by
  show (x.toModel.beq y.toModel) = true ↔ _
  simp [Float.Model.beq, UnpackedFloat.beq]

theorem isNumber_of_compare {o : Ordering}
    (h : x.toModel.unpack.compare y.toModel.unpack = some o) : IsNumber x ∧ IsNumber y := by
  constructor <;> intro hn
  · rw [hn, compare_notANumber_left] at h
    cases h
  · rw [hn, compare_notANumber_right] at h
    cases h

/-! ## Comparisons by place -/

theorem lt_iff (hx : IsNumber x) (hy : IsNumber y) : x < y ↔ place x < place y := by
  rw [lt_iff_compare, compare_eq_lt_iff hx hy]
  rfl

theorem beq_iff (hx : IsNumber x) (hy : IsNumber y) : (x == y) = true ↔ place x = place y := by
  rw [beq_iff_compare, compare_eq_eq_iff hx hy]
  rfl

theorem le_iff (hx : IsNumber x) (hy : IsNumber y) : x ≤ y ↔ place x ≤ place y := by
  rw [le_iff_compare, compare_eq_lt_iff hx hy, compare_eq_eq_iff hx hy]
  exact (le_iff_lt_or_eq (a := place x) (b := place y)).symm

theorem isNumber_of_lt (h : x < y) : IsNumber x ∧ IsNumber y :=
  isNumber_of_compare (lt_iff_compare.mp h)

theorem isNumber_of_beq (h : (x == y) = true) : IsNumber x ∧ IsNumber y :=
  isNumber_of_compare (beq_iff_compare.mp h)

/-! ## Laws of the order -/

theorem lt_of_not_le (hx : IsNumber x) (hy : IsNumber y) (h : ¬ y ≤ x) : x < y := by
  rw [le_iff hy hx] at h
  rw [lt_iff hx hy]
  exact not_le.mp h

theorem beq_refl (hx : IsNumber x) : (x == x) = true := (beq_iff hx hx).mpr rfl

theorem beq_symm (h : (x == y) = true) : (y == x) = true := by
  obtain ⟨hx, hy⟩ := isNumber_of_beq h
  rw [beq_iff hy hx]
  exact ((beq_iff hx hy).mp h).symm

theorem beq_trans (h : (x == y) = true) (h' : (y == z) = true) : (x == z) = true := by
  obtain ⟨hx, hy⟩ := isNumber_of_beq h
  obtain ⟨-, hz⟩ := isNumber_of_beq h'
  rw [beq_iff hx hz]
  exact ((beq_iff hx hy).mp h).trans ((beq_iff hy hz).mp h')

end Binary64
end FieldScript
