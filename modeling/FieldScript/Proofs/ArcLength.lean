import Mathlib

/-!
# Lengths along a line

A line through points of space is walked from its first point. After some
length one is in one point (`AtLength`): on the first piece, at the share of
it that has been walked, or further on, after the length of the first piece.
Where pieces meet both say the same (`AtLength.unique`).
-/

namespace FieldScript

section Lines

variable {V : Type} [NormedAddCommGroup V] [NormedSpace ℝ V] {a b p q : V} {line : List V} {s : ℝ}

/-- The point of the line through the points that is reached after a length. -/
inductive AtLength : List V → ℝ → V → Prop
  | onFirst {a b : V} {rest : List V} {t : ℝ} (hlow : 0 ≤ t) (hhigh : t ≤ 1) :
      AtLength (a :: b :: rest) (t * dist a b) (AffineMap.lineMap a b t)
  | further {a b p : V} {rest : List V} {s : ℝ} (h : AtLength (b :: rest) s p) :
      AtLength (a :: b :: rest) (dist a b + s) p

namespace AtLength

theorem nonneg (h : AtLength line s p) : 0 ≤ s := by
  induction h with
  | onFirst hlow => exact mul_nonneg hlow dist_nonneg
  | further _ ih => exact add_nonneg dist_nonneg ih

/-- Nothing is walked only at the first point. -/
theorem eq_first (h : AtLength line s p) (hs : s = 0) (ha : line.head? = some a) : p = a := by
  induction h with
  | onFirst =>
      cases ha
      rcases mul_eq_zero.mp hs with rfl | hzero
      · exact AffineMap.lineMap_apply_zero _ _
      · rw [dist_eq_zero.mp hzero, AffineMap.lineMap_same_apply]
  | further h ih =>
      cases ha
      have hrest := h.nonneg
      obtain ⟨hzero, hs⟩ := (add_eq_zero_iff_of_nonneg dist_nonneg hrest).mp hs
      exact ih hs (congrArg some (dist_eq_zero.mp hzero).symm)

/-- After the length of the first piece both rules lead to its end. -/
theorem onFirst_further {rest : List V} {t r : ℝ} (hhigh : t ≤ 1) (h : AtLength (b :: rest) r q)
    (hs : t * dist a b = dist a b + r) : AffineMap.lineMap a b t = q := by
  have hrest := h.nonneg
  have hle : t * dist a b ≤ dist a b := mul_le_of_le_one_left dist_nonneg hhigh
  rw [h.eq_first (by linarith) rfl]
  have hend : (1 - t) * dist a b = 0 := by linarith
  rcases mul_eq_zero.mp hend with hone | hzero
  · rw [← sub_eq_zero.mp hone, AffineMap.lineMap_apply_one]
  · rw [dist_eq_zero.mp hzero, AffineMap.lineMap_same_apply]

/-- A length leads to one point. -/
theorem unique (h : AtLength line s p) (h' : AtLength line s q) : p = q := by
  induction h with
  | @onFirst a b rest t hlow hhigh =>
      generalize hs : t * dist a b = s at h'
      cases h' with
      | @onFirst _ _ _ t' =>
          rcases mul_eq_mul_right_iff.mp hs with rfl | hzero
          · rfl
          · rw [dist_eq_zero.mp hzero, AffineMap.lineMap_same_apply, AffineMap.lineMap_same_apply]
      | further h' => exact onFirst_further hhigh h' hs
  | @further a b p rest r h ih =>
      generalize hs : dist a b + r = s at h'
      cases h' with
      | onFirst _ hhigh => exact (onFirst_further hhigh h hs.symm).symm
      | further h' => exact ih (add_left_cancel hs ▸ h')

end AtLength

/-- The length of the line through the points. -/
noncomputable def wholeLength : List V → ℝ
  | a :: b :: rest => dist a b + wholeLength (b :: rest)
  | _ => 0

end Lines
end FieldScript
