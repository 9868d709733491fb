import FieldScript.Proofs.MeshDistances
import FieldScript.Proofs.StreamlinePieces

/-!
# Curvatures along a line

At an inner point the curvature is the sine of the angle by which the line
turns, over the mean length of the two segments that meet there
(`Trace.turn_exact`). The sine comes from their cross product, so a line
that turns back on itself has no more curvature there than a straight one
(`Trace.curvature_sine`).

Turning is the same both ways, and so the line walked back has the same
curvatures (`Trace.curvature_reverse`).
-/

namespace FieldScript

open InnerProductGeometry

namespace Point3

/-- The cross product is as long as its factors and the sine between them. -/
theorem norm_cross_exact (v w : Point3 ℝ) : (v.exact.cross w.exact).norm =
    .number (‖v.place‖ * ‖w.place‖ * Real.sin (angle v.place w.place)) := by
  have hcross : v.exact.cross w.exact = Point3.exact ⟨v.y * w.z - v.z * w.y,
      v.z * w.x - v.x * w.z, v.x * w.y - v.y * w.x⟩ := rfl
  rw [hcross, norm_exact, ← norm_ofLp_crossProduct]
  congr 2

end Point3

namespace Trace

/-! ## One turn -/

/-- The angle by which the way from `p` to `q` turns into the one to `r`. -/
noncomputable def turningAngle (p q r : Point3 ℝ) : ℝ :=
  angle (q.place - p.place) (r.place - q.place)

/-- Twice the sine of the turning angle over the length of both segments;
nothing where one of them has no length. -/
noncomputable def bend (p q r : Point3 ℝ) : ℝ :=
  if dist p.place q.place = 0 ∨ dist q.place r.place = 0 then 0
  else 2 • Real.sin (turningAngle p q r) / (dist p.place q.place + dist q.place r.place)

/-- It is the sine of the turning angle over the mean length. -/
theorem bend_of_ne {p q r : Point3 ℝ} (hpq : p.place ≠ q.place) (hqr : q.place ≠ r.place) :
    bend p q r =
      Real.sin (turningAngle p q r) / ((dist p.place q.place + dist q.place r.place) / 2) := by
  rw [bend, if_neg (not_or.mpr ⟨dist_ne_zero.mpr hpq, dist_ne_zero.mpr hqr⟩), two_nsmul, ← two_mul,
    div_div_eq_mul_div, mul_comm]

theorem turn_exact (p q r : Point3 ℝ) : turn p.exact q.exact r.exact = .number (bend p q r) := by
  have hm : ‖q.place - p.place‖ = dist p.place q.place := (dist_eq_norm' ..).symm
  have hn : ‖r.place - q.place‖ = dist q.place r.place := (dist_eq_norm' ..).symm
  rw [turn]
  simp only [Point3.sub_exact, Point3.norm_exact, Point3.norm_cross_exact, Point3.place_wayTo,
    hm, hn, Exact.number_mul, Exact.number_add, Exact.half_eq]
  by_cases hnone : dist p.place q.place = 0 ∨ dist q.place r.place = 0
  · rw [mul_eq_zero.mpr hnone, bend, if_pos hnone, Exact.number_div_zero]
    exact (if_neg Bool.false_ne_true).trans Exact.zero_eq
  · obtain ⟨hpq, hqr⟩ := not_or.mp hnone
    have hm0 : 0 < dist p.place q.place := lt_of_le_of_ne dist_nonneg (Ne.symm hpq)
    have hn0 : 0 < dist q.place r.place := lt_of_le_of_ne dist_nonneg (Ne.symm hqr)
    rw [Exact.number_div _ (by positivity), Exact.number_div _ (by positivity),
      mul_div_cancel_left₀ _ (by positivity), Exact.isFinite_number, if_pos rfl,
      bend_of_ne (dist_ne_zero.mp hpq) (dist_ne_zero.mp hqr), one_div_mul_eq_div]
    rfl

/-- A line bends as much on its way back. -/
theorem bend_comm (p q r : Point3 ℝ) : bend p q r = bend r q p := by
  have hangle : turningAngle p q r = turningAngle r q p := by
    rw [turningAngle, turningAngle, angle_comm, ← angle_neg_neg, neg_sub, neg_sub]
  rw [bend, bend, hangle, dist_comm p.place, dist_comm q.place r.place,
    add_comm (dist q.place p.place)]
  exact if_congr or_comm rfl rfl

/-- Going straight on and turning back are the turns without curvature. -/
theorem bend_eq_zero_iff {p q r : Point3 ℝ} (hpq : p.place ≠ q.place) (hqr : q.place ≠ r.place) :
    bend p q r = 0 ↔ turningAngle p q r = 0 ∨ turningAngle p q r = Real.pi := by
  have hlength : (dist p.place q.place + dist q.place r.place) / 2 ≠ 0 := by
    have hm : 0 < dist p.place q.place := dist_pos.mpr hpq
    positivity
  rw [bend_of_ne hpq hqr, div_eq_zero_iff, or_iff_left hlength, turningAngle,
    sin_eq_zero_iff_angle_eq_zero_or_angle_eq_pi]

/-- The way back makes the greatest angle. -/
theorem turningAngle_back {p q : Point3 ℝ} (h : p.place ≠ q.place) :
    turningAngle p q p = Real.pi := by
  rw [turningAngle, ← neg_sub q.place p.place]
  exact angle_self_neg_of_nonzero (sub_ne_zero.mpr h.symm)

/-! ## The turns of a line -/

section Turns

variable {α : Type} [Scalar α]

/-- A line turns before a point, at it, and behind it. -/
theorem turns_append (p q r : Point3 α) (back : List (Point3 α)) :
    ∀ front : List (Point3 α), turns (front ++ p :: q :: r :: back) =
      turns (front ++ [p, q]) ++ turn p q r :: turns (q :: r :: back)
  | [] => rfl
  | [_] => rfl
  | [_, _] => rfl
  | a :: b :: c :: front =>
      congrArg (turn a b c :: ·) (turns_append p q r back (b :: c :: front))

/-- The turns stand between the two ends. -/
theorem curvature_eq {points : List (Point3 α)} (h : 2 ≤ points.length) :
    curvature points = 0 :: turns points ++ [0] :=
  match points, h with
  | _ :: _ :: _, _ => rfl

end Turns

/-- The turns of the line that is walked back. -/
theorem turns_reverse (points : List (Point3 ℝ)) :
    turns (points.reverse.map Point3.exact) = (turns (points.map Point3.exact)).reverse := by
  induction points with
  | nil => rfl
  | cons p points ih =>
      match points with
      | [] => rfl
      | [_] => rfl
      | q :: r :: rest =>
          have hturn : turn r.exact q.exact p.exact = turn p.exact q.exact r.exact := by
            rw [turn_exact, turn_exact, bend_comm]
          calc turns ((p :: q :: r :: rest).reverse.map Point3.exact)
              = turns (rest.reverse.map Point3.exact ++ [r.exact, q.exact, p.exact]) := by simp
            _ = turns ((q :: r :: rest).reverse.map Point3.exact) ++
                  [turn r.exact q.exact p.exact] := by rw [turns_append]; simp [turns]
            _ = (turns ((p :: q :: r :: rest).map Point3.exact)).reverse := by
                  rw [ih, hturn, ← List.reverse_cons]; rfl

theorem curvature_reverse (points : List (Point3 ℝ)) :
    curvature (points.reverse.map Point3.exact) =
      (curvature (points.map Point3.exact)).reverse := by
  match points with
  | [] => rfl
  | [_] => rfl
  | p :: q :: rest =>
      rw [curvature_eq (by simp), curvature_eq (by simp), turns_reverse]
      simp

theorem curvature_at_end {points : List (Point3 ℝ)} {i : Nat} (hi : i < points.length)
    (hend : i = 0 ∨ i + 1 = points.length) :
    (curvature (points.map Point3.exact))[i]? = some (.number 0) := by
  rw [← Exact.zero_eq]
  match points, hi with
  | [_], hi =>
      obtain rfl : i = 0 := Nat.lt_one_iff.mp hi
      rfl
  | p :: q :: rest, _ =>
      rw [curvature_eq (by simp)]
      rcases hend with rfl | hlast
      · rfl
      · have hlength : i = (0 :: turns ((p :: q :: rest).map Point3.exact)).length := by
          rw [List.length_cons, length_turns, List.length_map]
          simp only [List.length_cons] at hlast ⊢
          omega
        rw [hlength, List.getElem?_concat_length]

theorem curvature_at_turn (front back : List (Point3 ℝ)) (p q r : Point3 ℝ) :
    (curvature ((front ++ p :: q :: r :: back).map Point3.exact))[front.length + 1]? =
      some (.number (bend p q r)) := by
  have hmap : (front ++ p :: q :: r :: back).map Point3.exact =
      front.map Point3.exact ++ p.exact :: q.exact :: r.exact :: back.map Point3.exact := by simp
  have hbefore : (turns (front.map Point3.exact ++ [p.exact, q.exact])).length =
      front.length := by simp [length_turns]
  have hlong : 2 ≤ (front.map Point3.exact ++
      p.exact :: q.exact :: r.exact :: back.map Point3.exact).length := by
    simp only [List.length_append, List.length_cons]
    omega
  rw [hmap, curvature_eq hlong, turns_append, turn_exact]
  simp [hbefore]

/-- A line has no curvature at its ends. Between two segments that have
lengths it is the sine of their angle per length, and so it is zero exactly
where the line goes straight on or turns back. The line walked back has the
same curvatures. -/
theorem curvature_sine (points : List (Point3 ℝ)) :
    (curvature (points.map Point3.exact)).length = points.length ∧
    (∀ i < points.length, i = 0 ∨ i + 1 = points.length →
      (curvature (points.map Point3.exact))[i]? = some (.number 0)) ∧
    (∀ (front : List (Point3 ℝ)) (p q r : Point3 ℝ) (back : List (Point3 ℝ)),
      points = front ++ p :: q :: r :: back → p.place ≠ q.place → q.place ≠ r.place →
      ∃ k : ℝ, (curvature (points.map Point3.exact))[front.length + 1]? = some (.number k) ∧
        k = Real.sin (turningAngle p q r) /
          ((dist p.place q.place + dist q.place r.place) / 2) ∧
        (k = 0 ↔ turningAngle p q r = 0 ∨ turningAngle p q r = Real.pi)) ∧
    curvature (points.reverse.map Point3.exact) =
      (curvature (points.map Point3.exact)).reverse := by
  refine ⟨?_, ?_, ?_, curvature_reverse points⟩
  · rw [length_curvature, List.length_map]
  · intro i hi hend
    exact curvature_at_end hi hend
  · rintro front p q r back rfl hpq hqr
    exact ⟨bend p q r, curvature_at_turn front back p q r, bend_of_ne hpq hqr,
      bend_eq_zero_iff hpq hqr⟩

/-- Where a line turns back, its segments do not point the same way; it has
no curvature there. -/
theorem curvature_turnedBack :
    curvature ([⟨0, 0, 0⟩, ⟨1, 0, 0⟩, ⟨0, 0, 0⟩].map Point3.exact) =
      [.number 0, .number 0, .number 0] ∧
    0 < dist (Point3.place ⟨0, 0, 0⟩) (Point3.place ⟨1, 0, 0⟩) ∧
    0 < dist (Point3.place ⟨1, 0, 0⟩) (Point3.place ⟨0, 0, 0⟩) ∧
    turningAngle ⟨0, 0, 0⟩ ⟨1, 0, 0⟩ ⟨0, 0, 0⟩ ≠ 0 := by
  have hne : Point3.place ⟨0, 0, 0⟩ ≠ Point3.place ⟨1, 0, 0⟩ := by
    intro h
    have hx : (0 : ℝ) = 1 := congrFun (congrArg WithLp.ofLp h) 0
    exact zero_ne_one hx
  have hback := turningAngle_back hne
  have hzero : bend ⟨0, 0, 0⟩ ⟨1, 0, 0⟩ ⟨0, 0, 0⟩ = 0 :=
    (bend_eq_zero_iff hne hne.symm).mpr (Or.inr hback)
  refine ⟨?_, dist_pos.mpr hne, dist_pos.mpr hne.symm, ?_⟩
  · rw [curvature_eq (by simp)]
    simp only [List.map_cons, List.map_nil, turns, turn_exact, hzero, Exact.zero_eq]
    rfl
  · rw [hback]
    exact Real.pi_ne_zero

end Trace

end FieldScript
