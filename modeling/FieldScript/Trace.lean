import FieldScript.Point

/-!
# Traced curves

A curve in space with a magnitude and a further number at each of its
points. `curvature` is such a number: how much the curve turns at a point,
by the sine of the angle between its neighbouring segments, per length.
-/

namespace FieldScript

structure Trace (α : Type) where
  points : List (Point3 α)
  magnitudes : List α
  aux : List α

namespace Trace

variable {α : Type} [Scalar α]

def size (t : Trace α) : Nat := t.points.length

/-- The length of the curve along its points. -/
def length (t : Trace α) : α := Point3.pathLength t.points

/-- The curvature at `q` between two neighbours; zero where it is not
finite. -/
def turn (p q r : Point3 α) : α :=
  let s := q.sub p
  let t := r.sub q
  let m := s.norm
  let n := t.norm
  let sine := (s.cross t).norm / (m * n)
  let k := sine / (Scalar.half * (m + n))
  if Scalar.isFinite k then k else 0

/-- The curvatures at the inner points. -/
def turns : List (Point3 α) → List α
  | p :: q :: r :: rest => turn p q r :: turns (q :: r :: rest)
  | _ => []

/-- The curvature at each point, zero at the ends. -/
def curvature (points : List (Point3 α)) : List α :=
  match points with
  | [] => []
  | [_] => [0]
  | points => 0 :: turns points ++ [0]

end Trace
end FieldScript
