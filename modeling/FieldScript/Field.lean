import FieldScript.Formula
import FieldScript.Potential

/-!
# Fields

A field gives a value for coordinates, which may be grids. A formula that
a user writes can fail or give no number; `Field.safe` makes a field that
reads as a default there. It tries whole grids first and, if that fails,
goes point by point, so that one bad point does not blank the grid.

Derivatives are central differences.
-/

namespace FieldScript

abbrev Field := Samples → Samples → Except Failure Samples

namespace Field

/-! ## Safe values -/

def finiteOr (fallback x : Float) : Float := if x.isFinite then x else fallback

/-- The samples with a default in place of what is not finite. -/
def safeValue (s : Samples) (fallback : Float := 0) : Samples := s.map (finiteOr fallback)

/-- Failures that a safe field hides. -/
def hides (f : Failure) : Bool := f.isEvaluation || f.isArithmetic

/-- The value at one point, or the default. -/
def safePoint (fallback : Float) (f : Field) (x y : Float) : Except Failure Float :=
  match f (.scalar x) (.scalar y) with
  | .ok s => .ok (finiteOr fallback s.first)
  | .error e => if hides e then .ok fallback else .error e

/-- The field with a default where it fails or is not finite. -/
def safe (f : Field) (fallback : Float := 0) : Field := fun x y =>
  match f x y with
  | .ok s => .ok (safeValue s fallback)
  | .error e =>
    if !hides e then .error e
    else if x.isScalar && y.isScalar then .ok (.scalar fallback)
    else
      Samples.tabulate? [x, y] fun
        | [a, b] => safePoint fallback f a b
        | _ => .error .shapeMismatch

/-- Zero everywhere. -/
def zero : Field := fun x y =>
  match Samples.joinShapes? x.shape y.shape with
  | some shape => .ok (Samples.filled shape 0)
  | none => .error .shapeMismatch

/-- A prepared formula of the coordinates; the overrides count before the
variables. -/
def ofPrepared (p : Prepared) (environment : Assignment) (overrides : Assignment := []) : Field :=
  fun x y => p.call environment [x, y] overrides

/-- The heights of the field at single points; a grid is no height. -/
def potential (f : Field) : Potential Float := fun x y => do
  let s ← f (.scalar x) (.scalar y)
  if s.data.size == 1 then return s.first else throw .notApplicable

/-! ## Derivatives -/

/-- Half the distance of the points of a difference. -/
def defaultStep : Float := Potential.defaultStep

def laplacianStep : Float := 0.05

/-- The difference quotient of two values. -/
def quotient (ahead behind : Samples) (width : Float) : Except Failure Samples := do
  (← ahead.sub behind).divBy width

/-- The gradient by central differences. -/
def gradient (f : Field) (x y : Samples) (h : Float := defaultStep) :
    Except Failure (Samples × Samples) := do
  let right ← f (x.shift h) y
  let left ← f (x.shiftBack h) y
  let dx ← quotient right left (2 * h)
  let above ← f x (y.shift h)
  let below ← f x (y.shiftBack h)
  let dy ← quotient above below (2 * h)
  return (dx, dy)

/-- The sum of the second derivatives. -/
def laplacian (f : Field) (x y : Samples) (h : Float := laplacianStep) : Except Failure Samples := do
  let center ← f x y
  let right ← f (x.shift h) y
  let left ← f (x.shiftBack h) y
  let above ← f x (y.shift h)
  let below ← f x (y.shiftBack h)
  let sum ← (← (← right.add left).add above).add below
  (← sum.sub (center.map (4 * ·))).divBy (h * h)

/-- The size of the gradient, zero where it is not finite. -/
def slope (f : Field) (x y : Samples) (h : Float := defaultStep) : Except Failure Samples := do
  let (dx, dy) ← gradient f x y h
  return safeValue (← dx.hypot dy)

end Field
end FieldScript
