import FieldScript.Failure
import FieldScript.Scalar

/-!
# Potentials and flows

A potential gives the height at a point of the plane, a flow a direction.
Either may fail. The steepest descent of a potential is a flow; its slopes
are central differences.

Nothing here depends on the numbers, so what is shown of a potential over
exact numbers is shown of the definition that runs.
-/

namespace FieldScript

abbrev Potential (α : Type) := α → α → Except Failure α

abbrev Flow (α : Type) := α → α → Except Failure (α × α)

variable {α : Type} [Scalar α]

namespace Potential

/-- Half the distance of the points of a difference. -/
def defaultStep : α := Scalar.ofRat (mkRat 1 100)

/-- The difference quotient of two heights; nothing is divided by zero. -/
def quotient (ahead behind width : α) : Except Failure α :=
  if Scalar.equal width 0 then .error .divisionByZero else .ok ((ahead - behind) / width)

/-- The gradient by central differences. -/
def gradient (f : Potential α) (x y h : α) : Except Failure (α × α) := do
  let right ← f (x + h) y
  let left ← f (x - h) y
  let dx ← quotient right left (2 * h)
  let above ← f x (y + h)
  let below ← f x (y - h)
  let dy ← quotient above below (2 * h)
  return (dx, dy)

/-- Steepest descent. -/
def descent (f : Potential α) (h : α) : Flow α := fun x y => do
  let (dx, dy) ← f.gradient x y h
  return (-dx, -dy)

end Potential
end FieldScript
