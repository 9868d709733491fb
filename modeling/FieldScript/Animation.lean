import FieldScript.Failure
import FieldScript.Scalar

/-!
# Animations

An animation moves a parameter from `start` towards `stop` in steps of
one size. The last frame is the last step that does not go past `stop`
by more than a billionth of a step.
-/

namespace FieldScript

structure Animation (α : Type) where
  parameter : String
  start : α
  stop : α
  step : α
  deriving Repr

namespace Animation

variable {α : Type} [Scalar α]

/-- The share of a step by which the last frame may go too far. -/
def tolerance : α := Scalar.ofRat (mkRat 1 1000000000)

/-- How many steps there are, as the integral part of a quotient. A step
of size zero, a quotient that is no number and one without bound have no
integral part. -/
def stepCount (a : Animation α) : Except Failure Int :=
  if Scalar.equal a.step (Scalar.ofInt 0) then .error .divisionByZero
  else
    let steps := Scalar.abs (a.stop - a.start) / a.step + tolerance
    match Scalar.floorInt? steps with
    | some n => .ok n
    | none => .error (if Scalar.equal steps steps then .tooLarge else .invalidValue)

def frameCount (a : Animation α) : Except Failure Int := do
  return (← a.stepCount) + 1

/-- One or minus one. -/
def direction (a : Animation α) : α :=
  if Scalar.lessEq a.start a.stop then Scalar.ofInt 1 else Scalar.ofInt (-1)

def frame (a : Animation α) (i : Nat) : α := a.start + a.direction * Scalar.ofInt i * a.step

/-- The values of the parameter, in order. -/
def frames (a : Animation α) : Except Failure (List α) := do
  return (List.range (← a.frameCount).toNat).map a.frame

end Animation
end FieldScript
