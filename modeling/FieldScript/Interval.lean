import FieldScript.Failure
import FieldScript.Scalar

/-!
# Intervals

The bounds of a coordinate. `contains` includes both ends, `clamp` moves
a number to the nearest point inside, and `spaced` divides the interval
evenly; the last of the spaced points is the upper bound itself.
-/

namespace FieldScript

structure Interval (α : Type) where
  low : α
  high : α
  deriving Repr

namespace Interval

variable {α : Type} [Scalar α]

/-- From minus one to one. -/
def standard : Interval α := ⟨Scalar.ofInt (-1), Scalar.ofInt 1⟩

def span (r : Interval α) : α := r.high - r.low

def contains (r : Interval α) (v : α) : Bool :=
  Scalar.lessEq r.low v && Scalar.lessEq v r.high

/-- What is not above the lower bound becomes it, then likewise for the
upper bound. -/
def clamp (r : Interval α) (v : α) : α :=
  let v := if Scalar.less r.low v then v else r.low
  if Scalar.less v r.high then v else r.high

def center (r : Interval α) : α := Scalar.half * (r.low + r.high)

/-- Evenly spaced points from the lower bound to the upper one; a single
point is the lower bound. -/
def spaced (r : Interval α) (count : Nat) : List α :=
  if count == 1 then [r.low]
  else
    let step := (r.high - r.low) / Scalar.ofInt ((count : Int) - 1)
    (List.range count).map fun i =>
      if i + 1 == count then r.high else Scalar.ofInt i * step + r.low

/-- Evenly spaced points; there cannot be less than none. -/
def spaced? (r : Interval α) (count : Int) : Except Failure (List α) :=
  if count < 0 then .error .invalidValue else .ok (r.spaced count.toNat)

def describe (r : Interval Float) : String :=
  "Range(" ++ shortestText r.low ++ " .. " ++ shortestText r.high ++ ")"

/-- The interval with these bounds, the first below the second. -/
def ofBounds (low high : Float) : Except Failure (Interval Float) :=
  if low < high then .ok ⟨low, high⟩ else .error (.emptyRange low high)

end Interval
end FieldScript
