import FieldScript.Failure
import FieldScript.Motion

/-!
# Particles

A particle is a motion with an identity and a trail of the places where
it has been. A trail may be bounded; then it keeps the latest places.
-/

namespace FieldScript

/-- Places, the earliest first. -/
structure Trail (α : Type) where
  limit : Option Nat
  places : List (Point3 α)

namespace Trail

variable {α : Type}

def unbounded : Trail α := ⟨none, []⟩

/-- The last places, as many as the limit allows. -/
def keep (limit : Option Nat) (places : List (Point3 α)) : List (Point3 α) :=
  match limit with
  | none => places
  | some n => places.drop (places.length - n)

/-- The greatest number that a machine word holds. -/
def longest : Int := 9223372036854775807

/-- The limit for a length that is asked for. A length that no machine word
holds is refused, and so is a negative one. -/
def limit? (length : Int) : Except Failure Nat :=
  if length < -longest - 1 || longest < length then .error .tooLarge
  else if length < 0 then .error .invalidValue
  else .ok length.toNat

/-- An empty trail of some length. -/
def bounded? (length : Int) : Except Failure (Trail α) :=
  match limit? length with
  | .error e => .error e
  | .ok n => .ok ⟨some n, []⟩

def clear (t : Trail α) : Trail α := { t with places := [] }

/-- The trail with another limit. -/
def withLimit? (t : Trail α) (length : Int) : Except Failure (Trail α) :=
  match limit? length with
  | .error e => .error e
  | .ok n => .ok ⟨some n, keep (some n) t.places⟩

def push (t : Trail α) (p : Point3 α) : Trail α :=
  { t with places := keep t.limit (t.places ++ [p]) }

end Trail

structure Particle (α : Type) extends Motion α where
  id : Int
  trail : Trail α

namespace Particle

/-- A particle that is placed by hand, with an unbounded trail. -/
def ofMotion {α : Type} (id : Int) (m : Motion α) : Particle α := { m with id, trail := .unbounded }

def describe (p : Particle Float) : String :=
  "Particle#" ++ toString p.id ++ "((" ++ fixedText 3 p.x ++ ", " ++ fixedText 3 p.y ++ ") v=("
    ++ fixedText 3 p.vx ++ ", " ++ fixedText 3 p.vy ++ "))"

end Particle
end FieldScript
