import FieldScript.Scalar

/-!
# Points

Points in the plane and in space, over any scalars.
-/

namespace FieldScript

structure Point2 (α : Type) where
  x : α
  y : α
  deriving Repr

structure Point3 (α : Type) where
  x : α
  y : α
  z : α
  deriving Repr

variable {α : Type} [Scalar α]

namespace Point2

def sub (p q : Point2 α) : Point2 α := ⟨p.x - q.x, p.y - q.y⟩

end Point2

namespace Point3

def add (p q : Point3 α) : Point3 α := ⟨p.x + q.x, p.y + q.y, p.z + q.z⟩

def sub (p q : Point3 α) : Point3 α := ⟨p.x - q.x, p.y - q.y, p.z - q.z⟩

/-- The sum of the squares of the coordinates. -/
def normSquared (p : Point3 α) : α := p.x * p.x + p.y * p.y + p.z * p.z

/-- The distance from the origin. -/
def norm (p : Point3 α) : α := Scalar.sqrt p.normSquared

def distance (p q : Point3 α) : α := norm (sub p q)

def cross (p q : Point3 α) : Point3 α :=
  ⟨p.y * q.z - p.z * q.y, p.z * q.x - p.x * q.z, p.x * q.y - p.y * q.x⟩

def isFinite (p : Point3 α) : Bool :=
  Scalar.isFinite p.x && Scalar.isFinite p.y && Scalar.isFinite p.z

def toList (p : Point3 α) : List α := [p.x, p.y, p.z]

/-- The length of the line through the points. -/
def pathLength : List (Point3 α) → α
  | p :: q :: rest => distance q p + pathLength (q :: rest)
  | _ => Scalar.ofInt 0

end Point3
end FieldScript
