import FieldScript.Point

/-!
# Damped descent

The motion of a point mass that is pushed downhill and slowed down in
proportion to its velocity. A step changes the velocity first and then
moves with the new one. Particles and the estimate of their divergence
take the same steps.
-/

namespace FieldScript

/-- A position and a velocity. -/
structure Motion (α : Type) where
  x : α
  y : α
  vx : α
  vy : α
  deriving Repr

/-- The constants of damped descent. -/
structure Descent (α : Type) where
  damping : α
  force : α
  deriving Repr

namespace Motion

variable {α : Type} [Scalar α]

/-- At rest. -/
def rest (x y : α) : Motion α := ⟨x, y, 0, 0⟩

def isFinite (m : Motion α) : Bool :=
  Scalar.isFinite m.x && Scalar.isFinite m.y && Scalar.isFinite m.vx && Scalar.isFinite m.vy

/-- One step over a slope. -/
def step (k : Descent α) (dt : α) (slope : α × α) (m : Motion α) : Motion α :=
  let ax := -k.damping * m.vx - k.force * slope.1
  let ay := -k.damping * m.vy - k.force * slope.2
  let vx := m.vx + ax * dt
  let vy := m.vy + ay * dt
  ⟨m.x + vx * dt, m.y + vy * dt, vx, vy⟩

end Motion
end FieldScript
