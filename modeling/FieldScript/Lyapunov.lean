import FieldScript.Field
import FieldScript.Interval
import FieldScript.Motion

/-!
# Divergence of motions

How fast two motions of damped descent drift apart that start close to
each other: the mean over the steps of the logarithm of their distance,
relative to the one at the start. Motions may start at many points at
once; there are no walls.
-/

namespace FieldScript

structure LyapunovSettings where
  steps : Int
  dt : Float
  /-- The distance of the two motions at the start. -/
  perturbation : Float
  descent : Descent Float
  /-- Half the width of a difference. -/
  h : Float

namespace Lyapunov

def standard : LyapunovSettings := ⟨100, 0.02, 1e-3, ⟨0.5, 2⟩, Field.defaultStep⟩

def defaultGridSize : Int := 32

/-- Motions that start at rest, with the shape of their coordinates. -/
structure Swarm where
  shape : List Nat
  motions : Array (Motion Float)

namespace Swarm

def x (s : Swarm) : Samples := ⟨s.shape, s.motions.map (·.x)⟩

def y (s : Swarm) : Samples := ⟨s.shape, s.motions.map (·.y)⟩

def ofStart (x y : Samples) : Swarm := ⟨x.shape, Array.zipWith Motion.rest x.data y.data⟩

/-- One step of all motions. -/
def step (f : Field) (k : LyapunovSettings) (s : Swarm) : Except Failure Swarm := do
  let (dx, dy) ← f.gradient s.x s.y k.h
  let dx ← dx.stretch? s.shape
  let dy ← dy.stretch? s.shape
  let slopes := Array.zip dx.data dy.data
  return { s with motions := Array.zipWith (Motion.step k.descent k.dt) slopes s.motions }

/-- The motions after each of some steps. -/
def orbit (f : Field) (k : LyapunovSettings) (s : Swarm) : Nat → Except Failure (List Swarm)
  | 0 => .ok []
  | n + 1 => do
    let s ← s.step f k
    return s :: (← s.orbit f k n)

end Swarm

/-- The motions after each step. The coordinates of the starts must have
one shape. -/
def future (f : Field) (x y : Samples) (k : LyapunovSettings) : Except Failure (List Swarm) := do
  if k.steps < 0 then throw .invalidValue
  if x.shape != y.shape then
    if k.steps > 0 then discard (f.gradient x y k.h)
    throw .shapeMismatch
  (Swarm.ofStart x y).orbit f k k.steps.toNat

/-- What a step adds: nothing where a motion is not finite or the two are
at one place. -/
def term (perturbation : Float) (p q : Motion Float) : Float :=
  let separation := Binary64.hypot (p.x - q.x) (p.y - q.y)
  if p.x.isFinite && q.x.isFinite && separation.isFinite && separation > 0 then
    (separation / perturbation).log
  else 0

/-- The estimate at each start; the mean is over all steps. -/
def exponent (f : Field) (x y : Samples) (k : LyapunovSettings) : Except Failure Samples := do
  let first ← future f x y k
  let second ← future f (x.shift k.perturbation) y k
  let zero := Array.replicate x.data.size 0
  let terms := List.zipWith
    (fun (a b : Swarm) => Array.zipWith (term k.perturbation) a.motions b.motions) first second
  let total := terms.foldl (Array.zipWith (· + ·)) zero
  return ⟨x.shape, total.map (· / Float.ofInt k.steps)⟩

/-- The estimates on a grid. What is not finite reads zero; normalized
estimates are between zero and one if one is positive. -/
def grid (f : Field) (xRange yRange : Interval Float) (width height : Int)
    (k : LyapunovSettings) (normalize : Bool) : Except Failure Samples := do
  let xs ← xRange.spaced? width
  let ys ← yRange.spaced? height
  let (x, y) := Samples.mesh xs.toArray ys.toArray
  let g := Field.safeValue (← exponent f x y k)
  let peak := match g.data.toList with
    | [] => 0
    | v :: vs => vs.foldl max v
  if normalize && peak > 0 then return g.map fun v => Scalar.max 0 (v / peak) else return g

end Lyapunov
end FieldScript
