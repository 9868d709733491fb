import FieldScript.Density
import FieldScript.Particle.System
import FieldScript.Session.Basic

/-!
# Particles over a program

Particles move over the surface of a program. If it is animated, the
surface of the next frame is taken before every step, and after the last
frame the first one again.
-/

namespace FieldScript.Session

/-- How many particles there are unless the program says so. -/
def defaultParticles : Int := 100

/-- Points at which particles start, if they are in the domain. -/
def exceptionalPoints : List (Point2 Float) := [⟨3, 2⟩, ⟨-2, 4⟩, ⟨-4, -3⟩, ⟨2, -4⟩]

/-- The starting points in the domain; if there are none, its center is
one. -/
def anchors : Action (List (Point2 Float)) := do
  let p ← currentProgram
  return exceptionalPoints.filter fun a => p.xRange.contains a.x && p.yRange.contains a.y

/-- The standard constants over the domain of the program. -/
def standardPhysics : Action (Physics Float) := do
  let p ← currentProgram
  return { Physics.standard with xRange := p.xRange, yRange := p.yRange }

def particleSystem (time : Option Float) (physics : Physics Float)
    (random : RandomSource Float) : Action (ParticleSystem Float) := do
  let f ← potential time
  return .ofAnchors f.potential physics (← anchors) (some .empty) random

/-- The first frame of a simulation: the one nearest to the time. -/
def firstFrame (frames : List (Option Float)) : Option Float → Nat
  | none => 0
  | some t => (Scalar.leastIndex? (frames.map fun f => ((f.getD t) - t).abs)).getD 0

/-- Takes steps; `i` counts the frames. -/
def stepThrough (frames : Array (Option Float)) (i : Nat) (s : ParticleSystem Float)
    (ps : List (Particle Float)) : Nat → Action (List (Particle Float))
  | 0 => return ps
  | n + 1 => do
    let s ←
      if frames.size > 1 then
        pure (s.setPotential (← potential ((frames[i % frames.size]?).join)).potential)
      else pure s
    match s.step ps with
    | ⟨ps, s, none⟩ => stepThrough frames (i + 1) s ps n
    | ⟨_, _, some f⟩ => throw f

/-- Particles after some steps. -/
def simulate (steps : Int) (count : Option Int) (time : Option Float) (physics : Physics Float)
    (random : RandomSource Float) : Action (List (Particle Float)) := do
  let p ← currentProgram
  let count := count.getD ((p.particles.map Int.ofNat).getD defaultParticles)
  let s ← particleSystem time physics random
  let (ps, s) := s.populate count.toNat
  let ps ← lift ps
  let frames ← frames
  stepThrough frames.toArray (firstFrame frames time) s ps steps.toNat

/-- The intensities of the density of particles over the domain. -/
def flux (ps : List (Particle Float)) (cells : Int) : Action (List (List Float)) := do
  let p ← currentProgram
  let f ← lift (Flux.empty? p.xRange p.yRange cells 1 2)
  return (f.update (ps.map fun q => ⟨q.x, q.y⟩)).intensities ps.length

end FieldScript.Session
