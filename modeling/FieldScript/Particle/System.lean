import FieldScript.GradientCache
import FieldScript.Interval
import FieldScript.Particle.Basic
import FieldScript.RandomSource

/-!
# Particle systems

Particles that move downhill over a potential. After each step a particle
is bounced off the walls of the domain, and put near its anchor again when
its state is not finite any more; then the new place goes on its trail.

A step that fails keeps what was done before the failure, in the system
and in the particles; `Advanced` holds both and the failure.
-/

namespace FieldScript

/-- The constants of a particle system. -/
structure Physics (α : Type) where
  descent : Descent α
  /-- The time of a step, and the longest one. -/
  dt : α
  /-- What a wall leaves of a velocity. -/
  restitution : α
  /-- Half the width of a difference. -/
  h : α
  trailLength : Int
  /-- Distances from the anchor at which particles start. -/
  spawnRadius : α × α
  tangentialSpeed : α
  xRange : Interval α
  yRange : Interval α

structure ParticleSystem (α : Type) where
  potential : Potential α
  physics : Physics α
  anchors : List (Point2 α)
  cache : Option (GradientCache α)
  random : RandomSource α
  respawns : Nat

variable {α : Type} [Scalar α]

def Physics.standard : Physics α where
  descent := ⟨Scalar.half, 2⟩
  dt := Scalar.ofRat (mkRat 16 1000)
  restitution := Scalar.ofRat (mkRat 8 10)
  h := Potential.defaultStep
  trailLength := 50
  spawnRadius := (1, Scalar.ofRat (mkRat 5 2))
  tangentialSpeed := Scalar.half
  xRange := .standard
  yRange := .standard

/-- What became of a particle and its system, and what went wrong on the
way. -/
structure Advanced (α β : Type) where
  result : β
  system : ParticleSystem α
  failure? : Option Failure

namespace ParticleSystem

/-- A system; without anchors the center of the domain is one. -/
def ofAnchors (potential : Potential α) (physics : Physics α) (anchors : List (Point2 α))
    (cache : Option (GradientCache α)) (random : RandomSource α) : ParticleSystem α where
  potential
  physics
  anchors := if anchors.isEmpty then [⟨physics.xRange.center, physics.yRange.center⟩] else anchors
  cache
  random
  respawns := 0

/-- Forgets the remembered gradients. -/
def invalidate (s : ParticleSystem α) : ParticleSystem α :=
  { s with cache := s.cache.map GradientCache.clear }

/-- Another potential, for which nothing is remembered. -/
def setPotential (s : ParticleSystem α) (f : Potential α) : ParticleSystem α :=
  { s with potential := f }.invalidate

def withRanges (s : ParticleSystem α) (xRange yRange : Interval α) : ParticleSystem α :=
  { s with physics := { s.physics with xRange, yRange } }

def gradient (s : ParticleSystem α) (x y : α) : Except Failure (α × α) × ParticleSystem α :=
  match s.cache with
  | none => (s.potential.gradient x y s.physics.h, s)
  | some c =>
    let (r, c) := c.gradient s.potential x y s.physics.h
    (r, { s with cache := some c })

/-! ## Placing -/

/-- The anchor of a particle; the anchors take turns. -/
def anchor (s : ParticleSystem α) (id : Int) : Point2 α :=
  (s.anchors[(id % (s.anchors.length : Int)).toNat]?).getD ⟨0, 0⟩

/-- A position at a random angle and distance from the anchor, inside the
domain, and a velocity across the direction to it. -/
def place (s : ParticleSystem α) (id : Int) : Motion α × ParticleSystem α :=
  let k := s.physics
  let a := s.anchor id
  let (low, high) := k.spawnRadius
  let (u, random) := s.random.next
  let radius := low + u * (high - low)
  let (v, random) := random.next
  let angle := v * 2 * Scalar.pi
  (⟨k.xRange.clamp (a.x + radius * Scalar.cos angle),
    k.yRange.clamp (a.y + radius * Scalar.sin angle),
    -k.tangentialSpeed * Scalar.sin angle,
    k.tangentialSpeed * Scalar.cos angle⟩, { s with random })

def spawn (s : ParticleSystem α) (id : Int) : Except Failure (Particle α) × ParticleSystem α :=
  match Trail.bounded? s.physics.trailLength with
  | .error e => (.error e, s)
  | .ok trail =>
    let (m, s) := s.place id
    (.ok { m with id, trail }, s)

/-- Particles with these identities. -/
def spawnAll (s : ParticleSystem α) : List Int → Except Failure (List (Particle α)) × ParticleSystem α
  | [] => (.ok [], s)
  | id :: ids =>
    match s.spawn id with
    | (.error e, s) => (.error e, s)
    | (.ok p, s) =>
      match s.spawnAll ids with
      | (.error e, s) => (.error e, s)
      | (.ok ps, s) => (.ok (p :: ps), s)

/-- Particles that are numbered from zero on. -/
def populate (s : ParticleSystem α) (count : Nat) :
    Except Failure (List (Particle α)) × ParticleSystem α :=
  s.spawnAll ((List.range count).map Int.ofNat)

/-- A fresh start near the anchor, with an empty trail. -/
def respawn (s : ParticleSystem α) (p : Particle α) : Particle α × ParticleSystem α :=
  let (m, s) := s.place p.id
  ({ m with id := p.id, trail := p.trail.clear }, { s with respawns := s.respawns + 1 })

/-! ## Stepping -/

/-- Bounces a coordinate and its velocity off the ends of an interval. -/
def bounceOff (r : Interval α) (restitution x v : α) : α × α :=
  if Scalar.less x r.low then (r.low, v * -restitution)
  else if Scalar.less r.high x then (r.high, v * -restitution)
  else (x, v)

/-- Bounces a motion off the walls. -/
def bounceMotion (k : Physics α) (m : Motion α) : Motion α :=
  let (x, vx) := bounceOff k.xRange k.restitution m.x m.vx
  let (y, vy) := bounceOff k.yRange k.restitution m.y m.vy
  ⟨x, y, vx, vy⟩

def bounce (s : ParticleSystem α) (p : Particle α) : Particle α :=
  { p with toMotion := bounceMotion s.physics p.toMotion }

/-- Puts the particle near its anchor if its state is not finite. -/
def recover (s : ParticleSystem α) (p : Particle α) : Particle α × ParticleSystem α :=
  if p.toMotion.isFinite then (p, s) else s.respawn p

/-- The trail with the place of the particle, at height zero where the
potential is not finite. -/
def mark (s : ParticleSystem α) (p : Particle α) : Particle α × Option Failure :=
  match p.trail.withLimit? s.physics.trailLength with
  | .error e => (p, some e)
  | .ok trail =>
    match s.potential p.x p.y with
    | .error e => ({ p with trail }, some e)
    | .ok z =>
      let z := if Scalar.isFinite z then z else 0
      ({ p with trail := trail.push ⟨p.x, p.y, z⟩ }, none)

/-- Moves one particle for some time. -/
def advance (s : ParticleSystem α) (p : Particle α) (dt : α) : Advanced α (Particle α) :=
  match s.gradient p.x p.y with
  | (.error e, s) => ⟨p, s, some e⟩
  | (.ok slope, s) =>
    let p := s.bounce { p with toMotion := p.toMotion.step s.physics.descent dt slope }
    let (p, s) := s.recover p
    let (p, failure?) := s.mark p
    ⟨p, s, failure?⟩

/-- Moves particles one after the other, up to a failure. -/
def advanceAll (s : ParticleSystem α) (dt : α) : List (Particle α) → Advanced α (List (Particle α))
  | [] => ⟨[], s, none⟩
  | p :: ps =>
    match s.advance p dt with
    | ⟨p, s, some e⟩ => ⟨p :: ps, s, some e⟩
    | ⟨p, s, none⟩ =>
      let rest := s.advanceAll dt ps
      { rest with result := p :: rest.result }

/-- The time of a step; a longer one is cut. -/
def timeOf (s : ParticleSystem α) : Option α → α
  | none => s.physics.dt
  | some dt => if Scalar.less dt s.physics.dt then dt else s.physics.dt

/-- One step of all particles. -/
def step (s : ParticleSystem α) (ps : List (Particle α)) (dt? : Option α := none) :
    Advanced α (List (Particle α)) :=
  s.advanceAll (s.timeOf dt?) ps

/-- Some steps, up to a failure. -/
def run (s : ParticleSystem α) (ps : List (Particle α)) (dt? : Option α := none) :
    Nat → Advanced α (List (Particle α))
  | 0 => ⟨ps, s, none⟩
  | n + 1 =>
    match s.step ps dt? with
    | ⟨ps, s, some e⟩ => ⟨ps, s, some e⟩
    | ⟨ps, s, none⟩ => s.run ps dt? n

end ParticleSystem
end FieldScript
