import FieldScript.Evaluator
import FieldScript.Field
import FieldScript.Streamline.Seed
import FieldScript.Trace

/-!
# Streamlines

Curves along a flow, by the classical Runge-Kutta method with a fixed
step. A curve ends before the step that is not finite, leaves the domain
or hardly moves, and at the latest after a number of steps. Its points are
lifted to a height, and their further number is the curvature.
-/

namespace FieldScript

structure TracerSettings (α : Type) where
  dt : α
  maxSteps : Int
  /-- A curve ends where the mean direction of a step is shorter. -/
  epsilon : α
  /-- Curves with fewer points are left out. -/
  minPoints : Int
  seedCount : Int
  strategy : String
  /-- Half the width of a difference. -/
  h : α
  /-- The resolution of the search for critical points. -/
  scanResolution : Int
  criticalTolerance : α
  ringRadius : α
  ringPoints : Int

structure Tracer (α : Type) where
  flow : Flow α
  xRange : Interval α
  yRange : Interval α
  settings : TracerSettings α
  height : Option (Potential α)
  random : RandomSource α

variable {α : Type} [Scalar α]

def TracerSettings.standard : TracerSettings α where
  dt := Scalar.ofRat (mkRat 5 100)
  maxSteps := 500
  epsilon := Scalar.ofRat (mkRat 1 1000)
  minPoints := 10
  seedCount := 30
  strategy := SeedStrategy.random.name
  h := Potential.defaultStep
  scanResolution := 40
  criticalTolerance := Scalar.ofRat (mkRat 5 100)
  ringRadius := Scalar.ofRat (mkRat 15 100)
  ringPoints := 8

namespace Tracer

/-- One Runge-Kutta step, given the direction at its start: the mean
direction and the point that is reached. -/
def advance (flow : Flow α) (dt : α) (p : Point2 α) (k1 : α × α) :
    Except Failure (Point2 α × Point2 α) := do
  let k2 ← flow (p.x + Scalar.half * dt * k1.1) (p.y + Scalar.half * dt * k1.2)
  let k3 ← flow (p.x + Scalar.half * dt * k2.1) (p.y + Scalar.half * dt * k2.2)
  let k4 ← flow (p.x + dt * k3.1) (p.y + dt * k3.2)
  let dx := (k1.1 + 2 * k2.1 + 2 * k3.1 + k4.1) / 6
  let dy := (k1.2 + 2 * k2.2 + 2 * k3.2 + k4.2) / 6
  return (⟨dx, dy⟩, ⟨p.x + dt * dx, p.y + dt * dy⟩)

/-- Whether a curve goes on after a step. -/
def goesOn (t : Tracer α) (mean next : Point2 α) : Bool :=
  Scalar.isFinite next.x && Scalar.isFinite next.y
    && t.xRange.contains next.x && t.yRange.contains next.y
    && !Scalar.less (Scalar.hypot mean.x mean.y) t.settings.epsilon

/-- The height of the curve at a point. -/
def heightAt (t : Tracer α) (p : Point2 α) : Except Failure α :=
  match t.height with
  | none => .ok 0
  | some f => do
    let z ← f p.x p.y
    return if Scalar.isFinite z then z else 0

/-- The points of a curve with the strength of the flow there, at most so
many. -/
def orbit (t : Tracer α) (p : Point2 α) : Nat → Except Failure (List (Point3 α × α))
  | 0 => .ok []
  | n + 1 => do
    let k1 ← t.flow p.x p.y
    let z ← t.heightAt p
    let (mean, next) ← advance t.flow t.settings.dt p k1
    let rest ← if t.goesOn mean next then t.orbit next n else pure []
    return (⟨p.x, p.y, z⟩, Scalar.hypot k1.1 k1.2) :: rest

/-- The curve from a point. -/
def trace (t : Tracer α) (start : Point2 α) : Except Failure (Trace α) := do
  let steps ← t.orbit start t.settings.maxSteps.toNat
  let points := steps.map (·.1)
  return ⟨points, steps.map (·.2), Trace.curvature points⟩

/-- Rings around the critical points of the flow. -/
def criticalSeeds (t : Tracer α) : Except Failure (List (Point2 α)) := do
  let s := t.settings
  let centers ← Seed.criticalPoints t.flow t.xRange t.yRange s.scanResolution s.criticalTolerance
  if s.ringPoints < 0 then throw .invalidValue
  return centers.flatMap (Seed.ring t.xRange t.yRange s.ringRadius s.ringPoints.toNat)

/-- Seeds by the name of a strategy. -/
def seeds (t : Tracer α) (strategy : String) (count : Int) :
    Except Failure (List (Point2 α) × Tracer α) := do
  match ← SeedStrategy.ofName strategy with
  | .random =>
    let (ps, random) := Seed.random t.xRange t.yRange count.toNat t.random
    return (ps, { t with random })
  | .grid =>
    if count < 0 then throw .invalidValue
    return (Seed.lattice t.xRange t.yRange count.toNat, t)
  | .boundary => return (Seed.boundary t.xRange t.yRange count.toNat, t)
  | .criticalPoint => return (← t.criticalSeeds, t)

/-- The strategy and the count that count unless others are given. -/
def seedsOr (t : Tracer α) (strategy : Option String) (count : Option Int) :
    Except Failure (List (Point2 α) × Tracer α) :=
  let name := match strategy with
    | none | some "" => t.settings.strategy
    | some s => s
  t.seeds name (count.getD t.settings.seedCount)

/-- The curves from these seeds that have points enough. -/
def traceFrom (t : Tracer α) (starts : List (Point2 α)) : Except Failure (List (Trace α)) := do
  return (← starts.mapM t.trace).filter fun c => t.settings.minPoints ≤ c.size

/-- The curves from given seeds, or from those of a strategy. -/
def traceAll (t : Tracer α) (starts : Option (List (Point2 α))) (strategy : Option String) :
    Except Failure (List (Trace α)) × Tracer α :=
  match starts with
  | some ps => (t.traceFrom ps, t)
  | none =>
    match t.seedsOr strategy none with
    | .error e => (.error e, t)
    | .ok (ps, t) => (t.traceFrom ps, t)

end Tracer

/-! ## Flows -/

namespace Flow

/-- The planar part of a vector definition. Parameters after the first two
are zero, and the values count before the variables. -/
def ofComponents (components : List Prepared) (extra : Nat) (environment values : Assignment) :
    Flow Float :=
  let zeros : List Samples := List.replicate extra (.scalar 0)
  let component (i : Nat) : Potential Float :=
    match components[i]? with
    | none => fun _ _ => .error .outOfBounds
    | some p => (Field.safe fun x y => p.call environment (x :: y :: zeros) values).potential
  fun x y => do return (← component 0 x y, ← component 1 x y)

/-- The flow of a vector definition of an evaluator. -/
def ofDefinition (ev : Evaluator) (name : String) (values : Assignment) :
    Except Failure (Flow Float) × Evaluator :=
  let (r, ev) := ev.vectorFunction name
  let params := ((ev.definitions.get? name).map fun d => d.params.length).getD 0
  (r.map fun cs => ofComponents cs (params - 2) ev.environment values, ev)

end Flow

/-- The descent streamlines of a field on its surface, from given seeds or
from those of the settings. -/
def streamlines (f : Field) (xRange yRange : Interval Float) (settings : TracerSettings Float)
    (random : RandomSource Float) (starts : Option (List (Point2 Float))) :
    Except Failure (List (Trace Float)) :=
  let f := f.potential
  (Tracer.traceAll ⟨f.descent settings.h, xRange, yRange, settings, some f, random⟩ starts none).1

/-- The field lines of a flow, lifted to a height. -/
def fieldLines (flow : Flow Float) (xRange yRange : Interval Float)
    (settings : TracerSettings Float) (random : RandomSource Float) (height : Option Field)
    (starts : Option (List (Point2 Float))) : Except Failure (List (Trace Float)) :=
  (Tracer.traceAll ⟨flow, xRange, yRange, settings, height.map Field.potential, random⟩ starts
    none).1

end FieldScript
