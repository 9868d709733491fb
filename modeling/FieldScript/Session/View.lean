import FieldScript.Contour
import FieldScript.Geodesic
import FieldScript.Glyph
import FieldScript.Lyapunov
import FieldScript.Session.Basic
import FieldScript.Streamline.Tracer

/-!
# Views of a program

What can be seen of a compiled program at one time of its animation: its
surface, arrows, glyphs, labels, isolines, streamlines, ways and the
divergence of its motions.
-/

namespace FieldScript.Session

/-- How many cells a surface has along each side. -/
def defaultSteps : Int := 60

def surfaceMesh (time : Option Float) (steps : Int := defaultSteps) : Action SurfaceMesh := do
  let f ← potential time
  let p ← currentProgram
  lift (SurfaceMesh.sample f p.xRange p.yRange steps)

/-- The colors of a surface in the color map of the program, over its
third range. -/
def surfaceColors (m : SurfaceMesh) : Action (List Color) := do
  let p ← currentProgram
  return m.colors p.colorMap (some p.zRange)

/-- Samples of the plotted definitions that are bound; the others are
skipped with a warning. -/
def sampleEach {β : Type} (what : String) (plots : List (String × Int)) (time : Option Float)
    (pick : Evaluator → String → Except Failure (List Prepared) × Evaluator)
    (sample : VectorField → Interval Float → Interval Float → Int → Option Field →
      Except Failure (β × List String)) : Action (List (String × β)) := do
  let f ← potential time
  let p ← currentProgram
  plots.foldlM (fun (done : List (String × β)) (name, gridSize) => do
    let ev ← currentEvaluator
    match ev.unbound.lookup name with
    | some reason =>
      warn ("Skipping " ++ what ++ " field " ++ name ++ ": " ++ reason)
      return done
    | none =>
      let (components, ev) := pick ev name
      keepEvaluator ev
      let components ← lift components
      let values := p.frameValues time
      let (s, ws) ← lift (sample (fun x y => ev.callAll components [x, y] values) p.xRange p.yRange
        gridSize (some f))
      warnAll ws
      return Evaluator.put done name s) []

/-- The arrows of the vector plots, by name. -/
def arrows (time : Option Float) : Action (List (String × ArrowSample)) := do
  let p ← currentProgram
  sampleEach "vector" (p.vectorPlots.map fun v => (v.1, (v.2 : Int))) time
    Evaluator.vectorFunction ArrowSample.sample

/-- The glyphs of the tensor plots, by name. -/
def glyphs (time : Option Float) : Action (List (String × GlyphSample)) := do
  let p ← currentProgram
  sampleEach "tensor" (p.tensorPlots.map fun n => (n, GlyphSample.defaultGridSize)) time
    Evaluator.tensorFunction GlyphSample.sample

/-- The labels with their positions. -/
def labels (time : Option Float) : Action (List (String × List Float)) := do
  let p ← currentProgram
  let values := p.frameValues time
  p.labels.mapM fun l => do
    let ev ← currentEvaluator
    lift (Label.evaluate ev l values)

/-- The isolines on the surface, of the given levels or those of the
program. -/
def contours (time : Option Float) (resolution : Int := Contour.defaultResolution)
    (levels : Option (List Float) := none) : Action (List Contour.IsolineSet) := do
  let p ← currentProgram
  let f ← potential time
  lift (Contour.ofLevels f p.xRange p.yRange ((levels <|> p.levels).getD []) resolution (some f))

/-- The streamlines of the surface. -/
def surfaceStreamlines (time : Option Float) (settings : TracerSettings Float)
    (random : RandomSource Float) : Action (List (Trace Float)) := do
  let f ← potential time
  let p ← currentProgram
  lift (streamlines f p.xRange p.yRange settings random none)

/-- The field lines of the vector plots that are bound, by name, on the
surface. -/
def vectorLines (time : Option Float) (settings : TracerSettings Float)
    (random : RandomSource Float) : Action (List (String × List (Trace Float))) := do
  let f ← potential time
  let p ← currentProgram
  p.vectorPlots.foldlM (fun (done : List (String × List (Trace Float))) (name, _) => do
    let ev ← currentEvaluator
    if (ev.unbound.lookup name).isSome then return done
    let (flow, ev) := Flow.ofDefinition ev name (p.frameValues time)
    keepEvaluator ev
    let flow ← lift flow
    let lines ← lift (fieldLines flow p.xRange p.yRange settings random (some f) none)
    return Evaluator.put done name lines) []

/-- The way over the surface between two points of the plane. -/
def way (start finish : Point2 Float) (time : Option Float) (steps : Int := defaultSteps)
    (indexed : Bool := false) : Action (Geodesic Float) := do
  let m ← surfaceMesh time steps
  let f := (← potential time).potential
  let raise (p : Point2 Float) : Action (Point3 Float) := do
    return ⟨p.x, p.y, ← lift (f p.x p.y)⟩
  let start ← raise start
  let finish ← raise finish
  lift ((Mesh.ofSurface m).geodesic? indexed start finish)

/-- The divergence of motions on a grid over the domain. -/
def divergence (time : Option Float) (width height : Int) (settings : LyapunovSettings)
    (normalize : Bool) : Action Samples := do
  let f ← potential time
  let p ← currentProgram
  lift (Lyapunov.grid f p.xRange p.yRange width height settings normalize)

end FieldScript.Session
