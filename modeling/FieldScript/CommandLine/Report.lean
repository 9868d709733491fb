import FieldScript.CommandLine.Options
import FieldScript.Session.Simulation
import FieldScript.Session.View

/-!
# Reports

What a command line prints about a program, and the value that it
exports. Each part of a report is an action on the session that gives
lines and entries; `Part.all` puts them in order.
-/

namespace FieldScript.CommandLine

/-- Lines that are printed and entries that are exported. -/
structure Part where
  lines : List String
  entries : List (String × Json)

namespace Part

open Session

def nothing : Part := ⟨[], []⟩

def append (p q : Part) : Part := ⟨p.lines ++ q.lines, p.entries ++ q.entries⟩

def pointsJson (ps : List (Point3 Float)) : Json := .array (ps.map fun p => .numbers p.toList)

def rowsJson (rows : List (List Float)) : Json := .array (rows.map .numbers)

def colorsJson (cs : List Color) : Json := rowsJson (cs.map Color.toList)

def head (time : Option Float) : Action Part := do
  let info ← info
  return ⟨[], [("program", info), ("time", .ofOption .number time)]⟩

def labelLine (l : String × List Float) : String :=
  "LABEL '" ++ l.1 ++ "' at (" ++ ", ".intercalate (l.2.map (fixedText 3)) ++ ")"

def labels (time : Option Float) : Action Part := do
  let ls ← Session.labels time
  return ⟨ls.map labelLine,
    [("labels", .array (ls.map fun l =>
      .object [("text", .text l.1), ("position", .numbers l.2)]))]⟩

def particleJson (p : Particle Float) : Json :=
  .object [("id", .integer p.id), ("x", .number p.x), ("y", .number p.y), ("vx", .number p.vx),
    ("vy", .number p.vy)]

def particles (steps : Int) (time : Option Float) (random : RandomSource Float) : Action Part := do
  if steps ≤ 0 then return nothing
  let ps ← simulate steps none time (← standardPhysics) random
  let finite := (ps.filter fun p => p.toMotion.isFinite).length
  return ⟨["Particles: " ++ toString ps.length ++ " simulated for " ++ toString steps ++ " steps ("
      ++ toString finite ++ " finite)"],
    [("particles", .array (ps.map particleJson))]⟩

def traceJson (t : Trace Float) : Json :=
  .object [("points", pointsJson t.points), ("magnitudes", .numbers t.magnitudes),
    ("curvature", .numbers t.aux)]

def streamlines (time : Option Float) (random : RandomSource Float) : Action Part := do
  let ts ← surfaceStreamlines time .standard random
  return ⟨["Streamlines: " ++ toString ts.length ++ " traced"],
    [("streamlines", .array (ts.map traceJson))]⟩

def contourLine (s : Contour.IsolineSet) : String :=
  "Contour " ++ generalText 6 s.level ++ ": " ++ toString s.segments.length ++ " segments, "
    ++ toString s.polylines.length ++ " polylines"

def contourJson (s : Contour.IsolineSet) : Json :=
  .object [("level", .number s.level),
    ("segments", .array (s.segments.map fun p => pointsJson [p.1, p.2]))]

def contours (time : Option Float) : Action Part := do
  if (← currentProgram).levels.isNone then warn "Program has no CONTOUR LEVELS statement"
  let ss ← Session.contours time
  return ⟨ss.map contourLine, [("contours", .array (ss.map contourJson))]⟩

/-- The share of the values above one half. -/
def unstable (values : List Float) : Float :=
  Float.ofNat (values.filter (· > 0.5)).length / Float.ofNat values.length

def lyapunov (n : Int) (time : Option Float) : Action Part := do
  if n == 0 then return nothing
  let g ← divergence time n n Lyapunov.standard true
  let size := toString n.toNat
  return ⟨["Lyapunov grid: " ++ size ++ "x" ++ size ++ ", unstable fraction "
      ++ percentText (unstable g.data.toList)],
    [("lyapunov", rowsJson (Contour.rowsOf n.toNat n.toNat g.data.toList))]⟩

def triangleJson (t : Triangle) : Json :=
  .array [.integer t.1, .integer t.2.1, .integer t.2.2]

def arrowJson (s : ArrowSample) : Json :=
  .object [("origins", pointsJson s.origins), ("vectors", rowsJson s.vectors),
    ("colors", colorsJson s.colors)]

def glyphJson (s : GlyphSample) : Json :=
  .object [("centers", pointsJson (s.glyphs.map Glyph.center)),
    ("eigenvalues", rowsJson (s.glyphs.map fun g => g.axes.map (·.1))),
    ("colors", colorsJson s.colors)]

/-- Samples by name, if there are any. -/
def named (key : String) (fields : List (String × Json)) : List (String × Json) :=
  if fields.isEmpty then [] else [(key, .object fields)]

def mesh (steps : Int) (time : Option Float) : Action Part := do
  if steps == 0 then return nothing
  let m ← surfaceMesh time steps
  let colors ← surfaceColors m
  let arrows ← arrows time
  let glyphs ← glyphs time
  let lines := ["Surface mesh: " ++ toString m.vertices.length ++ " vertices, "
    ++ toString m.faces.length ++ " faces"]
  let arrowLines := arrows.map fun a =>
    "Vector field " ++ a.1 ++ ": " ++ toString a.2.origins.length ++ " arrows"
  let glyphLines := glyphs.map fun g =>
    "Tensor field " ++ g.1 ++ ": " ++ toString g.2.glyphs.length ++ " glyphs"
  return ⟨lines ++ arrowLines ++ glyphLines,
    ("mesh", .object [("vertices", pointsJson m.vertices),
      ("faces", .array (m.faces.map triangleJson)), ("colors", colorsJson colors)])
    :: named "vectors" (arrows.map fun a => (a.1, arrowJson a.2))
    ++ named "tensors" (glyphs.map fun g => (g.1, glyphJson g.2))⟩

def geodesic (ends : Point2 Float × Point2 Float) (time : Option Float) : Action Part := do
  let g ← way ends.1 ends.2 time
  let line := match g.reachable, g.distance with
    | true, some d =>
      "Geodesic: distance " ++ fixedText 4 d ++ " over " ++ toString g.size ++ " points"
    | _, _ => "Geodesic: end point is not reachable on the surface mesh"
  return ⟨[line], [("geodesic", .object [("points", pointsJson g.points),
    ("distance", .ofOption .number (if g.reachable then g.distance else none)),
    ("reachable", .bool g.reachable)])]⟩

/-- All parts that the options ask for. Every part with chance in it
starts with the same source. -/
def all (o : Options) (random : RandomSource Float) : Action Part := do
  let asked (b : Bool) (part : Action Part) : Action Part := if b then part else pure nothing
  let parts : List (Action Part) :=
    [head o.time, labels o.time, particles o.steps o.time random,
     asked o.streamlines (streamlines o.time random), asked o.contours (contours o.time),
     lyapunov (o.lyapunov.getD 0) o.time, mesh (o.mesh.getD 0) o.time,
     match o.geodesic with
     | none => pure nothing
     | some ends => geodesic ends o.time]
  parts.foldlM (fun done part => do return done.append (← part)) nothing

end Part

/-- What a command line leads to. -/
structure Outcome where
  code : Nat
  output : String
  /-- The file to be written and the value to be written there. -/
  exported : Option (String × Json)
  warnings : List String

namespace Outcome

def ofCode (code : Nat) (output : String := "") : Outcome := ⟨code, output, none, []⟩

end Outcome

/-- A text with each end of line as one character. -/
def plainLines : List Char → List Char
  | '\r' :: '\n' :: rest => '\n' :: plainLines rest
  | '\r' :: rest => '\n' :: plainLines rest
  | c :: rest => c :: plainLines rest
  | [] => []

/-- Compiles a text and does what the options ask for. -/
def perform (o : Options) (source : String) (random : RandomSource Float) :
    Session.Action Outcome := do
  match ← Session.compile source with
  | .rejected f =>
    let reason := match f with
      | .statement .. => f.describe ++ "\n"
      | _ => ""
    return { Outcome.ofCode 1 ("Compilation failed: " ++ reason) with
      warnings := (← get).warnings }
  | .compiled _ =>
    let summary ← Session.summary
    let part ← Part.all o random
    let name := o.exportFile.filter (· != "")
    let notes := match name with
      | none => []
      | some n => ["", "Exporting results to " ++ n ++ "...", "Results saved successfully!"]
    return ⟨0, summary ++ Session.unlines (part.lines ++ notes),
      name.map fun n => (n, .object part.entries), (← get).warnings⟩

/-- The outcome of a command line, given the texts of files. Asking for
help, and asking for nothing, prints `help`. -/
def run (texts : List String) (files : String → Option String)
    (random : Option Int → RandomSource Float) (help : String := "") : Except Failure Outcome :=
  match Options.ofTexts texts with
  | .error .usage => .ok (.ofCode 2)
  | .error .help => .ok (.ofCode 0 help)
  | .ok o =>
    let performed (source : String) : Except Failure Outcome :=
      ((perform o source (random o.seed)).run.run Session.empty).1
    match o.exampleName.bind Example.source?, o.file.filter (· != "") with
    | some source, _ => performed source
    | none, some name =>
      match files name with
      | none => .ok (.ofCode 1 ("Error: File '" ++ name ++ "' not found\n"))
      | some source => performed (String.ofList (plainLines source.toList))
    | none, none => .ok (.ofCode 0 help)

end FieldScript.CommandLine
