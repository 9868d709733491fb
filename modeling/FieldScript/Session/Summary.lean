import FieldScript.Json
import FieldScript.Session.Basic

/-!
# Summaries

The program of a session as a text for readers and as a value for export.
-/

namespace FieldScript.Session

def rule : String := String.ofList (List.replicate 70 '=')

/-- A text with blanks before it, so that it has at least this length. -/
def padLeft (width : Nat) (s : String) : String :=
  String.ofList (List.replicate (width - s.length) ' ') ++ s

def rangeLine (axis : String) (r : Interval Float) : String :=
  "RANGE " ++ axis ++ ": " ++ generalText 6 r.low ++ " .. " ++ generalText 6 r.high

def definitionLine (unbound : List (String × String)) (d : NamedFunction) : String :=
  padLeft 8 d.kind.name ++ "  " ++ d.signature ++ " = " ++ d.body
    ++ (if (unbound.lookup d.name).isSome then "  (unbound)" else "")

def animationLine (a : Animation Float) : Except Failure String := do
  return "ANIMATE " ++ a.parameter ++ ": " ++ generalText 6 a.start ++ " -> "
    ++ generalText 6 a.stop ++ " step " ++ generalText 6 a.step ++ " ("
    ++ toString (← a.frameCount) ++ " frames)"

/-- The lines that describe a program. -/
def describeProgram (p : Program) (unbound : List (String × String)) :
    Except Failure (List String) := do
  let animation ← match p.animation with
    | none => pure []
    | some a => pure [← animationLine a]
  let levels := match p.levels with
    | none => []
    | some ls => ["CONTOUR LEVELS: " ++ ", ".intercalate (ls.map (generalText 6))]
  let particles := match p.particles with
    | none => []
    | some n => ["PARTICLES: " ++ toString n]
  return ["", rule, "G3D Program", rule, "",
      rangeLine "X" p.xRange, rangeLine "Y" p.yRange, rangeLine "Z" p.zRange,
      "COLOR MAP: " ++ p.colorMap, ""]
    ++ (p.order.filterMap p.definitions.get?).map (definitionLine unbound)
    ++ [""] ++ p.plots.map (fun q => "PLOT " ++ q.describe)
    ++ animation ++ levels ++ particles ++ ["", rule, ""]

def unlines (lines : List String) : String := String.join (lines.map (· ++ "\n"))

/-- The program as a text. -/
def summary : Action String := do
  match (← get).program with
  | none => return "No program compiled yet.\n"
  | some p =>
    let unbound ← if p.order.isEmpty then pure [] else pure (← currentEvaluator).unbound
    return unlines (← lift (describeProgram p unbound))

def bounds (r : Interval Float) : Json := .numbers [r.low, r.high]

/-- What is known about the program. -/
def info : Action Json := do
  let p ← currentProgram
  let ev ← currentEvaluator
  return .object
    [("version", .integer Program.version),
     ("ranges", .object [("x", bounds p.xRange), ("y", bounds p.yRange), ("z", bounds p.zRange)]),
     ("functions", .texts p.definitions.names),
     ("plots", .texts (p.plots.map Plot.describe)),
     ("color_map", .text p.colorMap),
     ("animation", .ofOption (fun a => .text a.parameter) p.animation),
     ("contour_levels", .numbers (p.levels.getD [])),
     ("labels", .integer p.labels.length),
     ("particles", .integer (p.particles.getD 0)),
     ("function_order", .texts p.order),
     ("unbound", .object (ev.unbound.map fun u => (u.1, .text u.2)))]

end FieldScript.Session
