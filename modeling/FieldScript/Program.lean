import FieldScript.Animation
import FieldScript.Interval
import FieldScript.Label
import FieldScript.Statement

/-!
# Programs

A program is what the statements of a source say together: ranges,
definitions in an order of dependency, plots, labels and settings.
`Program.ofSource` reads the statements one by one and then takes them
together; the first fault ends it. A program always has a surface to plot:
where only fields are plotted, a flat one stands in front of them.
-/

namespace FieldScript

inductive Plot where
  /-- `source` is the text that was written, `expr` the one that is
  evaluated; an implicit surface was not written at all. -/
  | surface (expr source : String) (implicit : Bool)
  | vectorField (name : String) (gridSize : Nat)
  | tensorField (name : String) (glyph : String)
  deriving Repr

namespace Plot

def isSurface : Plot → Bool
  | surface .. => true
  | _ => false

def typeName : Plot → String
  | surface .. => "surface"
  | vectorField .. => "vector"
  | tensorField .. => "tensor"

def describe : Plot → String
  | surface e _ _ => "Surface(" ++ e ++ ")"
  | vectorField n g => "VectorField(" ++ n ++ ", grid=" ++ toString g ++ ")"
  | tensorField n g => "TensorField(" ++ n ++ " as " ++ g ++ ")"

end Plot

structure Program where
  xRange : Interval Float
  yRange : Interval Float
  zRange : Interval Float
  definitions : Definitions
  /-- The names of the definitions, each after all that it uses. -/
  order : List String
  plots : List Plot
  labels : List Label
  animation : Option (Animation Float)
  levels : Option (List Float)
  particles : Option Nat
  colorMap : String

namespace Program

/-- The expression of the first surface. -/
def surfaceExpr (p : Program) : String :=
  (p.plots.findSome? fun
    | .surface e _ _ => some e
    | _ => none).getD "0"

/-- Names and grid sizes of the vector fields. -/
def vectorPlots (p : Program) : List (String × Nat) :=
  p.plots.filterMap fun
    | .vectorField n g => some (n, g)
    | _ => none

def tensorPlots (p : Program) : List String :=
  p.plots.filterMap fun
    | .tensorField n _ => some n
    | _ => none

/-- The version of the form in which programs are reported. -/
def version : Nat := 1

/-! ## Taking statements together -/

/-- What has been gathered from the statements so far; plots come with
their lines. -/
structure Draft where
  xRange : Interval Float := Interval.standard
  yRange : Interval Float := Interval.standard
  zRange : Interval Float := Interval.standard
  definitions : Definitions := []
  plots : List (Nat × Plot) := []
  labels : List Label := []
  animation : Option (Nat × String × String × String × String) := none
  levels : Option (List Float) := none
  particles : Option Nat := none
  colorMap : Option String := none

/-- A fault that is found when statements are taken together. -/
def failAt {α : Type} (line : Nat) (f : StatementFault) : Except Failure α :=
  .error (.statement line f none)

/-- A setting that may be given once. -/
def once {α : Type} (line : Nat) (what : String) (old : Option α) (new : α) :
    Except Failure (Option α) :=
  match old with
  | some _ => failAt line (.repeated what)
  | none => .ok (some new)

def Draft.addRange (d : Draft) (axis : Axis) (low high : Float) : Except Failure Draft := do
  let r ← Interval.ofBounds low high
  match axis with
  | .x => return { d with xRange := r }
  | .y => return { d with yRange := r }
  | .z => return { d with zRange := r }

/-- Takes one more statement into the draft. -/
def Draft.add (d : Draft) (s : Statement) : Except Failure Draft := do
  match s.body with
  | .range axis low high => d.addRange axis low high
  | .colorMap n => return { d with colorMap := ← once s.line "COLOR MAP" d.colorMap n }
  | .particles n => return { d with particles := ← once s.line "PARTICLES" d.particles n }
  | .contour ls => return { d with levels := ← once s.line "CONTOUR" d.levels ls }
  | .animate p a b c =>
    return { d with animation := ← once s.line "ANIMATE" d.animation (s.line, p, a, b, c) }
  | .label t (x, y, z) => return { d with labels := d.labels ++ [⟨t, [x, y, z]⟩] }
  | .define n ps b =>
    if d.definitions.contains n then failAt s.line (.alreadyDefined n)
    else return { d with definitions := d.definitions ++ [⟨n, ps, b, s.line⟩] }
  | .surface e => return { d with plots := d.plots ++ [(s.line, .surface e e false)] }
  | .vectorField n g => return { d with plots := d.plots ++ [(s.line, .vectorField n g)] }
  | .tensorField n g => return { d with plots := d.plots ++ [(s.line, .tensorField n g)] }

/-- The definitions in order; a cycle is a fault on the line of its first
definition. -/
def orderOf (ds : Definitions) : Except Failure (List String) :=
  match ds.order with
  | .ok order => .ok order
  | .error (.circular cycle) =>
    let line := (((cycle.head?).bind ds.get?).map (·.line)).getD 0
    failAt line (.circular cycle)
  | .error f => .error f

/-- A plotted field has to be defined, by a definition of its kind. -/
def checkPlot (ds : Definitions) (line : Nat) : Plot → Except Failure Unit
  | .surface .. => .ok ()
  | .vectorField n _ =>
    if (ds.get? n).any (·.kind == .vector) then .ok ()
    else failAt line (.undefinedField "Vector" n)
  | .tensorField n _ =>
    if (ds.get? n).any (·.kind == .tensor) then .ok ()
    else failAt line (.undefinedField "Tensor" n)

/-- The names between the brackets of a call, if there is nothing else
between them. -/
def plainArguments? (ts : List Token) : Option (List String) :=
  (splitTopLevel ts).mapM fun
    | [t] => if t.kind == .ident then some t.value else none
    | _ => none

/-- The body of a function that is plotted with its own parameter names
takes the place of the call. -/
def inlined (ds : Definitions) (source : String) : String :=
  match tokenizeText source with
  | name :: opening :: rest =>
    if name.kind == .ident && opening.kind == .lparen
        && (rest.getLast?.map Token.kind) == some .rparen then
      match ds.get? name.value with
      | some fn =>
        if fn.kind == .scalar && plainArguments? rest.dropLast == some fn.params then fn.body
        else source
      | none => source
    else source
  | _ => source

def resolvePlot (ds : Definitions) : Plot → Plot
  | .surface _ source implicit => .surface (inlined ds source) source implicit
  | p => p

/-- The plots with a surface among them. -/
def withSurface (lines : Nat) (plots : List Plot) : Except Failure (List Plot) :=
  if plots.any Plot.isSurface then .ok plots
  else if plots.isEmpty then failAt (max 1 lines) .nothingToRender
  else .ok (.surface "0" "" true :: plots)

/-- The value of a constant expression of an animation. -/
def constantValue (ds : Definitions) (order : List String) (line : Nat) (text : String) :
    Except Failure Float := do
  let value ← match readFloat? text with
    | some x => pure x
    | none =>
      let (ev, _) ← Evaluator.ofOrder ds order
      match ev.evaluate text [] with
      | .ok s => pure s.first
      | .error f => if f.isEvaluation then failAt line (.notConstant text) else throw f
  if value.isFinite then return value else failAt line (.notFinite text)

def animationOf (ds : Definitions) (order : List String)
    (a : Nat × String × String × String × String) : Except Failure (Animation Float) := do
  let (line, parameter, start, stop, step) := a
  let start ← constantValue ds order line start
  let stop ← constantValue ds order line stop
  let step ← constantValue ds order line step
  if step ≤ 0 then failAt line .stepSign else return ⟨parameter, start, stop, step⟩

/-- Drops numbers that come again. -/
def distinct : List Float → List Float
  | [] => []
  | x :: xs => x :: (distinct xs).filter (· != x)

/-- Levels in ascending order, each once. -/
def sortedLevels (ls : List Float) : List Float :=
  (distinct ls).mergeSort fun a b => a ≤ b

/-- The program of a complete draft; `lines` is how many lines the source
has. -/
def ofDraft (lines : Nat) (d : Draft) : Except Failure Program := do
  let order ← orderOf d.definitions
  for p in d.plots do checkPlot d.definitions p.1 p.2
  let plots ← withSurface lines (d.plots.map fun p => resolvePlot d.definitions p.2)
  let animation ← match d.animation with
    | some a => do pure (some (← animationOf d.definitions order a))
    | none => pure none
  return { xRange := d.xRange, yRange := d.yRange, zRange := d.zRange, definitions := d.definitions
           order, plots, labels := d.labels, animation, levels := d.levels.map sortedLevels
           particles := d.particles, colorMap := d.colorMap.getD "default" }

/-- The program of statements in the order of the source. -/
def ofStatements (lines : Nat) (ss : List Statement) : Except Failure Program := do
  ofDraft lines (← ss.foldlM Draft.add {})

/-- The program that a source writes. -/
def ofSource (source : String) : Except Failure Program := do
  let chars := source.toList
  let statements ← (logicalLines chars).mapM Statement.parse
  ofStatements (Source.lineCount chars) statements

/-- An evaluator for the program, with the warnings of binding. -/
def evaluator (p : Program) : Except Failure (Evaluator × List String) :=
  Evaluator.ofOrder p.definitions p.order

/-- The value of the animation's parameter in a frame: the given time, or
the start. -/
def frameValues (p : Program) (time : Option Float) : Assignment :=
  match p.animation with
  | none => []
  | some a => [(a.parameter, .scalar (time.getD a.start))]

end Program
end FieldScript
