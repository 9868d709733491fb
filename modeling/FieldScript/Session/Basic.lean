import FieldScript.Program
import FieldScript.Surface

/-!
# Sessions

A session holds the program that was compiled last, with the evaluator of
its definitions, and answers questions about it for any time of its
animation. An `Action` may fail and may leave warnings; both are kept
apart, so that the warnings before a failure are not lost.
-/

namespace FieldScript

structure Session where
  program : Option Program
  /-- The evaluator of the program. -/
  evaluator : Option Evaluator
  warnings : List String

/-- What compiling tells about a program. -/
structure Compiled where
  functions : List String
  unbound : List (String × String)
  plots : List String
  frames : Int

inductive Compilation where
  | compiled (c : Compiled)
  | rejected (f : Failure)

namespace Session

def empty : Session := ⟨none, none, []⟩

abbrev Action := ExceptT Failure (StateM Session)

def warn (text : String) : Action Unit :=
  modify fun s => { s with warnings := s.warnings ++ [text] }

def warnAll (texts : List String) : Action Unit :=
  modify fun s => { s with warnings := s.warnings ++ texts }

/-- Takes a result over into an action. -/
def lift {β : Type} (r : Except Failure β) : Action β := ExceptT.mk (pure r)

/-- Compiles a text. A program that is rejected leaves nothing of an
earlier one. -/
def compile (source : String) : Action Compilation := do
  modify fun s => { s with program := none, evaluator := none }
  match Program.ofSource source with
  | .error f => return .rejected f
  | .ok p =>
    modify fun s => { s with program := some p }
    let (ev, ws) ← lift p.evaluator
    modify fun s => { s with evaluator := some ev }
    warnAll ws
    let frames ← match p.animation with
      | none => pure 1
      | some a => lift a.frameCount
    return .compiled ⟨p.order, ev.unbound, p.plots.map Plot.typeName, frames⟩

/-- The program that was compiled. -/
def currentProgram : Action Program := do
  match (← get).program with
  | some p => return p
  | none => throw .nothingCompiled

/-- The evaluator of the program. -/
def currentEvaluator : Action Evaluator := do
  match (← get).evaluator with
  | some ev => return ev
  | none => throw .noEvaluator

/-- Puts an evaluator in the place of the current one. -/
def keepEvaluator (ev : Evaluator) : Action Unit :=
  modify fun s => { s with evaluator := some ev }

/-- What the program plots at one time of its animation. Until it is called
it is not settled which variables its formula reads: those that the
evaluator has then. -/
structure Frame where
  /-- Missing if the expression has no meaning. -/
  formula : Option Prepared
  /-- The parameter of the animation, which counts before the variables. -/
  values : Assignment

/-- The field of a frame for these variables; an expression without
meaning reads as zero. -/
def Frame.field (f : Frame) (assignment : Assignment) : Field :=
  match f.formula with
  | some p => (Field.ofPrepared p assignment f.values).safe
  | none => Field.zero

def frame (time : Option Float) : Action Frame := do
  let p ← currentProgram
  let (r, ev) := (← currentEvaluator).scalarField p.surfaceExpr
  keepEvaluator ev
  match r with
  | .ok f => return ⟨some f, p.frameValues time⟩
  | .error (.expression e) =>
    warn ("Surface expression '" ++ p.surfaceExpr ++ "' is not evaluable: " ++ e.message)
    return ⟨none, []⟩
  | .error f => throw f

/-- The field that the program plots, at some time of the animation. -/
def potential (time : Option Float) : Action Field := do
  let f ← frame time
  return f.field (← currentEvaluator).environment

/-- The times of the frames; one frame without a time if nothing moves. -/
def frames : Action (List (Option Float)) := do
  match (← currentProgram).animation with
  | none => return [none]
  | some a => return (← lift a.frames).map some

end Session
end FieldScript
