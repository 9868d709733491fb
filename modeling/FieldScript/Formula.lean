import FieldScript.Expr.Code
import FieldScript.Quantity
import FieldScript.Samples

/-!
# Formulas

A formula is an expression with an order of its arguments. Variables that
are no arguments are free; they are looked up when the formula is called.
`Prepared` holds the code of a formula, compiled once, and calls it on
samples of any shape: the value at a place depends on the arguments at
that place only.
-/

namespace FieldScript

structure Formula where
  text : String
  args : List String
  /-- The other variables, sorted. -/
  free : List String
  expr : Expr

namespace Formula

/-- An expression as a function of these arguments. -/
def ofExpr (text : String) (args : List String) (e : Expr) : Formula :=
  ⟨text, args, (e.freeVars.filter fun n => !args.contains n).mergeSort fun a b => a ≤ b, e⟩

/-- All inputs: arguments, then free variables. -/
def inputs (f : Formula) : List String := f.args ++ f.free

def place (f : Formula) (name : String) : Nat := f.inputs.findIdx (· == name)

/-- The code of a formula over any scalars; `plane` makes a scalar of a
point in the plane. -/
def code {α : Type} [Scalar α] (f : Formula) (plane : Float → Float → α) : Code α :=
  f.expr.arranged.toCode f.place plane

end Formula

/-- Code over binary64 numbers, or over complex quantities where the
formula leaves the real line. -/
inductive Plan where
  | real (c : Code Float)
  | planar (c : Code Quantity)

namespace Plan

def ofFormula (f : Formula) : Plan :=
  if f.expr.isPlanar then .planar (f.code fun re im => .complex re im)
  else .real (f.code fun _ _ => Binary64.nan)

/-- The real value; a complex one is not-a-number. -/
def eval (inputs : List Float) : Plan → Float
  | real c => c.eval inputs
  | planar c => (c.eval (inputs.map Quantity.real)).toFloat

end Plan

structure Prepared where
  formula : Formula
  plan : Plan
  /-- Why every call fails, if it does. -/
  fault : Option Failure

/-- Values of variables, by name. -/
abbrev Assignment := List (String × Samples)

namespace Assignment

/-- A value for a name, in the place of an earlier one. -/
def insert (a : Assignment) (name : String) (v : Samples) : Assignment :=
  if List.any a (·.1 == name) then List.map (fun p => if p.1 == name then (name, v) else p) a
  else a ++ [(name, v)]

def erase (a : Assignment) (name : String) : Assignment := List.filter (fun p => p.1 != name) a

def names (a : Assignment) : List String := List.map (·.1) a

end Assignment

namespace Prepared

def hasRepeated : List String → Bool
  | [] => false
  | n :: ns => ns.contains n || hasRepeated ns

/-- Compiles an expression; one with a pole has no code, and no input
stands twice. -/
def ofExpr (text : String) (args : List String) (e : Expr) : Except Failure Prepared :=
  match e.compileFault? with
  | some f => .error f
  | none =>
    if hasRepeated args then .error .repeatedInput
    else
      let f := Formula.ofExpr text args e
      .ok ⟨f, .ofFormula f, e.callFault?⟩

/-- The names that a call takes for itself. -/
def ownNames : List String := ["self"]

def describe (p : Prepared) : String :=
  "Compiled(" ++ ", ".intercalate p.formula.args ++ ") -> " ++ p.formula.text

/-- The values of the free variables. -/
def freeValues {β : Type} (p : Prepared) (find? : String → Option β) : Except Failure (List β) :=
  p.formula.free.mapM fun n =>
    match find? n with
    | some v => .ok v
    | none => .error (.expression (.undefinedVariable n p.formula.text))

/-- All that a call reads: the values of the arguments, then those of the
free variables. -/
def inputs {β : Type} (p : Prepared) (find? : String → Option β) (values : List β) :
    Except Failure (List β) := do
  if values.length != p.formula.args.length then
    throw (.argumentCount p.formula.text p.formula.args.length values.length)
  let free ← p.freeValues find?
  if let some f := p.fault then throw f
  return values ++ free

/-- Calls the formula with values for its arguments; an override counts
before a variable. -/
def call (p : Prepared) (environment : Assignment) (values : List Samples)
    (overrides : Assignment := []) : Except Failure Samples := do
  if overrides.any fun o => ownNames.contains o.1 then throw .notApplicable
  let inputs ← p.inputs (fun n => (overrides.lookup n).or (environment.lookup n)) values
  Samples.tabulate? inputs fun xs => .ok (p.plan.eval xs)

end Prepared
end FieldScript
