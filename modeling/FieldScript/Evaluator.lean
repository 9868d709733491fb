import FieldScript.Definition
import FieldScript.Expr.Meaning
import FieldScript.Formula

/-!
# Evaluating with definitions

An `Evaluator` binds the definitions of a program once, in order, so that
a later body has the earlier ones in it. A definition whose body makes no
sense stays unbound, with a message; what uses it has no meaning either.
Variables are apart from definitions and may change at any time.

Texts that were read keep their expression, and texts that were compiled
their callable. The callables of definitions are kept with them, under
the name in angle brackets.
-/

namespace FieldScript

/-- The text of an expression with its parameters. -/
abbrev Reading := String × List String

structure Evaluator where
  definitions : Definitions
  order : List String
  bindings : List (String × Binding)
  components : List (String × List Expr)
  /-- Names of definitions that could not be bound, with the reason. -/
  unbound : List (String × String)
  readings : List (Reading × Expr)
  prepared : List (Reading × Prepared)
  environment : Assignment
  algebra : Algebra

namespace Evaluator

/-- A value for a name in the place of an earlier one. -/
def put {β : Type} (xs : List (String × β)) (name : String) (v : β) : List (String × β) :=
  if xs.any (·.1 == name) then xs.map fun p => if p.1 == name then (name, v) else p
  else xs ++ [(name, v)]

def scope (ev : Evaluator) (params : List String) : Scope := ⟨params, ev.bindings, ev.algebra⟩

/-- The expression that a text writes under these parameters. -/
def read (ev : Evaluator) (text : String) (params : List String) : Except ExpressionFault Expr :=
  match ev.readings.lookup (text, params) with
  | some e => .ok e
  | none => Expr.ofText (ev.scope params) text

/-- Reads a text and keeps the expression. -/
def readKept (ev : Evaluator) (text : String) (params : List String) :
    Except ExpressionFault Expr × Evaluator :=
  match ev.read text params with
  | .ok e => (.ok e, { ev with readings := ((text, params), e) :: ev.readings })
  | .error f => (.error f, ev)

/-- Reads texts up to the first one that makes no sense. -/
def readAll (ev : Evaluator) (params : List String) :
    List String → Except ExpressionFault (List Expr) × Evaluator
  | [] => (.ok [], ev)
  | t :: ts =>
    match ev.readKept t params with
    | (.error f, ev) => (.error f, ev)
    | (.ok e, ev) =>
      match readAll ev params ts with
      | (.error f, ev) => (.error f, ev)
      | (.ok es, ev) => (.ok (e :: es), ev)

/-- Leaves a definition unbound; a warning says so. -/
def leaveUnbound (ev : Evaluator) (fn : NamedFunction) (f : ExpressionFault) :
    Evaluator × List String :=
  ({ ev with unbound := put ev.unbound fn.name f.message },
   ["Could not bind '" ++ fn.signature ++ "': " ++ f.message])

/-- Binds one definition, with the warnings that this gives. -/
def bind (ev : Evaluator) (fn : NamedFunction) : Except Failure (Evaluator × List String) :=
  match fn.kind with
  | .vector | .tensor =>
    match splitComponents? fn.body.toList with
    | none => .error .outOfBounds
    | some texts =>
      match ev.readAll fn.params texts with
      | (.ok es, ev) => .ok ({ ev with components := put ev.components fn.name es }, [])
      | (.error f, ev) => .ok (ev.leaveUnbound fn f)
  | .scalar | .constant =>
    match ev.readKept fn.body fn.params with
    | (.ok e, ev) =>
      if Prepared.hasRepeated fn.params then .error .repeatedParameter
      else .ok ({ ev with bindings := put ev.bindings fn.name ⟨fn.params, e⟩ }, [])
    | (.error f, ev) => .ok (ev.leaveUnbound fn f)

/-- Binds the definitions of these names one after the other. -/
def bindAll (ev : Evaluator) : List String → Except Failure (Evaluator × List String)
  | [] => .ok (ev, [])
  | n :: ns => do
    match ev.definitions.get? n with
    | none => throw .missing
    | some fn =>
      let (ev, ws) ← ev.bind fn
      let (ev, ws') ← bindAll ev ns
      return (ev, ws ++ ws')

/-- An evaluator for these definitions, bound in the given order. -/
def ofOrder (ds : Definitions) (order : List String) (environment : Assignment := [])
    (algebra : Algebra := .standard) : Except Failure (Evaluator × List String) :=
  bindAll ⟨ds, order, [], [], [], [], [], environment, algebra⟩ order

/-- An evaluator for these definitions, each bound after all that it
uses. -/
def ofDefinitions (ds : Definitions) (environment : Assignment := [])
    (algebra : Algebra := .standard) : Except Failure (Evaluator × List String) := do
  ofOrder ds (← ds.order) environment algebra

/-! ## Variables -/

def set (ev : Evaluator) (name : String) (v : Float) : Evaluator :=
  { ev with environment := ev.environment.insert name (.scalar v) }

def unset (ev : Evaluator) (name : String) : Evaluator :=
  { ev with environment := ev.environment.erase name }

/-! ## Callables -/

/-- The text as a function of these arguments. -/
def compile (ev : Evaluator) (text : String) (args : List String) : Except Failure Prepared :=
  match ev.prepared.lookup (text, args) with
  | some p => .ok p
  | none =>
    match ev.read text args with
    | .ok e => Prepared.ofExpr text args e
    | .error f => .error (.expression f)

/-- Names that stand for something else in an evaluation. -/
def ownNames : List String := ["self", "text"]

/-- The value of a text; the given values count before the variables. -/
def evaluate (ev : Evaluator) (text : String) (values : Assignment) : Except Failure Samples := do
  if values.any fun v => ownNames.contains v.1 then throw .notApplicable
  let sorted := values.mergeSort fun a b => a.1 ≤ b.1
  let p ← ev.compile text (sorted.map (·.1))
  p.call ev.environment (sorted.map (·.2))

/-- A callable that is kept under a key, or made and kept now. -/
def keep (ev : Evaluator) (key : Reading) (make : Except Failure Prepared) :
    Except Failure Prepared × Evaluator :=
  match ev.prepared.lookup key with
  | some p => (.ok p, ev)
  | none =>
    match make with
    | .ok p => (.ok p, { ev with prepared := (key, p) :: ev.prepared })
    | .error f => (.error f, ev)

/-- The text as a function of these arguments, which is kept, and so is
the expression that it was read as. -/
def compileKept (ev : Evaluator) (text : String) (args : List String) :
    Except Failure Prepared × Evaluator :=
  match ev.prepared.lookup (text, args) with
  | some p => (.ok p, ev)
  | none =>
    match ev.readKept text args with
    | (.error f, ev) => (.error (.expression f), ev)
    | (.ok e, ev) => ev.keep (text, args) (Prepared.ofExpr text args e)

/-- The value of a text, whose callable is kept. -/
def evaluateKept (ev : Evaluator) (text : String) (values : Assignment) :
    Except Failure Samples × Evaluator :=
  if values.any fun v => ownNames.contains v.1 then (.error .notApplicable, ev)
  else
    let sorted := values.mergeSort fun a b => a.1 ≤ b.1
    let (r, ev) := ev.compileKept text (sorted.map (·.1))
    (r >>= fun p => p.call ev.environment (sorted.map (·.2)), ev)

/-- The text as a function of the coordinates. -/
def scalarField (ev : Evaluator) (text : String) : Except Failure Prepared × Evaluator :=
  ev.compileKept text ["x", "y"]

/-- The definition of a name, of one of these kinds and bound. -/
def require (ev : Evaluator) (name : String) (kinds : List DefinitionKind) :
    Except Failure NamedFunction :=
  match ev.definitions.get? name with
  | none => .error (.expression (.notDefined name))
  | some fn =>
    if !kinds.contains fn.kind then
      .error (.expression (.wrongKind name fn.kind.name (kinds.map DefinitionKind.name)))
    else
      match ev.unbound.lookup name with
      | some reason => .error (.expression (.notBound name reason))
      | none => .ok fn

/-- The key under which a callable of a definition is kept. -/
def keyOf (name : String) (params : List String) : Reading := ("<" ++ name ++ ">", params)

/-- The callable of a bound definition. The definition of the identity is
one function whatever its parameter is called: it reads `x`. -/
def prepareBinding (fn : NamedFunction) (b : Binding) : Except Failure Prepared :=
  match b.params, b.body with
  | [p], .var q =>
    if p == q then
      if p == "x" then
        return { ← Prepared.ofExpr fn.body fn.params (.var q) with fault := some .unresolvedName }
      else Prepared.ofExpr fn.body fn.params (.var "x")
    else Prepared.ofExpr fn.body fn.params b.body
  | _, e => Prepared.ofExpr fn.body fn.params e

/-- The callable of a scalar function or a constant. -/
def function (ev : Evaluator) (name : String) : Except Failure Prepared × Evaluator :=
  match ev.require name [.scalar, .constant] with
  | .error f => (.error f, ev)
  | .ok fn =>
    match ev.bindings.lookup name with
    | none => (.error .missing, ev)
    | some b => ev.keep (keyOf name fn.params) (prepareBinding fn b)

/-- Callables of components, from the given index on, up to the first one
that cannot be compiled. -/
def componentCallables (ev : Evaluator) (fn : NamedFunction) (index : Nat) :
    List Expr → Except Failure (List Prepared) × Evaluator
  | [] => (.ok [], ev)
  | e :: es =>
    let label := fn.name ++ "[" ++ toString index ++ "]"
    match ev.keep (keyOf label fn.params) (Prepared.ofExpr label fn.params e) with
    | (.error f, ev) => (.error f, ev)
    | (.ok p, ev) =>
      match componentCallables ev fn (index + 1) es with
      | (.error f, ev) => (.error f, ev)
      | (.ok ps, ev) => (.ok (p :: ps), ev)

def componentFunction (ev : Evaluator) (name : String) (kind : DefinitionKind) :
    Except Failure (List Prepared) × Evaluator :=
  match ev.require name [kind] with
  | .error f => (.error f, ev)
  | .ok fn =>
    match ev.components.lookup name with
    | none => (.error .missing, ev)
    | some es => ev.componentCallables fn 0 es

/-- The three components of a vector definition. -/
def vectorFunction (ev : Evaluator) (name : String) : Except Failure (List Prepared) × Evaluator :=
  ev.componentFunction name .vector

/-- The four components of a tensor definition, row by row. -/
def tensorFunction (ev : Evaluator) (name : String) : Except Failure (List Prepared) × Evaluator :=
  ev.componentFunction name .tensor

/-- Calls components one after the other. -/
def callAll (ev : Evaluator) (ps : List Prepared) (values : List Samples)
    (overrides : Assignment := []) : Except Failure (List Samples) :=
  ps.mapM fun p => p.call ev.environment values overrides

end Evaluator
end FieldScript
