import FieldScript.Failure
import FieldScript.Token

/-!
# Definitions and their order

A program defines functions and constants by name, and a body may use
any other definition. `Definitions.order` lists them so that each one
comes after all that it uses: it places, round by round, every pending
definition that uses placed ones only, in the order of definition. If a
round places nothing, the pending definitions contain a cycle, and
`findCycle` walks along first dependencies until a name repeats.
-/

namespace FieldScript

/-- What a definition defines, which its name tells. -/
inductive DefinitionKind where
  | scalar | constant | vector | tensor
  deriving DecidableEq, Repr, BEq, ReflBEq, LawfulBEq

def DefinitionKind.name : DefinitionKind → String
  | .scalar => "scalar"
  | .constant => "constant"
  | .vector => "vector"
  | .tensor => "tensor"

structure NamedFunction where
  name : String
  params : List String
  body : String
  line : Nat
  deriving DecidableEq, Repr

namespace NamedFunction

def kind (f : NamedFunction) : DefinitionKind :=
  let upper := upperName f.name
  if upper.startsWith "VEC_" then .vector
  else if upper.startsWith "TENSOR_" then .tensor
  else if f.params.isEmpty then .constant
  else .scalar

def signature (f : NamedFunction) : String :=
  if f.params.isEmpty then f.name
  else f.name ++ "(" ++ ", ".intercalate f.params ++ ")"

def describe (f : NamedFunction) : String :=
  "Define(" ++ f.signature ++ " = " ++ f.body ++ ")"

end NamedFunction

/-- Definitions in the order of definition; names do not repeat. -/
abbrev Definitions := List NamedFunction

namespace Definitions

def get? (ds : Definitions) (name : String) : Option NamedFunction :=
  List.find? (·.name == name) ds

def contains (ds : Definitions) (name : String) : Bool :=
  List.any ds (·.name == name)

def names (ds : Definitions) : List String :=
  List.map (·.name) ds

/-- A definition of a known name replaces the earlier one in its
place. -/
def insert (ds : Definitions) (f : NamedFunction) : Definitions :=
  if ds.contains f.name then List.map (fun g => if g.name == f.name then f else g) ds
  else ds ++ [f]

def ofList (fs : List NamedFunction) : Definitions :=
  fs.foldl insert []

/-- The definitions that a body mentions; a parameter hides a definition
of its name. -/
def uses (ds : Definitions) (f : NamedFunction) : List String :=
  (identifiers f.body.toList).filter fun n => ds.contains n && !f.params.contains n

/-- Every name with the names that its body uses. -/
def dependencies (ds : Definitions) : List (String × List String) :=
  List.map (fun f => (f.name, ds.uses f)) ds

end Definitions

/-! ## Placing definitions -/

namespace Dependency

/-- The names that a name uses. -/
def of (deps : List (String × List String)) (name : String) : List String :=
  ((deps.find? (·.1 == name)).map (·.2)).getD []

/-- Walks along the first pending dependency until a name repeats, and
gives the names from its first visit on, with the name again at the
end. -/
def walk (deps : List (String × List String)) (pending : List String) :
    Nat → List String → String → List String
  | 0, path, node => path ++ [node]
  | fuel + 1, path, node =>
    if path.contains node then path.dropWhile (· != node) ++ [node]
    else
      match (of deps node).find? pending.contains with
      | some next => walk deps pending fuel (path ++ [node]) next
      | none => path ++ [node]

/-- A cycle among pending names, each of which uses a pending one. -/
def findCycle (deps : List (String × List String)) (pending : List String) : List String :=
  match pending with
  | [] => []
  | first :: _ => walk deps pending (pending.length + 1) [] first

/-- Places names round by round; there are at most as many rounds as
names. -/
def place (deps : List (String × List String)) :
    Nat → List String → List String → Except Failure (List String)
  | 0, placed, _ => .ok placed
  | fuel + 1, placed, pending =>
    if pending.isEmpty then .ok placed
    else
      let ready := pending.filter fun n => (of deps n).all placed.contains
      if ready.isEmpty then .error (.circular (findCycle deps pending))
      else place deps fuel (placed ++ ready) (pending.filter fun n => !ready.contains n)

end Dependency

/-- The names in an order in which every definition follows the ones it
uses; ties keep the order of definition. -/
def Definitions.order (ds : Definitions) : Except Failure (List String) :=
  Dependency.place ds.dependencies (ds.length + 1) [] ds.names

end FieldScript
