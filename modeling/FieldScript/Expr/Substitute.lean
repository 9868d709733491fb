import FieldScript.Expr.Functions

/-!
# Substitution

Variables are replaced by expressions all at once, and every operation
above a replaced variable is built again by the function that builds it
from its operands, so that the result is in normal form. What contains no
replaced variable stays as it is.

An `Algebra` says how operations are built. The normal forms of the
other modules are one, `Algebra.standard`; what reads texts and replaces
variables needs none of its rules.
-/

namespace FieldScript
namespace Expr

/-- A condition: a truth value, a relation or a variable. The numbers one
and zero count as true and false. -/
def asCondition? (e : Expr) : Option Expr :=
  match e with
  | num (.exact r) => if r == 1 then some (truth true) else if r == 0 then some (truth false)
      else none
  | var n => some (var n)
  | e => if e.isLogical then some e else none

/-- Cases with their conditions checked. -/
def checkedCases? : List Expr → Option (List (Expr × Expr))
  | v :: c :: rest => do
    let c ← asCondition? c
    let cases ← checkedCases? rest
    return (v, c) :: cases
  | _ => some []

/-- The selection among values with their conditions; none if something
that is no condition stands for one. -/
def makeSelect? (args : List Expr) : Option Expr :=
  (checkedCases? args).map makeSelect

/-- A library function of operands that are not logical. -/
def applyFn? (f : Fn) (args : List Expr) : Option Expr :=
  if args.any isLogical then none
  else
    match f, args with
    | .sin, [a] => some (sine a)
    | .cos, [a] => some (cosine a)
    | .tan, [a] => some (tangent a)
    | .asin, [a] => some (makeAsin a)
    | .acos, [a] => some (makeAcos a)
    | .atan, [a] => some (makeAtan a)
    | .atan2, [a, b] => some (makeAtan2 a b)
    | .log, [a] => some (logarithm a)
    | .exp, [a] => some (exponential a)
    | .abs, [a] => some (absolute a)
    | .sign, [a] => some (makeSign a)
    | .floor, [a] => some (floorOf a)
    | .ceiling, [a] => some (ceilingOf a)
    | .mod, [a, b] => makeMod? a b
    | .factorial, [a] => some (makeFactorial a)
    | .max, as => makeExtremum? true as
    | .min, as => makeExtremum? false as
    | _, _ => none

/-- The operation on these operands, in normal form; none where it has no
meaning. -/
def rebuild? (h : Head) (args : List Expr) : Option Expr :=
  match h, args with
  | .add, as => if as.any isLogical then none else some (makeAdd as)
  | .mul, as => if as.any isLogical then none else some (makeMul simplificationFuel as)
  | .pow, [b, e] => if b.isLogical || e.isLogical then none else some (raise b e)
  | .fn f, as => applyFn? f as
  | .rel r, [a, b] => makeRel? r a b
  | .select, as => makeSelect? as
  | .conj, as => (as.mapM asCondition?).map makeAnd
  | .disj, as => (as.mapM asCondition?).map makeOr
  | .negation, [a] => (asCondition? a).map makeNot
  | h, as => some (node h as)

end Expr

/-- How operations on expressions are built. -/
structure Algebra where
  /-- The operation on these operands; none where it has no meaning. -/
  build? : Head → List Expr → Option Expr
  /-- The quotient. -/
  divide : Expr → Expr → Expr
  /-- The logarithm to a base. -/
  logarithmTo : Expr → Expr → Expr

/-- Operations in normal form. -/
def Algebra.standard : Algebra := ⟨Expr.rebuild?, Expr.divide, Expr.logarithmTo⟩

namespace Expr

mutual

/-- Replaces variables; the flag says whether anything was replaced. -/
def replace? (A : Algebra) (env : List (String × Expr)) : Expr → Option (Expr × Bool)
  | var n => some <|
    match env.lookup n with
    | some e => (e, true)
    | none => (var n, false)
  | node (.closure ps) as => some (node (.closure ps) as, false)
  | node h as => do
    let (bs, changed) ← replaceList? A env as
    if changed then
      let e ← A.build? h bs
      return (e, true)
    else return (node h as, false)
  | e => some (e, false)

def replaceList? (A : Algebra) (env : List (String × Expr)) :
    List Expr → Option (List Expr × Bool)
  | [] => some ([], false)
  | e :: es => do
    let (f, c) ← replace? A env e
    let (fs, d) ← replaceList? A env es
    return (f :: fs, c || d)

end

/-- The expression with variables replaced; none where an operation on
what replaces them has no meaning. -/
def substitute? (A : Algebra) (env : List (String × Expr)) (e : Expr) : Option Expr :=
  (replace? A env e).map (·.1)

end Expr
end FieldScript
