import FieldScript.Expr.Substitute
import FieldScript.Expr.Term
import FieldScript.Failure

/-!
# Meaning of terms

A term means an expression, or something else that expressions are made
with: a plain truth value or count, a text, a group, a function. Names
have their meaning from a `Scope`; a name without one is a variable, or a
function without definition where arguments follow it.

`Term.meaning?` is `none` for a term that makes no sense, such as a sum
with a comparison or a remainder by zero.
-/

namespace FieldScript

/-- The names of the library. -/
inductive Builtin where
  | sin | cos | tan | asin | acos | atan | atan2 | sqrt | log | exp | pow | abs | max | min
  | floor | ceiling | round | step | clamp | mix | fract | mod | sign | select | factorial
  | symbol | function | integer | decimal | fraction | abstraction
  deriving DecidableEq, Repr

inductive Meaning where
  | expr (e : Expr)
  | truth (b : Bool)
  | count (n : Int)
  | text (s : String)
  | group (items : List Meaning)
  | absent
  /-- A value that takes part in no operation. -/
  | other
  | builtin (b : Builtin)
  | definition (params : List String) (body : Expr)
  | unknownFunction (name : String)

/-- What a definition binds its name to; a constant has no
parameters. -/
structure Binding where
  params : List String
  body : Expr
  deriving Repr

/-- The names that have a meaning besides those of the library, and how
operations are built. A parameter hides a binding, and a binding hides a
name of the library. -/
structure Scope where
  params : List String
  bindings : List (String × Binding)
  algebra : Algebra

namespace Builtin

/-- Functions of the library in upper case; all but the choice have a
lower-case name too. -/
def table : List (String × Builtin) :=
  [("SIN", sin), ("COS", cos), ("TAN", tan), ("ASIN", asin), ("ACOS", acos), ("ATAN", atan),
   ("ATAN2", atan2), ("ATN2", atan2), ("SQRT", sqrt), ("LOG", log), ("EXP", exp), ("POW", pow),
   ("ABS", abs), ("MAX", max), ("MIN", min), ("FLOOR", floor), ("CEIL", ceiling),
   ("ROUND", round), ("STEP", step), ("CLAMP", clamp), ("MIX", mix), ("FRACT", fract),
   ("MOD", mod), ("SIGN", sign), ("IF", select)]

/-- Names that stand behind all others. -/
def fallback : List (String × Builtin) :=
  [("Symbol", symbol), ("Function", function), ("Integer", integer), ("Float", decimal),
   ("Rational", fraction), ("Lambda", abstraction), ("factorial", factorial)]

def ofName? (n : String) : Option Builtin :=
  (table.find? fun p => p.1 == n || (p.2 != select && lowerName p.1 == n)).map (·.2)

end Builtin

namespace Scope

/-- The meaning that a name has before the last resort. -/
def find? (s : Scope) (n : String) : Option Meaning :=
  if s.params.contains n then some (.expr (.var n))
  else
    match s.bindings.lookup n with
    | some b => some (if b.params.isEmpty then .expr b.body else .definition b.params b.body)
    | none =>
      if n == "PI" || n == "pi" then some (.expr .pi)
      else if n == "E" || n == "e" then some (.expr .euler)
      else (Builtin.ofName? n).map .builtin

def words : List String := ["True", "False", "None"]

/-- Whether a name stands for itself and not for a variable. -/
def knows (s : Scope) (n : String) : Bool :=
  (s.find? n).isSome || (Builtin.fallback.lookup n).isSome || words.contains n
    || Term.reserved.contains n

def meaning (s : Scope) (n : String) (called : Bool) : Meaning :=
  match n with
  | "True" => .truth true
  | "False" => .truth false
  | "None" => .absent
  | n =>
    match s.find? n with
    | some m => m
    | none =>
      match Builtin.fallback.lookup n with
      | some b => .builtin b
      | none => if called then .unknownFunction n else .expr (.var n)

end Scope

namespace Meaning

/-! ## Operands -/

/-- The expression that a text writes: an integer or a name. -/
def ofText? (s : String) : Option Expr :=
  let cs := trim s.toList
  match cs with
  | [] => none
  | c :: rest =>
    if cs.all Char.isDigit then (readNatural? cs).map fun n => Expr.ofInt n
    else if isWordLetter c && rest.all isWordChar then
      match String.ofList cs with
      | "pi" => some .pi
      | "E" => some .euler
      | "I" => some .imaginary
      | "oo" => some (.infinity false)
      | n => some (.var n)
    else none

/-- What a function sees as its argument. -/
def argument? : Meaning → Option Expr
  | expr e => some e
  | truth b => some (.truth b)
  | count n => some (.ofInt n)
  | text s => ofText? s
  | definition ps body => some (.node (.closure ps) [body])
  | _ => none

/-- An operand of arithmetic. -/
def operand? : Meaning → Option Expr
  | expr e => if e.isLogical then none else some e
  | count n => some (.ofInt n)
  | definition ps body => some (.node (.closure ps) [body])
  | _ => none

/-- A truth value counts as one or zero beside integers. -/
def plain? : Meaning → Option Int
  | truth b => some (if b then 1 else 0)
  | count n => some n
  | _ => none

def exactInt? : Meaning → Option Int
  | expr (.num n) => n.toInt?
  | m => plain? m

/-- Whether it counts as true where something has to; a comparison of
variables has no truth value. -/
def truthy? : Meaning → Option Bool
  | expr (.num n) => some (!n.isZero)
  | expr (.truth b) => some b
  | expr (.rel ..) => none
  | truth b => some b
  | count n => some (n != 0)
  | text s => some (s != "")
  | group ms => some (!ms.isEmpty)
  | absent => some false
  | _ => some true

/-! ## Binary operators -/

section Operators

variable (A : Algebra)

/-- Joins the digits of two integers in two's complement. -/
def bitwise (f : Nat → Nat → Nat) (a b : Int) : Int :=
  let width := Nat.max a.natAbs.log2 b.natAbs.log2 + 2
  let size : Nat := twoPow width
  let r := f (a % size).toNat (b % size).toNat
  if 2 * r ≥ size then (r : Int) - size else r

/-- How far an integer may be shifted. -/
def maxShift : Nat := twoPow 22

/-- An operator on integers that are not expressions. -/
def plainOp? (op : BinaryOp) (a b : Int) : Option Meaning :=
  match op with
  | .add => some (count (a + b))
  | .sub => some (count (a - b))
  | .mul => some (count (a * b))
  | .div => if b == 0 then none else some other
  | .floorDiv => if b == 0 then none else some (count (Int.fdiv a b))
  | .mod => if b == 0 then none else some (count (Int.fmod a b))
  | .pow => if b < 0 then (if a == 0 then none else some other) else some (count (Int.pow a b.toNat))
  | .shiftLeft => if b < 0 || b > maxShift then none else some (count (a * twoPow b.toNat))
  | .shiftRight => if b < 0 then none else some (count (Int.fdiv a (twoPow (min b.toNat maxShift))))
  | .meet => some (count (bitwise Nat.land a b))
  | .join => some (count (bitwise Nat.lor a b))

/-- The quotient rounded down. -/
def floorDiv? (a b : Expr) : Option Expr :=
  match a, b with
  | .num x, .num y =>
    match x.toInt?, y.toInt? with
    | some m, some n => if n == 0 then none else some (.ofInt (Int.fdiv m n))
    | _, _ => A.build? (.fn .floor) [A.divide a b]
  | a, b => A.build? (.fn .floor) [A.divide a b]

def opposite? (a : Expr) : Option Expr :=
  A.build? .mul [.ofInt (-1), a]

def difference? (a b : Expr) : Option Expr := do
  A.build? .add [a, ← opposite? A b]

def exprOp? (op : BinaryOp) (a b : Expr) : Option Expr :=
  match op with
  | .add => A.build? .add [a, b]
  | .sub => difference? A a b
  | .mul => A.build? .mul [a, b]
  | .div => some (A.divide a b)
  | .floorDiv => floorDiv? A a b
  | .mod => A.build? (.fn .mod) [a, b]
  | .pow => A.build? .pow [a, b]
  | _ => none

/-- What can stand for true or false in a formula. -/
def condition? : Meaning → Option Expr
  | truth b => some (.truth b)
  | expr (.var n) => some (.var n)
  | expr e => if e.isLogical then some e else none
  | _ => none

def isShiftOrBits : BinaryOp → Bool
  | .shiftLeft | .shiftRight | .meet | .join => true
  | _ => false

def isRing : BinaryOp → Bool
  | .add | .sub | .mul | .mod => true
  | _ => false

/-- Joining and repeating texts and groups. -/
def sequenceOp? (op : BinaryOp) (a b : Meaning) : Option Meaning :=
  let times (n : Int) : Nat := n.toNat
  match op, a, b with
  | .add, text s, text t => some (text (s ++ t))
  | .add, group s, group t => some (group (s ++ t))
  | .mul, text s, b => (exactInt? b).map fun n => text (String.join (List.replicate (times n) s))
  | .mul, a, text s => (exactInt? a).map fun n => text (String.join (List.replicate (times n) s))
  | .mul, group s, b => (exactInt? b).map fun n => group (List.replicate (times n) s).flatten
  | .mul, a, group s => (exactInt? a).map fun n => group (List.replicate (times n) s).flatten
  | _, _, _ => none

/-- Conjunction, disjunction and the operators on the digits of
integers. -/
def logicOp? (op : BinaryOp) (a b : Meaning) : Option Meaning :=
  match exactInt? a, exactInt? b with
  | some m, some n =>
    match a, b, plainOp? op m n with
    | truth x, truth y, r => if op == .meet then some (truth (x && y))
        else if op == .join then some (truth (x || y)) else r
    | _, _, some (count k) => some (expr (.ofInt k))
    | _, _, r => r
  | _, _ =>
    match condition? a, condition? b with
    | some p, some q =>
      if op == .meet then (A.build? .conj [p, q]).map expr
      else if op == .join then (A.build? .disj [p, q]).map expr
      else none
    | _, _ => none

def binary? (op : BinaryOp) (a b : Meaning) : Option Meaning :=
  if isShiftOrBits op then logicOp? A op a b
  else
    match plain? a, plain? b with
    | some m, some n => plainOp? op m n
    | _, _ =>
      match operand? a, operand? b with
      | some x, some y => (exprOp? A op x y).map expr
      | _, _ =>
        match exactInt? a, exactInt? b with
        | some m, some n =>
          if isRing op then (exprOp? A op (.ofInt m) (.ofInt n)).map expr else none
        | _, _ => sequenceOp? op a b

/-! ## Unary operators and comparisons -/

def unary? (op : UnaryOp) (a : Meaning) : Option Meaning :=
  match op with
  | .negation => (truthy? a).map fun b => truth !b
  | .complement =>
    match condition? a, a with
    | some p, expr _ => (A.build? .negation [p]).map expr
    | _, expr (.num n) => n.toInt?.map fun k => expr (.ofInt (-k - 1))
    | _, a => (plain? a).map fun k => count (-k - 1)
  | .plus =>
    match a with
    | truth b => some (count (if b then 1 else 0))
    | definition ps body => some (definition ps body)
    | a => (operand? a).map fun e => match a with
      | count n => count n
      | _ => expr e
  | .minus =>
    match plain? a with
    | some n => some (count (-n))
    | none => do return expr (← opposite? A (← operand? a))

mutual

/-- Whether two meanings are the same; numbers and truth values compare by
value. -/
def same : Meaning → Meaning → Bool
  | expr (.truth a), truth b => a == b
  | truth a, expr (.truth b) => a == b
  | expr a, expr b => a == b
  | text a, text b => a == b
  | group as, group bs => sameList as bs
  | absent, absent => true
  | builtin a, builtin b => a == b
  | definition ps a, definition qs b => ps == qs && a == b
  | unknownFunction a, unknownFunction b => a == b
  | a, b =>
    match exactInt? a, exactInt? b with
    | some m, some n => m == n
    | _, _ => false

def sameList : List Meaning → List Meaning → Bool
  | [], [] => true
  | a :: as, b :: bs => same a b && sameList as bs
  | _, _ => false

end

def relation? : CompareOp → Option Relation
  | .less => some .less
  | .lessEq => some .lessEq
  | .greater => some .greater
  | .greaterEq => some .greaterEq
  | _ => none

def compare? (op : CompareOp) (a b : Meaning) : Option Meaning :=
  match op with
  | .equal => some (truth (same a b))
  | .notEqual => some (truth !same a b)
  | op => do
    let r ← relation? op
    match plain? a, plain? b, a, b with
    | some m, some n, _, _ => return truth (r.holds (compare m n))
    | _, _, text s, text t => return truth (r.holds (compare s t))
    | _, _, a, b =>
      let x ← operand? a
      let y ← operand? b
      return expr (← A.build? (.rel r) [x, y])

/-! ## Calls -/

/-- The floor of the value with half a unit added. -/
def rounded? (a : Expr) : Option Expr := do
  A.build? (.fn .floor) [← A.build? .add [a, .half]]

/-- One from `edge` on, zero below it. -/
def stepAt? (edge x : Expr) : Option Expr := do
  let c ← A.build? (.rel .greaterEq) [x, edge]
  A.build? .select [1, c, 0, .truth true]

/-- The value kept between two bounds. -/
def clamp? (x low high : Expr) : Option Expr := do
  let inner ← A.build? (.fn .min) [x, high]
  A.build? (.fn .max) [low, inner]

/-- The mixture of `x` and `y` with the share `a` of `y`. -/
def mixture? (x y a : Expr) : Option Expr := do
  let p ← A.build? .mul [x, ← difference? A 1 a]
  let q ← A.build? .mul [y, a]
  A.build? .add [p, q]

/-- The condition that an expression stands for; a number does by not
being zero. -/
def test? (c : Expr) : Option Expr :=
  match c with
  | .var n => some (.var n)
  | c => if c.isLogical then some c else A.build? (.rel .notEqual) [c, 0]

/-- A choice between two values. -/
def choice? (c a b : Expr) : Option Expr := do
  let cond ← test? A c
  A.build? .select [a, cond, b, .truth true]

/-- A library function of arguments that are not logical. -/
def applyPlain? (b : Builtin) (args : List Expr) : Option Expr :=
  match b, args with
  | .sin, [a] => A.build? (.fn .sin) [a]
  | .cos, [a] => A.build? (.fn .cos) [a]
  | .tan, [a] => A.build? (.fn .tan) [a]
  | .asin, [a] => A.build? (.fn .asin) [a]
  | .acos, [a] => A.build? (.fn .acos) [a]
  | .atan, [a] => A.build? (.fn .atan) [a]
  | .atan2, [a, b] => A.build? (.fn .atan2) [a, b]
  | .sqrt, [a] => A.build? .pow [a, .half]
  | .sqrt, [a, _] => A.build? .pow [a, .half]
  | .log, [a] => A.build? (.fn .log) [a]
  | .log, [a, b] => some (A.logarithmTo a b)
  | .exp, [a] => A.build? (.fn .exp) [a]
  | .pow, [a, b] => A.build? .pow [a, b]
  | .abs, [a] => A.build? (.fn .abs) [a]
  | .max, as => A.build? (.fn .max) as
  | .min, as => A.build? (.fn .min) as
  | .floor, [a] => A.build? (.fn .floor) [a]
  | .ceiling, [a] => A.build? (.fn .ceiling) [a]
  | .round, [a] => rounded? A a
  | .step, [edge, x] => stepAt? A edge x
  | .clamp, [x, low, high] => clamp? A x low high
  | .mix, [x, y, a] => mixture? A x y a
  | .fract, [a] => do difference? A a (← A.build? (.fn .floor) [a])
  | .mod, [a, b] => A.build? (.fn .mod) [a, b]
  | .sign, [a] => A.build? (.fn .sign) [a]
  | .factorial, [a] => A.build? (.fn .factorial) [a]
  | _, _ => none

/-- Toward zero. -/
def truncated (n : Num) : Int := if n.isNegative then n.ceil else n.floor

def integerOf? : Meaning → Option Expr
  | expr (.num n) => some (.ofInt (truncated n))
  | expr e => (Expr.integerPart? false e).map fun k =>
      .ofInt (if k < 0 then k + 1 else k)
  | text s => (readNatural? (trim s.toList)).map fun n => .ofInt n
  | m => (plain? m).map .ofInt

def decimalOf? : Meaning → Option Expr
  | expr (.num (.exact r)) => some (.num (.rounded (roundBits r standardBits) standardBits))
  | expr (.num n) => some (.num n)
  | count n => some (.num (.rounded (roundBits (n : Rat) standardBits) standardBits))
  | _ => none

def fractionOf? : List Meaning → Option Expr
  | [expr (.num n)] => some (.ofRat n.value)
  | [expr (.num a), expr (.num b)] =>
    if b.isZero then some (if a.isZero then .undefined else .pole)
    else some (.ofRat (a.value / b.value))
  | _ => none

def variableName? : Meaning → Option String
  | expr (.var n) => some n
  | _ => none

def callBuiltin? (b : Builtin) (args : List Meaning) : Option Meaning :=
  match b, args with
  | .select, [c, x, y] => do
    let c ← argument? c
    let x ← argument? x
    let y ← argument? y
    return expr (← choice? A c x y)
  | .symbol, text s :: _ => some (expr (.var s))
  | .function, [text s] => some (unknownFunction s)
  | .integer, [a] => (integerOf? a).map expr
  | .decimal, [a] => (decimalOf? a).map expr
  | .fraction, as => (fractionOf? as).map expr
  | .abstraction, [expr (.var p), body] => (argument? body).map fun e => definition [p] e
  | .abstraction, [group ps, body] => do
    let names ← ps.mapM variableName?
    return definition names (← argument? body)
  | .select, _ | .symbol, _ | .function, _ | .integer, _ | .decimal, _ | .abstraction, _ => none
  | b, args => do
    let es ← args.mapM argument?
    if es.any Expr.isLogical then none
    else return expr (← applyPlain? A b es)

/-- A call. A definition takes as many arguments as it has
parameters. -/
def call? (f : Meaning) (args : List Meaning) : Option Meaning :=
  match f with
  | builtin b => callBuiltin? A b args
  | definition ps body =>
    if ps.length != args.length then none
    else
      match ps, args, body with
      | [p], [a], .var q => if p == q then some a else some (expr body)
      | ps, args, body => do
        let es ← args.mapM argument?
        return expr (← Expr.substitute? A (ps.zip es) body)
  | unknownFunction n => (args.mapM argument?).map fun es => expr (.node (.call n) es)
  | _ => none

end Operators

/-- One item of a group or one character of a text, counted from the end
if the index is negative. -/
def index? (a i : Meaning) : Option Meaning := do
  let k ← exactInt? i
  let pick {β : Type} (xs : List β) : Option β :=
    if 0 ≤ k then xs[k.toNat]? else if xs.length + k < 0 then none else xs[(xs.length + k).toNat]?
  match a with
  | group ms => pick ms
  | text s => (pick s.toList).map fun c => text (String.ofList [c])
  | _ => none

end Meaning

namespace Term

mutual

/-- What a term means in a scope. Of a choice only the chosen side has to
make sense. -/
def meaning? (s : Scope) : Term → Option Meaning
  | number n => some (.expr (.num n))
  | imaginary n => do
    let i ← s.find? "I"
    Meaning.binary? s.algebra .mul (.expr (.num n)) i
  | name n called => some (s.meaning n called)
  | text t => some (.text t)
  | group ts => (meanings? s ts).map .group
  | braces ts => (meanings? s ts).map fun _ => .other
  | unary op a => do Meaning.unary? s.algebra op (← meaning? s a)
  | binary op a b => do
    let x ← meaning? s a
    let y ← meaning? s b
    Meaning.binary? s.algebra op x y
  | compare first ops rest => do
    let x ← meaning? s first
    compareMeaning? s x ops rest
  | both a b => do
    let x ← meaning? s a
    if ← Meaning.truthy? x then meaning? s b else return x
  | either a b => do
    let x ← meaning? s a
    if ← Meaning.truthy? x then return x else meaning? s b
  | choose c a b => do
    let x ← meaning? s c
    if ← Meaning.truthy? x then meaning? s a else meaning? s b
  | call f args => do
    let g ← meaning? s f
    let as ← meanings? s args
    Meaning.call? s.algebra g as
  | index a i => do
    let x ← meaning? s a
    let k ← meaning? s i
    Meaning.index? x k

def meanings? (s : Scope) : List Term → Option (List Meaning)
  | [] => some []
  | t :: ts => do
    let m ← meaning? s t
    let ms ← meanings? s ts
    return m :: ms

/-- A chain of comparisons holds if every link does; a link behind one
that fails is not looked at. -/
def compareMeaning? (s : Scope) (x : Meaning) (ops : List CompareOp) :
    List Term → Option Meaning
  | [] => some x
  | t :: ts =>
    match ops with
    | [] => some x
    | op :: ops => do
      let y ← meaning? s t
      let v ← Meaning.compare? s.algebra op x y
      match ts with
      | [] => return v
      | _ :: _ => if ← Meaning.truthy? v then compareMeaning? s y ops ts else return v

end

end Term

/-! ## Expressions from text -/

/-- Text that begins with the word for a nameless function: the text of
its parameters and of its body. -/
def splitAbstraction? : List Lexeme → Option (List Lexeme × List Lexeme)
  | .name "lambda" :: rest =>
    match rest.span (· != .op ":") with
    | (ps, _ :: body) => some (ps, body)
    | _ => none
  | _ => none

/-- The meaning of the text of an expression. -/
def textMeaning? (s : Scope) (text : String) : Option Meaning := do
  let ls ← Lexeme.ofText? s.knows (trim text.toList)
  match splitAbstraction? ls with
  | some (ps, body) =>
    let params ← if ps.isEmpty then some (.group []) else Term.ofLexemes? ps
    let body ← Term.ofLexemes? body
    let params ← params.meaning? s
    let body ← body.meaning? s
    Meaning.callBuiltin? s.algebra .abstraction [params, body]
  | none =>
    let t ← Term.ofLexemes? ls
    t.meaning? s

/-- The expression that a text writes, or why there is none. -/
def Expr.ofText (s : Scope) (text : String) : Except ExpressionFault Expr :=
  match textMeaning? s text with
  | none => .error (.malformed text)
  | some (.truth b) => .ok (.truth b)
  | some (.definition ..) => .error (.withoutArguments text)
  | some (.expr e) =>
    match e.calledNames with
    | [] => .ok e
    | names => .error (.undefinedFunctions (names.mergeSort fun a b => a ≤ b) text)
  | some _ => .error (.notScalar text)

end FieldScript
