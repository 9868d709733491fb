import FieldScript.Expr.Arrange
import FieldScript.Failure

/-!
# Evaluation

`Code` is an expression made ready to be evaluated many times: numbers
are already scalars, variables are places in the list of inputs, and
every operation is a function on scalars. `Expr.toCode` compiles an
arranged expression; `Code.eval` evaluates it at inputs of any `Scalar`
type.

Some expressions have no value whatever the inputs are: they contain a
pole, a function in place of a number, an integer beyond the range of
binary64 numbers. `Expr.fault?` finds the cause.
-/

namespace FieldScript

inductive Code (α : Type) where
  | literal (v : α)
  | input (place : Nat)
  | unary (f : α → α) (a : Code α)
  | binary (f : α → α → α) (a b : Code α)
  | gather (f : List α → α) (as : List (Code α))

namespace Code

variable {α : Type} [Scalar α]

mutual

/-- The value at these inputs; an input that is missing is undefined. -/
def eval (inputs : List α) : Code α → α
  | literal v => v
  | input i => (inputs[i]?).getD Scalar.undefined
  | unary f a => f (eval inputs a)
  | binary f a b => f (eval inputs a) (eval inputs b)
  | gather f as => f (evalList inputs as)

def evalList (inputs : List α) : List (Code α) → List α
  | [] => []
  | a :: as => eval inputs a :: evalList inputs as

end

/-- Operands joined from the left. -/
def joined (f : α → α → α) : List (Code α) → Code α
  | [] => literal Scalar.undefined
  | a :: as => as.foldl (binary f) a

/-- Comparison as one or zero. -/
def comparison (r : Relation) (a b : α) : α :=
  Scalar.ofBool <| match r with
    | .less => Scalar.less a b
    | .lessEq => Scalar.lessEq a b
    | .greater => Scalar.less b a
    | .greaterEq => Scalar.lessEq b a
    | .notEqual => !Scalar.equal a b

/-- Values and conditions in turn: the first value whose condition is not
zero. -/
def selected : List α → α
  | v :: c :: rest => if Scalar.truth c then v else selected rest
  | _ => Scalar.undefined

def unaryFn (f : Fn) : α → α :=
  match f with
  | .sin => Scalar.sin
  | .cos => Scalar.cos
  | .tan => Scalar.tan
  | .asin => Scalar.asin
  | .acos => Scalar.acos
  | .atan => Scalar.atan
  | .log => Scalar.log
  | .exp => Scalar.exp
  | .abs => Scalar.abs
  | .sign => Scalar.sign
  | .floor => Scalar.floor
  | .ceiling => Scalar.ceiling
  | _ => fun _ => Scalar.undefined

def binaryFn (f : Fn) : α → α → α :=
  match f with
  | .atan2 => Scalar.atan2
  | .mod => Scalar.mod
  | .max => Scalar.max
  | .min => Scalar.min
  | _ => fun _ _ => Scalar.undefined

end Code

namespace Expr

/-- A power in a denominator, with the opposite exponent. -/
def denominator? : Expr → Option Expr
  | pow b (num (.exact r)) =>
    if r < 0 then some (if r == -1 then b else pow b (ofRat (-r))) else none
  | _ => none

/-- A power of a negative number to a fraction is a point of the
plane. -/
def planePoint? (e : Expr) : Option (Float × Float) :=
  match e with
  | pow (num b) (num x) =>
    if b.isNegative && !(x.isInteger) then
      match approxPower (.real b.toFloat) (.real x.toFloat) with
      | .complex re im => some (re, im)
      | .real _ => none
    else none
  | _ => none

/-- Whether complex quantities come up. -/
def isPlanar (e : Expr) : Bool :=
  e.any fun p => match p with
    | imaginary => true
    | p => (planePoint? p).isSome

variable {α : Type} [Scalar α]

/-- A literal scalar. A rounded number counts as what its decimal digits
show. -/
def literalOf (n : Num) : α := Scalar.ofRat n.shownValue

/-- How an exponent is applied. -/
def powerCode (b : Code α) (bExpr x : Expr) (xCode : Code α) (plane : Float → Float → α) : Code α :=
  match planePoint? (pow bExpr x), x with
  | some (re, im), _ => .literal (plane re im)
  | none, num (.exact r) =>
    if r == mkRat 1 2 then .unary Scalar.sqrt b
    else if r == mkRat (-1) 2 then .unary (fun v => Scalar.ofInt 1 / Scalar.sqrt v) b
    else .binary Scalar.power b xCode
  | none, _ => .binary Scalar.power b xCode

/-- The factors that stand in the numerator with their codes, and those
of the denominator with the exponent turned. -/
def splitQuotient (plane : Float → Float → α) :
    List (Expr × Code α) → List (Code α) × List (Code α)
  | [] => ([], [])
  | (e, c) :: rest =>
    let (above, below) := splitQuotient plane rest
    match e, c with
    | pow b (num (.exact r)), .binary _ bCode _ =>
      if r < 0 then
        let turned : Code α := if r == -1 then bCode
          else powerCode bCode b (ofRat (-r)) (.literal (Scalar.ofRat (-r))) plane
        (above, turned :: below)
      else (c :: above, below)
    | pow _ (num (.exact r)), .unary _ bCode =>
      if r < 0 then (above, .unary Scalar.sqrt bCode :: below) else (c :: above, below)
    | _, _ => (c :: above, below)

/-- The sign of a product and its factors without it. -/
def splitSign : List (Expr × Code α) → Bool × List (Expr × Code α)
  | (num n, c) :: rest =>
    if n.isNegative then
      (true, if n.neg.isOne then rest else (num n.neg, .literal (literalOf n.neg)) :: rest)
    else (false, (num n, c) :: rest)
  | fs => (false, fs)

/-- A numerator over a denominator, with the sign on the first factor. -/
def quotientCode (negative : Bool) (above below : List (Code α)) : Code α :=
  let above := if above.isEmpty then [.literal (Scalar.ofInt 1)] else above
  let above := if negative then
      match above with
      | a :: as => .unary (fun v => -v) a :: as
      | [] => []
    else above
  let top := Code.joined (· * ·) above
  if below.isEmpty then top else .binary (· / ·) top (Code.joined (· * ·) below)

/-- A product: the sign, the numerator and the denominator. -/
def productCode (plane : Float → Float → α) (fs : List (Expr × Code α)) : Code α :=
  let (negative, fs) := splitSign fs
  let (above, below) := splitQuotient plane fs
  quotientCode negative above below

/-- The code of an operation on operands with these codes. -/
def operationCode (plane : Float → Float → α) (h : Head) (as : List Expr) (cs : List (Code α)) :
    Code α :=
  match h, as, cs with
  | .add, _, cs => Code.joined (· + ·) cs
  | .mul, as, cs => productCode plane (as.zip cs)
  | .pow, [b, x], [bCode, xCode] => powerCode bCode b x xCode plane
  | .fn .max, _, cs => Code.joined Scalar.max cs
  | .fn .min, _, cs => Code.joined Scalar.min cs
  | .fn f, _, [c] => .unary (Code.unaryFn f) c
  | .fn f, _, [c, d] => .binary (Code.binaryFn f) c d
  | .rel r, _, [c, d] => .binary (Code.comparison r) c d
  | .select, _, cs => .gather Code.selected cs
  | .conj, _, cs => .gather (fun vs => Scalar.ofBool (vs.all Scalar.truth)) cs
  | .disj, _, cs => .gather (fun vs => Scalar.ofBool (vs.any Scalar.truth)) cs
  | .negation, _, [c] => .unary (fun v => Scalar.ofBool !Scalar.truth v) c
  | _, _, _ => .literal Scalar.undefined

mutual

/-- The code of an arranged expression. `place` tells where a variable is
among the inputs, `plane` makes a scalar of a point in the plane. -/
def toCode (place : String → Nat) (plane : Float → Float → α) : Expr → Code α
  | num n => .literal (literalOf n)
  | pi => .literal Scalar.pi
  | euler => .literal Scalar.euler
  | imaginary => .literal (plane 0 1)
  | infinity neg =>
    let v : α := Scalar.ofInt (if neg then -1 else 1) / Scalar.ofInt 0
    .literal v
  | pole | undefined => .literal Scalar.undefined
  | var n => .input (place n)
  | truth b => .literal (Scalar.ofBool b)
  | node h as => operationCode plane h as (codes place plane as)

def codes (place : String → Nat) (plane : Float → Float → α) : List Expr → List (Code α)
  | [] => []
  | e :: es => toCode place plane e :: codes place plane es

end

/-! ## Expressions without a value -/

/-- The decimal digits that an integer may have. -/
def maxDigits : Nat := 4300

def isLong (n : Nat) : Bool := n.log2 > 14280 && n ≥ tenPow maxDigits

/-- What is wrong with an expression before any call. -/
def compileFault? (e : Expr) : Option Failure :=
  if e.any fun p => match p with
    | pole => true
    | _ => false
  then some .pole
  else if e.any fun p => match p with
    | num (.exact r) => isLong r.num.natAbs || isLong r.den
    | _ => false
  then some .invalidValue
  else none

/-- The value of a constant that needs no function: what arithmetic on
plain numbers gives. -/
def plainValue? : Nat → Expr → Option Float
  | 0, _ => none
  | fuel + 1, e =>
    match e with
    | num n => some (Binary64.ofRat n.shownValue)
    | pi => some Scalar.pi
    | euler => some Scalar.euler
    | add ts => (ts.mapM (plainValue? fuel)).map fun vs => vs.foldl (· + ·) 0
    | mul fs => (fs.mapM (plainValue? fuel)).map fun vs => vs.foldl (· * ·) 1
    | pow b x =>
      match x with
      | num (.exact r) => if r.den == 2 && r.num.natAbs == 1 then none
          else do return Float.pow (← plainValue? fuel b) (Binary64.ofRat r)
      | x => do return Float.pow (← plainValue? fuel b) (← plainValue? fuel x)
    | _ => none

/-- What is wrong with a power of plain numbers. -/
def plainPowerFault? (e : Expr) : Option Failure :=
  match e with
  | pow b (num x) =>
    let roots := match x with
      | .exact r => r.den == 2 && r.num.natAbs == 1
      | .rounded .. => false
    if roots then none
    else
      match plainValue? (e.depth + 1) b, Binary64.ofRat x.shownValue with
      | some v, y =>
        if v == 0 && y < 0 then some .divisionByZero
        else if v.isFinite && y.isFinite && (v.abs.pow y).isInf then some .tooLarge
        else none
      | none, _ => none
  | _ => none

/-- An integer that no function takes. -/
def isWide : Expr → Bool
  | num n => match n.toInt? with
    | some k => k ≥ twoPow 64 || k < -(twoPow 63 : Int)
    | none => false
  | _ => false

/-- A function, or a square root, of such an integer. -/
def isWideCall (h : Head) (args : List Expr) : Bool :=
  match h, args with
  | .fn _, [a] => isWide a
  | .pow, [b, num (.exact r)] => r.den == 2 && r.num.natAbs == 1 && isWide b
  | _, _ => false

/-- What is wrong with a condition of a selection. -/
def conditionFault? : List Expr → Option Failure
  | _ :: var _ :: _ => some .notApplicable
  | _ :: _ :: rest => conditionFault? rest
  | _ => none

/-- What is wrong with a single operation. -/
def operationFault? (e : Expr) : Option Failure :=
  match e with
  | num n => if (Binary64.ofRat n.shownValue).isFinite || !n.isExact then none else some .tooLarge
  | node (.closure _) _ => some .unresolvedName
  | node .span _ => some .unresolvedName
  | node (.fn .factorial) _ => some .notApplicable
  | pow .. => plainPowerFault? e
  | node .select as => conditionFault? as
  | _ => none

mutual

/-- Why no call of an expression has a value: the first operation, inner
ones before outer ones, that has none. -/
def callFault? : Expr → Option Failure
  | node (.closure _) _ => some .unresolvedName
  | node h as =>
    if isWideCall h as then some .notApplicable
    else (callFaultList? as).or (operationFault? (node h as))
  | e => operationFault? e

def callFaultList? : List Expr → Option Failure
  | [] => none
  | e :: es => (callFault? e).or (callFaultList? es)

end

end Expr
end FieldScript
