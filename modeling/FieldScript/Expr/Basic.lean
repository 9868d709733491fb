import FieldScript.Expr.Number

/-!
# Expressions

An expression is a number, a constant, a variable or an operation on
expressions. All operations share one constructor, so that a traversal
has only two cases. Sums and products hold any number of operands; a
product keeps its numeric coefficient, if it is not one, in front, and so
does a sum with its constant term.

`Expr.compare` is a total order on expressions by structure; sums and
products keep their operands in this order, so that equal ones are
identical.
-/

namespace FieldScript

/-- The functions of the library. -/
inductive Fn where
  | sin | cos | tan | asin | acos | atan | atan2 | log | exp | abs | sign | floor | ceiling
  | max | min | mod | factorial
  deriving DecidableEq, Repr, BEq

inductive Relation where
  | less | lessEq | greater | greaterEq | notEqual
  deriving DecidableEq, Repr, BEq

inductive Head where
  | add | mul | pow
  | fn (f : Fn)
  | rel (r : Relation)
  /-- Values and conditions in turn; the first condition that holds
  selects its value. -/
  | select
  | conj | disj | negation
  /-- A function that stands for itself; its operand is the body. -/
  | closure (params : List String)
  /-- A call of a function that has no definition. -/
  | call (name : String)
  /-- Every number between two bounds, in the place of a limit that does
  not exist. -/
  | span
  deriving DecidableEq, Repr, BEq

inductive Expr where
  | num (n : Num)
  | pi
  | euler
  | imaginary
  | infinity (negative : Bool)
  /-- The value of a quotient by an exact zero. -/
  | pole
  | undefined
  | var (name : String)
  | truth (b : Bool)
  | node (head : Head) (args : List Expr)
  deriving Repr

namespace Fn

def index : Fn → Nat
  | sin => 0 | cos => 1 | tan => 2 | asin => 3 | acos => 4 | atan => 5 | atan2 => 6 | log => 7
  | exp => 8 | abs => 9 | sign => 10 | floor => 11 | ceiling => 12 | max => 13 | min => 14
  | mod => 15 | factorial => 16

end Fn

namespace Relation

def index : Relation → Nat
  | less => 0 | lessEq => 1 | greater => 2 | greaterEq => 3 | notEqual => 4

/-- The relation between the operands in the other order. -/
def flip : Relation → Relation
  | less => greater | lessEq => greaterEq | greater => less | greaterEq => lessEq
  | notEqual => notEqual

/-- The relation that holds exactly when this one does not. -/
def negate? : Relation → Option Relation
  | less => some greaterEq | lessEq => some greater | greater => some lessEq
  | greaterEq => some less | notEqual => none

/-- Whether the relation holds between numbers that compare this way. -/
def holds (r : Relation) (o : Ordering) : Bool :=
  match r with
  | less => o == .lt
  | lessEq => o != .gt
  | greater => o == .gt
  | greaterEq => o != .lt
  | notEqual => o != .eq

end Relation

namespace Head

/-- The place of a head in the order of heads. -/
def index : Head → Nat
  | add => 0 | mul => 1 | pow => 2 | select => 3 | conj => 4 | disj => 5 | negation => 6
  | closure _ => 7 | call _ => 8 | span => 40 | rel r => 9 + r.index | fn f => 14 + f.index

def names : Head → List String
  | closure ps => ps
  | call n => [n]
  | _ => []

/-- Heads by place, then by the names that they carry. -/
def compare (a b : Head) : Ordering :=
  (Ord.compare a.index b.index).then (Ord.compare a.names b.names)

end Head

namespace Expr

@[match_pattern] def add (ts : List Expr) : Expr := node .add ts

@[match_pattern] def mul (fs : List Expr) : Expr := node .mul fs

@[match_pattern] def pow (b e : Expr) : Expr := node .pow [b, e]

@[match_pattern] def fn1 (f : Fn) (a : Expr) : Expr := node (.fn f) [a]

@[match_pattern] def fn2 (f : Fn) (a b : Expr) : Expr := node (.fn f) [a, b]

@[match_pattern] def rel (r : Relation) (a b : Expr) : Expr := node (.rel r) [a, b]

def ofInt (n : Int) : Expr := num (.ofInt n)

def ofRat (r : Rat) : Expr := num (.exact r)

instance (n : Nat) : OfNat Expr n := ⟨num (.exact n)⟩

def half : Expr := num .half

/-! ## Order -/

def rank : Expr → Nat
  | num _ => 0 | pi => 1 | euler => 2 | imaginary => 3 | infinity _ => 4 | pole => 5
  | undefined => 6 | var _ => 7 | truth _ => 8 | node .. => 9

def compareNum (a b : Num) : Ordering :=
  match a, b with
  | .exact r, .exact s => if r < s then .lt else if s < r then .gt else .eq
  | .exact _, .rounded .. => .lt
  | .rounded .., .exact _ => .gt
  | .rounded r p, .rounded s q =>
    if r < s then .lt else if s < r then .gt else Ord.compare p q

mutual

def compare : Expr → Expr → Ordering
  | num a, num b => compareNum a b
  | infinity a, infinity b => Ord.compare a b
  | var a, var b => Ord.compare a b
  | truth a, truth b => Ord.compare a b
  | node h as, node k bs => (h.compare k).then (compareList as bs)
  | a, b => Ord.compare a.rank b.rank

def compareList : List Expr → List Expr → Ordering
  | [], [] => .eq
  | [], _ :: _ => .lt
  | _ :: _, [] => .gt
  | a :: as, b :: bs => (compare a b).then (compareList as bs)

end

instance : BEq Expr := ⟨fun a b => compare a b == .eq⟩

/-- Operands in the order in which sums and products keep them. -/
def sort (es : List Expr) : List Expr :=
  es.mergeSort fun a b => compare a b != .gt

/-! ## Parts -/

/-- The operands of a sum; any other expression is a sum of one. -/
def terms : Expr → List Expr
  | add ts => ts
  | e => [e]

/-- The operands of a product. -/
def factors : Expr → List Expr
  | mul fs => fs
  | e => [e]

/-- A product of these factors, as it stands. -/
def productOf : List Expr → Expr
  | [] => 1
  | [e] => e
  | es => mul es

/-- A sum of these terms, as it stands. -/
def sumOf : List Expr → Expr
  | [] => 0
  | [e] => e
  | es => add es

/-- The numeric coefficient and what it multiplies. -/
def splitCoefficient : Expr → Num × Expr
  | num n => (n, 1)
  | mul (num n :: rest) => (n, productOf rest)
  | e => (1, e)

/-- The constant term and the rest of a sum. -/
def splitConstant : Expr → Num × Expr
  | num n => (n, 0)
  | add (num n :: rest) => (n, sumOf rest)
  | e => (0, e)

/-- Base and exponent. The base of an exponential is Euler's number, and
a power of a unit fraction is one of its denominator. -/
def splitPower : Expr → Expr × Expr
  | pow (num (.exact r)) e =>
    if r.num == 1 && r.den != 1 then
      (ofInt r.den, match e with
        | num n => num n.neg
        | mul (num n :: rest) => if n.neg.isOne then productOf rest else mul (num n.neg :: rest)
        | e => mul [num (Num.ofInt (-1)), e])
    else (num (.exact r), e)
  | pow b e => (b, e)
  | fn1 .exp a => (euler, a)
  | e => (e, 1)

/-- Whether a number is attached as a factor as it stands, without
distributing it over a sum. -/
def scale (c : Num) (e : Expr) : Expr :=
  if c.isOne then e
  else match e with
    | num n => num (c.mul n)
    | mul (num n :: rest) =>
      let m := c.mul n
      if m.isOne then productOf rest else mul (num m :: rest)
    | mul fs => mul (num c :: fs)
    | e => mul [num c, e]

/-! ## Searching -/

mutual

/-- Whether some part of the expression passes. -/
def any (p : Expr → Bool) : Expr → Bool
  | node h as => p (node h as) || anyList p as
  | e => p e

def anyList (p : Expr → Bool) : List Expr → Bool
  | [] => false
  | e :: es => any p e || anyList p es

end

def insertName (names : List String) (n : String) : List String :=
  if names.contains n then names else names ++ [n]

mutual

/-- The variables that are not parameters of a function inside. -/
def freeVars : Expr → List String
  | var n => [n]
  | node (.closure ps) as => (freeVarsList as).filter fun n => !ps.contains n
  | node _ as => freeVarsList as
  | _ => []

def freeVarsList : List Expr → List String
  | [] => []
  | e :: es => (freeVarsList es).foldl insertName (freeVars e)

end

mutual

/-- The functions without definition that are called. -/
def calledNames : Expr → List String
  | node (.call n) as => insertName (calledNamesList as) n
  | node _ as => calledNamesList as
  | _ => []

def calledNamesList : List Expr → List String
  | [] => []
  | e :: es => (calledNamesList es).foldl insertName (calledNames e)

end

/-- No variable and no function occurs: the expression is one number. -/
def isConstant (e : Expr) : Bool :=
  !e.any fun
    | var _ => true
    | truth _ => true
    | node (.closure _) _ => true
    | node (.call _) _ => true
    | node .span _ => true
    | _ => false

/-- A truth value, or something that has one; a variable may stand for
either. -/
def isLogical : Expr → Bool
  | truth _ => true
  | node (.rel _) _ => true
  | node .conj _ => true
  | node .disj _ => true
  | node .negation _ => true
  | _ => false

def isNumber : Expr → Bool
  | num _ => true
  | _ => false

mutual

/-- A bound on the nesting of operations. -/
def depth : Expr → Nat
  | node _ as => depthList as + 1
  | _ => 1

def depthList : List Expr → Nat
  | [] => 0
  | e :: es => max (depth e) (depthList es)

end

mutual

/-- How many operations and leaves there are. -/
def size : Expr → Nat
  | node _ as => sizeList as + 1
  | _ => 1

def sizeList : List Expr → Nat
  | [] => 0
  | e :: es => size e + sizeList es

end

end Expr
end FieldScript
