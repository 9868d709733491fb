import FieldScript.Expr.Basic
import FieldScript.Quantity

/-!
# Facts about expressions

What is known of the value of an expression, whatever its variables are:
that it is real, its sign, that it is an integer. Nothing is known of a
variable, not even that it is real, so most facts come from constants,
absolute values and even powers. The sign of a constant that the
structure does not show is read off an approximation, unless it is so
close to zero that rounding could have made it.
-/

namespace FieldScript

structure Facts where
  real : Bool
  /-- Known not to be a real number. -/
  nonreal : Bool
  nonneg : Bool
  nonpos : Bool
  nonzero : Bool
  integer : Bool
  finite : Bool
  deriving Repr

namespace Facts

def unknown : Facts := ⟨false, false, false, false, false, false, false⟩

def positive (f : Facts) : Bool := f.nonneg && f.nonzero

def negative (f : Facts) : Bool := f.nonpos && f.nonzero

def zero (f : Facts) : Bool := f.nonneg && f.nonpos

/-- A real number of this sign. -/
def ofSign (o : Ordering) (integer finite : Bool) : Facts :=
  ⟨true, false, o != .lt, o != .gt, o != .eq, integer, finite⟩

/-- A real number of unknown sign. -/
def realOnly : Facts := { unknown with real := true }

def realFinite : Facts := { unknown with real := true, finite := true }

def neg (f : Facts) : Facts := { f with nonneg := f.nonpos, nonpos := f.nonneg }

def add (f g : Facts) : Facts :=
  ⟨f.real && g.real, (f.nonreal && g.real) || (f.real && g.nonreal), f.nonneg && g.nonneg,
   f.nonpos && g.nonpos,
   (f.positive && g.nonneg) || (f.nonneg && g.positive) || (f.negative && g.nonpos)
    || (f.nonpos && g.negative),
   f.integer && g.integer, f.finite && g.finite⟩

def mul (f g : Facts) : Facts :=
  ⟨f.real && g.real, f.nonreal && g.real && g.nonzero || g.nonreal && f.real && f.nonzero,
   (f.nonneg && g.nonneg) || (f.nonpos && g.nonpos),
   (f.nonneg && g.nonpos) || (f.nonpos && g.nonneg),
   f.nonzero && g.nonzero, f.integer && g.integer, f.finite && g.finite⟩

/-- What both agree on. -/
def meet (f g : Facts) : Facts :=
  ⟨f.real && g.real, f.nonreal && g.nonreal, f.nonneg && g.nonneg, f.nonpos && g.nonpos,
   f.nonzero && g.nonzero, f.integer && g.integer, f.finite && g.finite⟩

end Facts

/-! ## Approximation of constants -/

namespace Expr

/-- A power in the plane where the real line has none. -/
def approxPower (a b : Quantity) : Quantity :=
  match a, b with
  | .real x, .real e =>
    if x < 0 && e.floor != e then Quantity.powPlane a b else .real (Binary64.power x e)
  | _, _ => Quantity.powPlane a b

def approxFn (f : Fn) (args : List Quantity) : Quantity :=
  let real1 (a : Quantity) (ok : Float → Bool) (g : Float → Float)
      (h : Quantity → Quantity) : Quantity :=
    match a with
    | .real x => if ok x then .real (g x) else h a
    | _ => h a
  let always : Float → Bool := fun _ => true
  match f, args with
  | .sin, [a] => real1 a always Float.sin Quantity.sinPlane
  | .cos, [a] => real1 a always Float.cos Quantity.cosPlane
  | .tan, [a] => real1 a always Float.tan fun a =>
      Quantity.divPlane (Quantity.sinPlane a) (Quantity.cosPlane a)
  | .asin, [a] => real1 a (fun x => x.abs ≤ 1) Float.asin Quantity.asinPlane
  | .acos, [a] => real1 a (fun x => x.abs ≤ 1) Float.acos Quantity.acosPlane
  | .atan, [a] => real1 a always Float.atan Quantity.atanPlane
  | .atan2, [a, b] => Scalar.atan2 a b
  | .log, [a] => real1 a (fun x => 0 ≤ x) Float.log Quantity.logPlane
  | .exp, [a] => Scalar.exp a
  | .abs, [a] => Scalar.abs a
  | .sign, [a] => Scalar.sign a
  | .floor, [a] => Scalar.floor a
  | .ceiling, [a] => Scalar.ceiling a
  | .max, a :: as => as.foldl Scalar.max a
  | .min, a :: as => as.foldl Scalar.min a
  | .mod, [a, b] => Scalar.mod a b
  | _, _ => .real Binary64.nan

mutual

/-- The value of a constant in binary64 arithmetic. -/
def approx : Expr → Quantity
  | num n => .real n.toFloat
  | pi => .real Scalar.pi
  | euler => .real Scalar.euler
  | imaginary => .complex 0 1
  | infinity neg => .real (if neg then -Binary64.infinity else Binary64.infinity)
  | truth b => .real (if b then 1 else 0)
  | pole | undefined | var _ => .real Binary64.nan
  | node h as =>
    let vs := approxList as
    match h, vs with
    | .add, vs => vs.foldl (· + ·) (.real 0)
    | .mul, vs => vs.foldl (· * ·) (.real 1)
    | .pow, [b, e] => approxPower b e
    | .fn f, vs => approxFn f vs
    | _, _ => .real Binary64.nan

def approxList : List Expr → List Quantity
  | [] => []
  | e :: es => approx e :: approxList es

end

/-- The facts that an approximation shows, where `scale` is the size of
what was added up. -/
def approxFacts (v : Quantity) (scale : Float) : Facts :=
  let bound := 1e-12 * scale
  if v.isNaN then .unknown
  else if v.im.abs > bound then
    { Facts.unknown with nonreal := true, nonzero := true, finite := true }
  else if v.isComplex then .unknown
  else if v.re.abs > bound then Facts.ofSign (if v.re > 0 then .gt else .lt) false v.re.isFinite
  else Facts.realFinite

/-! ## Facts by structure -/

def powFacts (base expo : Expr) (b e : Facts) : Facts :=
  let even := match expo with
    | num n => n.isEven
    | _ => false
  if b.positive && e.real then ⟨true, false, true, false, true, b.integer && e.integer && e.nonneg,
    b.finite && e.finite⟩
  else if b.nonneg && e.real then { Facts.realOnly with nonneg := true }
  else if b.real && even then
    ⟨true, false, true, false, b.nonzero, b.integer && e.nonneg, b.finite && b.nonzero⟩
  else if b.real && e.integer then
    ⟨true, false, b.nonneg, b.nonpos && !even, b.nonzero, b.integer && e.nonneg,
      b.finite && b.nonzero⟩
  else match base, expo with
    | num n, num m =>
      if n.isNegative && m.isFraction then { Facts.unknown with nonreal := true, nonzero := true }
      else .unknown
    | _, _ => .unknown

def fnFacts (f : Fn) (args : List Facts) : Facts :=
  match f, args with
  | .exp, [a] => if a.real then ⟨true, false, true, false, a.finite, false, a.finite⟩ else .unknown
  | .abs, [a] => ⟨true, false, true, a.zero, a.nonzero, a.integer, a.finite⟩
  | .sin, [a] | .cos, [a] => if a.real then Facts.realFinite else .unknown
  | .tan, [a] => if a.real then Facts.realOnly else .unknown
  | .log, [a] => if a.positive then Facts.realOnly else .unknown
  | .atan, [a] => if a.real then { a with integer := false, finite := true } else .unknown
  | .sign, [a] => if a.real then { a with integer := true, finite := true } else .unknown
  | .floor, [a] =>
    if a.real then ⟨true, false, a.nonneg, a.nonpos, false, a.finite, a.finite⟩ else .unknown
  | .ceiling, [a] =>
    if a.real then ⟨true, false, a.nonneg, a.nonpos, false, a.finite, a.finite⟩ else .unknown
  | .max, as =>
    let nonneg := as.any (·.nonneg)
    ⟨nonneg || as.all (·.real), false, nonneg, as.all (·.nonpos), as.any (·.positive) ||
      as.all (·.negative), as.all (·.integer), as.all (·.finite)⟩
  | .min, as =>
    let nonpos := as.any (·.nonpos)
    ⟨nonpos || as.all (·.real), false, as.all (·.nonneg), nonpos, as.any (·.negative) ||
      as.all (·.positive), as.all (·.integer), as.all (·.finite)⟩
  | .mod, [a, b] =>
    if a.real && b.real && b.nonzero then
      ⟨true, false, b.positive, b.negative, false, a.integer && b.integer, b.finite⟩
    else .unknown
  | _, _ => .unknown

/-- Every other element, from the first on. -/
def everyOther {α : Type} : List α → List α
  | a :: _ :: rest => a :: everyOther rest
  | [a] => [a]
  | [] => []

/-- The largest size among quantities. -/
def largest (vs : List Quantity) : Float :=
  vs.foldl (fun m v => if v.modulus > m then v.modulus else m) 0

mutual

def structuralFacts : Expr → Facts
  | num n => Facts.ofSign (if n.isNegative then .lt else if n.isZero then .eq else .gt)
      n.isInteger true
  | pi | euler => Facts.ofSign .gt false true
  | imaginary => { Facts.unknown with nonreal := true, nonzero := true, finite := true }
  | infinity neg => Facts.ofSign (if neg then .lt else .gt) false false
  | pole => { Facts.unknown with nonreal := true, nonzero := true }
  | undefined | var _ | truth _ => .unknown
  | node h as =>
    let fs := structuralFactsList as
    match h, as, fs with
    | .add, _, f :: fs => fs.foldl Facts.add f
    | .mul, _, f :: fs => fs.foldl Facts.mul f
    | .pow, [b, e], [f, g] => powFacts b e f g
    | .fn f, _, fs => fnFacts f fs
    | .span, _, _ => Facts.realOnly
    | .select, _, fs => match everyOther fs with
      | f :: rest => rest.foldl Facts.meet f
      | [] => .unknown
    | _, _, _ => .unknown

def structuralFactsList : List Expr → List Facts
  | [] => []
  | e :: es => structuralFacts e :: structuralFactsList es

end

/-- All that is known of an expression. -/
def facts (e : Expr) : Facts :=
  let s := structuralFacts e
  if s.zero || (s.real && s.nonzero) || s.nonreal || !e.isConstant then s
  else
    match e with
    | node h as =>
      let scale := match h with
        | .add => largest (approxList as)
        | .fn _ => 1
        | _ => 0
      let a := approxFacts (approx e) scale
      if a.nonreal || a.nonzero then { a with integer := s.integer } else s
    | _ => s

/-- The real value of a constant that can be compared. -/
def comparable? (e : Expr) : Option Float :=
  match e with
  | num n => some n.toFloat
  | infinity neg => some (if neg then -Binary64.infinity else Binary64.infinity)
  | _ =>
    if !e.isConstant then none
    else match approx e with
      | .real x => if x.isNaN then none else some x
      | .complex x y => if y.abs ≤ 1e-13 * x.abs then some x else none

end Expr
end FieldScript
