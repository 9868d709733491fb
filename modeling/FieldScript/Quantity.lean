import FieldScript.Scalar

/-!
# Real and complex quantities

A formula with an imaginary part somewhere is computed with quantities
that are real or complex. Real operands give what binary64 arithmetic
gives, so the square root of a negative real number is not-a-number; only
what is already complex stays in the plane.
-/

namespace FieldScript

inductive Quantity where
  | real (x : Float)
  | complex (re im : Float)

namespace Quantity

def re : Quantity → Float
  | real x => x
  | complex x _ => x

def im : Quantity → Float
  | real _ => 0
  | complex _ y => y

def isComplex : Quantity → Bool
  | real _ => false
  | complex .. => true

/-- An operation that is done on real operands by `f` and in the plane by
`g`. -/
def binary (f : Float → Float → Float) (g : Quantity → Quantity → Quantity)
    (a b : Quantity) : Quantity :=
  match a, b with
  | real x, real y => real (f x y)
  | _, _ => g a b

def unary (f : Float → Float) (g : Quantity → Quantity) (a : Quantity) : Quantity :=
  match a with
  | real x => real (f x)
  | _ => g a

def addPlane (a b : Quantity) : Quantity := complex (a.re + b.re) (a.im + b.im)

def subPlane (a b : Quantity) : Quantity := complex (a.re - b.re) (a.im - b.im)

def mulPlane (a b : Quantity) : Quantity :=
  complex (a.re * b.re - a.im * b.im) (a.re * b.im + a.im * b.re)

/-- Division that scales by the larger part of the divisor. -/
def divPlane (a b : Quantity) : Quantity :=
  if b.re.abs ≥ b.im.abs then
    if b.re == 0 && b.im == 0 then complex (a.re / b.re.abs) (a.im / b.re.abs)
    else
      let r := b.im / b.re
      let d := b.re + b.im * r
      complex ((a.re + a.im * r) / d) ((a.im - a.re * r) / d)
  else
    let r := b.re / b.im
    let d := b.im + b.re * r
    complex ((a.re * r + a.im) / d) ((a.im * r - a.re) / d)

def modulus (a : Quantity) : Float := Binary64.hypot a.re a.im

def expPlane (a : Quantity) : Quantity :=
  let r := a.re.exp
  complex (r * a.im.cos) (r * a.im.sin)

def logPlane (a : Quantity) : Quantity :=
  complex a.modulus.log (Float.atan2 a.im a.re)

/-- The square root with a nonnegative real part. -/
def sqrtPlane (a : Quantity) : Quantity :=
  let m := a.modulus
  if m == 0 then complex 0 a.im
  else if a.re ≥ 0 then
    let t := ((m + a.re) / 2).sqrt
    complex t (a.im / (2 * t))
  else
    let t := ((m - a.re) / 2).sqrt
    complex (a.im.abs / (2 * t)) (if (Binary64.parts a.im).negative then -t else t)

def powNat (a : Quantity) : Nat → Quantity
  | 0 => complex 1 0
  | n + 1 => mulPlane (powNat a n) a

/-- Integral powers up to a hundred are products, others go through the
logarithm. -/
def powPlane (a b : Quantity) : Quantity :=
  if a.re == 0 && a.im == 0 then
    if b.re > 0 then complex 0 0
    else if b.re == 0 && b.im == 0 then complex 1 0
    else complex Binary64.nan Binary64.nan
  else if b.im == 0 && b.re.floor == b.re && b.re.abs ≤ 100 then
    let p := powNat a b.re.abs.toUInt64.toNat
    if b.re < 0 then divPlane (complex 1 0) p else p
  else expPlane (mulPlane b (logPlane a))

def sinh (x : Float) : Float := (x.exp - (-x).exp) / 2

def cosh (x : Float) : Float := (x.exp + (-x).exp) / 2

def sinPlane (a : Quantity) : Quantity :=
  complex (a.re.sin * cosh a.im) (a.re.cos * sinh a.im)

def cosPlane (a : Quantity) : Quantity :=
  complex (a.re.cos * cosh a.im) (-(a.re.sin * sinh a.im))

def negate : Quantity → Quantity
  | real x => real (-x)
  | complex x y => complex (-x) (-y)

def timesI (a : Quantity) : Quantity := complex (-a.im) a.re

/-- The arcsine is the angle whose exponential has this sine. -/
def asinPlane (a : Quantity) : Quantity :=
  let root := sqrtPlane (subPlane (complex 1 0) (mulPlane a a))
  negate (timesI (logPlane (addPlane (timesI a) root)))

def acosPlane (a : Quantity) : Quantity :=
  subPlane (complex 1.5707963267948966 0) (asinPlane a)

def atanPlane (a : Quantity) : Quantity :=
  let i := timesI a
  let d := subPlane (logPlane (subPlane (complex 1 0) i)) (logPlane (addPlane (complex 1 0) i))
  mulPlane (complex 0 0.5) d

/-- The real parts decide, then the imaginary parts. -/
def lessPlane (a b : Quantity) : Bool :=
  a.re < b.re || (a.re == b.re && a.im < b.im)

def equalPlane (a b : Quantity) : Bool := a.re == b.re && a.im == b.im

def isNaN (a : Quantity) : Bool := a.re.isNaN || a.im.isNaN

/-- The real number that a quantity stands for: an imaginary part that is
only rounding does not count, any other makes it not-a-number. -/
def toFloat : Quantity → Float
  | real x => x
  | complex x y => if y.abs < 1e-12 then x else Binary64.nan

end Quantity

open Quantity in
instance : Scalar Quantity where
  add := binary (· + ·) addPlane
  sub := binary (· - ·) subPlane
  mul := binary (· * ·) mulPlane
  div := binary (· / ·) divPlane
  neg := negate
  ofRat r := real (Binary64.ofRat r)
  ofInt n := real (Float.ofInt n)
  pi := real Scalar.pi
  euler := real Scalar.euler
  undefined := real Binary64.nan
  power := binary Binary64.power powPlane
  sqrt := unary Float.sqrt sqrtPlane
  exp := unary Float.exp expPlane
  log := unary Float.log logPlane
  sin := unary Float.sin sinPlane
  cos := unary Float.cos cosPlane
  tan := unary Float.tan fun a => divPlane (sinPlane a) (cosPlane a)
  asin := unary Float.asin asinPlane
  acos := unary Float.acos acosPlane
  atan := unary Float.atan atanPlane
  atan2 := binary Float.atan2 fun _ _ => real Binary64.nan
  abs := unary Float.abs fun a => real a.modulus
  sign := unary Binary64.sign fun a => divPlane a (real a.modulus)
  floor := unary Float.floor id
  ceiling := unary Float.ceil id
  max := binary Scalar.max fun a b => if a.isNaN then a else if b.isNaN then b
    else if lessPlane a b then b else a
  min := binary Scalar.min fun a b => if a.isNaN then a else if b.isNaN then b
    else if lessPlane b a then b else a
  mod := binary Binary64.mod fun _ _ => real Binary64.nan
  hypot a b := real (Binary64.hypot a.modulus b.modulus)
  less := lessPlane
  lessEq a b := lessPlane a b || equalPlane a b
  equal := equalPlane
  isFinite a := a.re.isFinite && a.im.isFinite
  floorInt? a := Binary64.floorInt? a.re
  round a n := real (roundPlaces a.re n)

end FieldScript
