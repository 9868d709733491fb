import FieldScript.Decimal.Format

/-!
# Scalars

The numbers that formulas and algorithms compute with. `Scalar` lists the
operations they need and nothing about them: binary64 numbers are one
instance, with their rounding, infinities and not-a-number; exact numbers
are another. What is proved of an algorithm in exact arithmetic is proved
of the same definition that runs.
-/

namespace FieldScript

class Scalar (α : Type) extends Add α, Sub α, Mul α, Div α, Neg α where
  ofRat : Rat → α
  ofInt : Int → α
  pi : α
  euler : α
  undefined : α
  power : α → α → α
  sqrt : α → α
  exp : α → α
  log : α → α
  sin : α → α
  cos : α → α
  tan : α → α
  asin : α → α
  acos : α → α
  atan : α → α
  atan2 : α → α → α
  abs : α → α
  sign : α → α
  floor : α → α
  ceiling : α → α
  max : α → α → α
  min : α → α → α
  mod : α → α → α
  hypot : α → α → α
  less : α → α → Bool
  lessEq : α → α → Bool
  equal : α → α → Bool
  isFinite : α → Bool
  /-- The greatest integer that is not above a finite number. -/
  floorInt? : α → Option Int
  /-- The number rounded to some decimal places. -/
  round : α → Int → α

namespace Scalar

variable {α : Type} [Scalar α]

instance (priority := low) (n : Nat) : OfNat α n := ⟨ofInt n⟩

def half : α := ofRat (mkRat 1 2)

/-- One and zero stand for true and false. -/
def ofBool (b : Bool) : α := if b then ofInt 1 else ofInt 0

/-- Any number but zero stands for true. -/
def truth (x : α) : Bool := !equal x (ofInt 0)

/-- The index of the least number, the first of several; one that cannot
be compared comes before all. -/
def leastIndex? (xs : List α) : Option Nat :=
  let better (best : Nat × α) (next : Nat × α) : Nat × α :=
    if equal best.2 best.2 && !lessEq best.2 next.2 then next else best
  match xs.zipIdx.map fun p => (p.2, p.1) with
  | [] => none
  | first :: rest => some (rest.foldl better first).1

end Scalar

/-! ## Binary64 numbers -/

namespace Binary64

/-- The product and its exact rounding error. -/
def twoProduct (a b : Float) : Float × Float :=
  let cut (x : Float) : Float :=
    let t := 134217729 * x
    t - (t - x)
  let p := a * b
  let ah := cut a
  let al := a - ah
  let bh := cut b
  let bl := b - bh
  (p, ((ah * bh - p) + ah * bl + al * bh) + al * bl)

/-- The sum of two numbers, the first at least as large as the second,
and its exact rounding error. -/
def twoSum (a b : Float) : Float × Float :=
  let s := a + b
  (s, b - (s - a))

/-- The length of the vector: the square root of the sum of the squares,
corrected once by the exact residue. The larger component is brought near
one first, so that nothing overflows. -/
def hypot (x y : Float) : Float :=
  if x.isInf || y.isInf then infinity
  else if x.isNaN || y.isNaN then nan
  else
    let a := max x.abs y.abs
    let b := min x.abs y.abs
    if b == 0 then a
    else
      let k : Int := Float.toInt64 (Float.floor (Float.log2 a)) |>.toInt
      let scaled (v : Float) (k : Int) : Float := v.scaleB k
      let u := scaled a (-k)
      let v := scaled b (-k)
      let h := Float.sqrt (u * u + v * v)
      let (uu, du) := twoProduct u u
      let (vv, dv) := twoProduct v v
      let (hh, dh) := twoProduct h h
      let residue := (((uu - hh) + vv) + (du + dv)) - dh
      scaled (h + residue / (2 * h)) k

/-- The remainder of the division, with the sign of the divisor, a zero
remainder too. It is exact; nothing can be divided by zero or be an infinity. -/
def mod (a b : Float) : Float :=
  if !a.isFinite || b.isNaN || b == 0 then nan
  else
    let r :=
      if b.isInf || a.abs < b.abs then a
      else
        let p := parts a
        let q := parts b
        let e := min p.exponent q.exponent
        let n := p.mantissa * twoPow (p.exponent - e).toNat
        let d := q.mantissa * twoPow (q.exponent - e).toNat
        let (u, v) := scaleRatio (n % d) 1 e
        let r := ofNatRatio u v
        if p.negative then -r else r
    if r == 0 then (if b < 0 then -0.0 else 0)
    else if (r < 0) != (b < 0) then r + b
    else r

/-- Small powers are taken directly. -/
def power (x e : Float) : Float :=
  if e == 2 then x * x
  else if e == 1 then x
  else if e == 0.5 then x.sqrt
  else if e == -1 then 1 / x
  else x.pow e

/-- The greatest integer that is not above the number. -/
def floorInt? (x : Float) : Option Int :=
  if x.isFinite then let r := toRat x; some (r.num / r.den) else none

def sign (x : Float) : Float :=
  if x.isNaN then x else if x > 0 then 1 else if x < 0 then -1 else 0

end Binary64

instance : Scalar Float where
  ofRat := Binary64.ofRat
  ofInt := Float.ofInt
  pi := 3.141592653589793
  euler := 2.718281828459045
  undefined := Binary64.nan
  power := Binary64.power
  sqrt := Float.sqrt
  exp := Float.exp
  log := Float.log
  sin := Float.sin
  cos := Float.cos
  tan := Float.tan
  asin := Float.asin
  acos := Float.acos
  atan := Float.atan
  atan2 := Float.atan2
  abs := Float.abs
  sign := Binary64.sign
  floor := Float.floor
  ceiling := Float.ceil
  max x y := if x.isNaN then x else if y.isNaN then y else if x < y then y else x
  min x y := if x.isNaN then x else if y.isNaN then y else if y < x then y else x
  mod := Binary64.mod
  hypot := Binary64.hypot
  less x y := x < y
  lessEq x y := x ≤ y
  equal x y := x == y
  isFinite := Float.isFinite
  floorInt? := Binary64.floorInt?
  round := roundPlaces

end FieldScript
