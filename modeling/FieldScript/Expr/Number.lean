import FieldScript.Decimal.Digits

/-!
# Numbers in expressions

A number in an expression is exact, or it was written with a point and
is rounded to a count of binary digits. Arithmetic with a rounded number
rounds its operands and its result to that count (the larger one, of
two), to the nearest and ties to even. A result that is exactly zero is
the exact zero, whatever it came from.
-/

namespace FieldScript

inductive Num where
  | exact (value : Rat)
  | rounded (value : Rat) (bits : Nat)
  deriving DecidableEq, Repr

/-- The nearest number with this many binary digits. -/
def roundBits (r : Rat) (bits : Nat) : Rat :=
  if r.num == 0 then 0
  else
    let e := Binary64.log2Ratio r.num.natAbs r.den - bits + 1
    let (n, d) := scaleRatio r.num.natAbs r.den (-e)
    let (a, b) := scaleRatio (roundDiv n d) 1 e
    mkRat (if r.num < 0 then -(a : Int) else a) b

/-- How many binary digits stand for this many decimal ones. -/
def bitsOfDigits (digits : Nat) : Nat :=
  max 1 (roundDiv ((digits + 1) * 33219280948873626) 10000000000000000)

/-- How many decimal digits show this many binary ones. -/
def digitsOfBits (bits : Nat) : Nat :=
  max 1 (roundDiv (bits * 10000000000000000) 33219280948873626 - 1)

/-- The bits of a number that was written with at most 15 digits. -/
def standardBits : Nat := 53

namespace Num

def ofInt (n : Int) : Num := exact n

instance (n : Nat) : OfNat Num n := ⟨exact n⟩

def half : Num := exact (mkRat 1 2)

def value : Num → Rat
  | exact r => r
  | rounded r _ => r

def isExact : Num → Bool
  | exact _ => true
  | rounded .. => false

/-- A rounded number, or the exact zero. -/
def ofRounded (r : Rat) (bits : Nat) : Num :=
  let v := roundBits r bits
  if v == 0 then 0 else rounded v bits

/-- The bits that an operation on two numbers works with; none if both
are exact. -/
def commonBits? : Num → Num → Option Nat
  | exact _, exact _ => none
  | exact _, rounded _ p => some p
  | rounded _ p, exact _ => some p
  | rounded _ p, rounded _ q => some (max p q)

/-- The operand as an operation with this many bits sees it. -/
def operand (bits : Nat) : Num → Rat
  | exact r => roundBits r bits
  | rounded r _ => r

def lift (f : Rat → Rat → Rat) (a b : Num) : Num :=
  match commonBits? a b with
  | none => exact (f a.value b.value)
  | some p => ofRounded (f (a.operand p) (b.operand p)) p

def add : Num → Num → Num := lift (· + ·)

def mul : Num → Num → Num := lift (· * ·)

def neg : Num → Num
  | exact r => exact (-r)
  | rounded r p => rounded (-r) p

def sub (a b : Num) : Num := add a (neg b)

def abs (a : Num) : Num := if a.value < 0 then neg a else a

/-- The reciprocal of a number other than zero. -/
def inv : Num → Num
  | exact r => exact r.inv
  | rounded r p => ofRounded r.inv p

/-- The quotient by a number other than zero. An exact number is divided
by a rounded one through the reciprocal. -/
def div (a b : Num) : Num :=
  match a, b with
  | exact _, rounded .. => mul a (inv b)
  | _, _ => lift (· / ·) a b

def isZero (a : Num) : Bool := a.value.num == 0

def isNegative (a : Num) : Bool := a.value.num < 0

def isPositive (a : Num) : Bool := a.value.num > 0

def isInteger : Num → Bool
  | exact r => r.den == 1
  | rounded .. => false

def isOne (a : Num) : Bool := a == exact 1

/-- The exact integer, if it is one. -/
def toInt? : Num → Option Int
  | exact r => if r.den == 1 then some r.num else none
  | rounded .. => none

def isEven (a : Num) : Bool := (a.toInt?.map (· % 2 == 0)).getD false

def isOdd (a : Num) : Bool := (a.toInt?.map (· % 2 == 1)).getD false

/-- An exact number that is no integer. -/
def isFraction : Num → Bool
  | exact r => r.den != 1
  | rounded .. => false

/-- An integral power; the base is not zero if the exponent is
negative. -/
def powInt (a : Num) (n : Int) : Num :=
  let power : Rat := if 0 ≤ n then a.value ^ n.toNat else (a.value ^ (-n).toNat).inv
  match a with
  | exact _ => exact power
  | rounded _ p => ofRounded power p

def ratFloor (r : Rat) : Int := r.num / r.den

def floor (a : Num) : Int := ratFloor a.value

def ceil (a : Num) : Int := -ratFloor (-a.value)

/-- The remainder with the sign of the divisor, which is not zero. With
a rounded number it is taken exactly and then rounded. -/
def mod (a b : Num) : Num :=
  let r := a.value - b.value * (ratFloor (a.value / b.value) : Rat)
  match commonBits? a b with
  | none => exact r
  | some p => ofRounded r p

/-- A quotient of naturals to as many decimal digits as these bits allow;
a half goes up. -/
def shownRatio (n d bits : Nat) : Nat × Nat :=
  let count := digitsOfBits bits
  let e := log10Ratio n d
  let (n, d) := shiftRatio n d ((count : Int) - 1 - e)
  shiftRatio ((2 * n + d) / (2 * d)) 1 (e - (count - 1))

/-- The value that a rounded number shows: its decimal digits. -/
def shownValue : Num → Rat
  | exact r => r
  | rounded r bits =>
    if r.num == 0 then 0
    else
      let shown := shownRatio r.num.natAbs r.den bits
      mkRat (if r.num < 0 then -(shown.1 : Int) else shown.1) shown.2

/-- The binary64 number nearest to the value. -/
def toFloat (a : Num) : Float := Binary64.ofRat a.value

/-- The size of a number other than zero as a number from one to two and a
power of two. It never leaves the range of binary64 numbers. -/
def scaled (a : Num) : Float × Int :=
  let k := Binary64.log2Ratio a.value.num.natAbs a.value.den
  let (n, d) := scaleRatio a.value.num.natAbs a.value.den (-k)
  (Binary64.ofNatRatio n d, k)

/-- The natural logarithm of the size of a number other than zero. -/
def logarithmOfSize (a : Num) : Float :=
  let (m, k) := a.scaled
  m.log + Float.ofInt k * Float.log 2

/-- A rounded number from a finite binary64 number. -/
def ofFloat (x : Float) (bits : Nat) : Num := ofRounded (Binary64.toRat x) bits

end Num
end FieldScript
