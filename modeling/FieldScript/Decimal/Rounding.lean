/-!
# Rounding quotients

Everything that is rounded here is a quotient of two integers, so each
rounding is exact integer arithmetic: `roundDiv` goes to the nearest
integer and a tie goes to the even neighbour. `ofRatio` rounds a quotient
to the nearest binary64 number in the same way, and `Parts` reads a
binary64 number back as an integer times a power of two.
-/

namespace FieldScript

/-- Two to a natural power. -/
def twoPow (n : Nat) : Nat := Nat.pow 2 n

/-- Ten to a natural power. -/
def tenPow (n : Nat) : Nat := Nat.pow 10 n

/-- The integer nearest to `num / den`; of two, the even one. -/
def roundDiv (num den : Nat) : Nat :=
  let q := num / den
  let twice := 2 * (num % den)
  if twice > den || (twice == den && q % 2 == 1) then q + 1 else q

/-- The ratio `num / den` times `2 ^ k`, again as a ratio. -/
def scaleRatio (num den : Nat) (k : Int) : Nat × Nat :=
  if 0 ≤ k then (num * twoPow k.toNat, den) else (num, den * twoPow (-k).toNat)

namespace Binary64

/-- A finite number as an integer times a power of two. -/
structure Parts where
  negative : Bool
  mantissa : Nat
  exponent : Int

/-- Sign, mantissa and exponent as they are stored. -/
def parts (x : Float) : Parts :=
  let bits : Nat := x.toBits.toNat
  let biased : Nat := bits / twoPow 52 % twoPow 11
  let fraction : Nat := bits % twoPow 52
  if biased == 0 then ⟨bits ≥ twoPow 63, fraction, -1074⟩
  else ⟨bits ≥ twoPow 63, twoPow 52 + fraction, (biased : Int) - 1075⟩

namespace Parts

/-- The size of the number as a ratio. -/
def ratio (p : Parts) : Nat × Nat :=
  scaleRatio p.mantissa 1 p.exponent

end Parts

/-- The exact value of a finite number. -/
def toRat (x : Float) : Rat :=
  let p := parts x
  let (n, d) := p.ratio
  mkRat (if p.negative then -(n : Int) else n) d

/-- The greatest `k` with `2 ^ k ≤ num / den`, for positive arguments. -/
def log2Ratio (num den : Nat) : Int :=
  let k : Int := (num.log2 : Int) - den.log2
  let (n, d) := scaleRatio num den (-k)
  if d ≤ n then k else k - 1

/-- The number `mantissa * 2 ^ exponent`, where the mantissa has at most
53 bits, and 53 of them unless the exponent is the least one. -/
def ofParts (mantissa : Nat) (exponent : Int) : Float :=
  let (m, e) := if mantissa ≥ twoPow 53 then (mantissa / 2, exponent + 1) else (mantissa, exponent)
  if m < twoPow 52 then Float.ofBits (UInt64.ofNat m)
  else if e > 971 then Float.ofBits 0x7ff0000000000000
  else Float.ofBits (UInt64.ofNat ((e + 1075).toNat * twoPow 52 + (m - twoPow 52)))

/-- The binary64 number nearest to `num / den`; ties go to the even
mantissa, what is too large becomes infinity. -/
def ofNatRatio (num den : Nat) : Float :=
  if num == 0 then 0
  else
    let e := max (log2Ratio num den - 52) (-1074)
    if e > 1000 then Float.ofBits 0x7ff0000000000000
    else
      let (n, d) := scaleRatio num den (-e)
      ofParts (roundDiv n d) e

def ofRatio (num : Int) (den : Nat) : Float :=
  if num < 0 then -ofNatRatio num.natAbs den else ofNatRatio num.natAbs den

def ofRat (r : Rat) : Float :=
  ofRatio r.num r.den

/-- Whether an integer lies within the range of binary64. -/
def holdsInt (n : Int) : Bool :=
  (ofRatio n 1).isFinite

def infinity : Float := Float.ofBits 0x7ff0000000000000

def nan : Float := Float.ofBits 0x7ff8000000000000

end Binary64
end FieldScript
