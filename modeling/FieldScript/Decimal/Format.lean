import FieldScript.Decimal.Digits

/-!
# Numbers as text

How numbers are written: with fixed places, with significant digits, or
with the fewest digits that read back. `Style` holds the decisions that
the last two share; the digits themselves come from `Digits`.
-/

namespace FieldScript

/-- How significant digits are laid out. -/
structure Style where
  /-- Positional notation is used for first digits from this power of ten … -/
  least : Int
  /-- … up to, and excluding, this one. -/
  bound : Int
  /-- Zeros at the end are kept. -/
  keepZeros : Bool
  /-- An integer in positional notation ends in a point and a zero. -/
  pointZero : Bool

/-- The text of a natural number, padded with zeros on the left. -/
def padZeros (width n : Nat) : String :=
  let s := toString n
  "".pushn '0' (width - s.length) ++ s

/-- Exponents have a sign and two digits at least. -/
def exponentText (e : Int) : String :=
  (if e < 0 then "e-" else "e+") ++ padZeros 2 e.natAbs

/-- A whole part and places behind the point. -/
def placesText (value places : Nat) : String :=
  if places == 0 then toString value
  else toString (value / tenPow places) ++ "." ++ padZeros places (value % tenPow places)

namespace Style

/-- Significant digits in this style. -/
def layout (s : Style) (d : Digits) : String :=
  let d := if s.keepZeros then d else d.stripped
  if s.least ≤ d.exponent && d.exponent < s.bound then
    let behind : Int := (d.count : Int) - 1 - d.exponent
    if 0 < behind then placesText d.value behind.toNat
    else
      let whole := toString (d.value * tenPow (-behind).toNat)
      if s.pointZero then whole ++ ".0" else if s.keepZeros then whole ++ "." else whole
  else
    placesText d.value (d.count - 1) ++ exponentText d.exponent

end Style

/-- Sign and special values around the text of a positive number. -/
def signed (x : Float) (body : Float → String) : String :=
  if x.isNaN then "nan"
  else
    let text := if x.isInf then "inf" else body x.abs
    if (Binary64.parts x).negative then "-" ++ text else text

/-- The fewest digits that read back; positional from `10 ^ -4` up to
`10 ^ 16`, integers with a point and a zero. -/
def shortestText (x : Float) : String :=
  signed x fun a => Style.layout ⟨-4, 16, false, true⟩ (Digits.shortest a)

/-- A fixed number of places. -/
def fixedText (places : Nat) (x : Float) : String :=
  signed x fun a =>
    let (n, d) := (Binary64.parts a).ratio
    placesText (roundDiv (n * tenPow places) d) places

/-- At most `count` significant digits, zeros at the end dropped. -/
def generalText (count : Nat) (x : Float) : String :=
  signed x fun a =>
    let (n, d) := (Binary64.parts a).ratio
    Style.layout ⟨-4, count, false, false⟩ (Digits.significant n d count)

/-- Exactly `count` significant digits. -/
def significantText (count : Nat) (x : Float) : String :=
  signed x fun a =>
    let (n, d) := (Binary64.parts a).ratio
    Style.layout ⟨-4, count, true, false⟩ (Digits.significant n d count)

/-- A share of one as a percentage with two places. -/
def percentText (x : Float) : String :=
  fixedText 2 (x * 100) ++ "%"

/-- The number rounded to `places` decimal places, or for negative
`places` to a power of ten: the exact value goes to the nearest decimal,
ties to the even digit, and the result to the nearest binary64 number. -/
def roundPlaces (x : Float) (places : Int) : Float :=
  if !x.isFinite || places > 323 then x
  else if places < -308 then 0 * x
  else
    let p := Binary64.parts x
    let (n, d) := p.ratio
    let (a, b) := shiftRatio n d places
    let (u, v) := shiftRatio (roundDiv a b) 1 (-places)
    let y := Binary64.ofNatRatio u v
    if p.negative then -y else y

end FieldScript
