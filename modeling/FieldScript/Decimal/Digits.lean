import FieldScript.Decimal.Rounding

/-!
# Decimal digits of a number

The three ways to pick decimal digits of an exactly known positive
number: a fixed count of places, a fixed count of significant digits, and
the fewest digits that read back as the same binary64 number.
-/

namespace FieldScript

/-- Decimal digits, most significant first, as one number of `count`
digits, and the power of ten of the first of them. -/
structure Digits where
  value : Nat
  count : Nat
  exponent : Int

/-- The greatest `k` with `10 ^ k ≤ num / den`, for positive
arguments. -/
def log10Ratio (num den : Nat) : Int :=
  if den ≤ num then (toString (num / den)).length - 1
  else
    let len := (toString (den / num)).length
    if den % num == 0 && den / num == tenPow (len - 1) then -((len : Int) - 1) else -(len : Int)

/-- The ratio times `10 ^ k`. -/
def shiftRatio (num den : Nat) (k : Int) : Nat × Nat :=
  if 0 ≤ k then (num * tenPow k.toNat, den) else (num, den * tenPow (-k).toNat)

namespace Digits

/-- The value as a ratio. -/
def ratio (d : Digits) : Nat × Nat :=
  shiftRatio d.value 1 (d.exponent - (d.count - 1))

/-- The same digits without the zeros at the end, one digit at least. -/
def stripped (d : Digits) : Digits :=
  go d.count d
where
  go : Nat → Digits → Digits
    | 0, d => d
    | n + 1, d =>
      if d.count > 1 && d.value % 10 == 0 then go n ⟨d.value / 10, d.count - 1, d.exponent⟩ else d

/-- The nearest number with `count` significant digits; zero has only
zeros. -/
def significant (num den count : Nat) : Digits :=
  if num == 0 then ⟨0, count, 0⟩
  else
    let e := log10Ratio num den
    let (n, d) := shiftRatio num den ((count : Int) - 1 - e)
    let v := roundDiv n d
    if v ≥ tenPow count then ⟨v / 10, count, e + 1⟩ else ⟨v, count, e⟩

/-- One candidate of `count` digits: it is taken if it reads back. -/
def readsBack (x : Float) (d : Digits) : Bool :=
  let (n, m) := d.ratio
  Binary64.ofNatRatio n m == x

/-- The fewest digits that read back as the positive number `x`: the
first grid on which a neighbour of `x` reads back, and of two the
nearer. -/
def shortest (x : Float) : Digits :=
  let (num, den) := (Binary64.parts x).ratio
  if num == 0 then ⟨0, 1, 0⟩
  else
    let e := log10Ratio num den
    let rec search : Nat → Nat → Digits
      | 0, count => significant num den count
      | fuel + 1, count =>
        let (n, d) := shiftRatio num den ((count : Int) - 1 - e)
        let low := n / d
        let below : Digits := ⟨low, count, e⟩
        let above : Digits :=
          if low + 1 == tenPow count then ⟨(low + 1) / 10, count, e + 1⟩ else ⟨low + 1, count, e⟩
        match readsBack x below, readsBack x above with
        | true, true => if roundDiv n d == low then below else above
        | true, false => below
        | false, true => above
        | false, false => search fuel (count + 1)
    (search 17 1).stripped

end Digits
end FieldScript
