import FieldScript.Decimal.Rounding
import FieldScript.Text.Blank
import FieldScript.Text.Digit

/-!
# Reading numerals

A numeral is an optional sign, digits with at most one point among them
and an optional exponent; one underscore may stand between two digits.
The digits may come from any script. `Numeral.read?` keeps the exact
decimal value, and `readFloat?` goes to the nearest binary64 number and
knows the words for infinity and not-a-number besides.
-/

namespace FieldScript

/-- The decimal number `± mantissa * 10 ^ exponent`. -/
structure Numeral where
  negative : Bool
  mantissa : Nat
  exponent : Int

namespace Numeral

/-- Whether a digit comes next. -/
def startsWithDigit : List Char → Bool
  | [] => false
  | c :: _ => isDecimalDigit c

/-- A run of digits with single underscores between them: the digit
values and what follows. `after` says that a digit came just before. -/
def digitRunFrom (after : Bool) : List Char → List Nat × List Char
  | [] => ([], [])
  | c :: rest =>
    match digitValue? c with
    | some d =>
      let (ds, r) := digitRunFrom true rest
      (d :: ds, r)
    | none =>
      if c == '_' && after && startsWithDigit rest then digitRunFrom false rest
      else ([], c :: rest)

def digitRun (s : List Char) : List Nat × List Char :=
  digitRunFrom false s

def ofDigits (ds : List Nat) : Nat :=
  ds.foldl (10 * · + ·) 0

/-- The exponent part, if there is one, must be complete and end the
text. -/
def readExponent? : List Char → Option Int
  | [] => some 0
  | c :: rest =>
    if c == 'e' || c == 'E' then
      let (neg, body) := match rest with
        | '-' :: r => (true, r)
        | '+' :: r => (false, r)
        | r => (false, r)
      match digitRun body with
      | ([], _) => none
      | (ds, []) => some (if neg then -(ofDigits ds : Int) else ofDigits ds)
      | _ => none
    else none

/-- A numeral without sign that fills the whole text. -/
def readUnsigned? (negative : Bool) (s : List Char) : Option Numeral :=
  let (whole, rest) := digitRun s
  let (places, rest) := match rest with
    | '.' :: r => digitRun r
    | r => ([], r)
  if whole.isEmpty && places.isEmpty then none
  else (readExponent? rest).map fun e =>
    ⟨negative, ofDigits (whole ++ places), e - places.length⟩

/-- The binary64 number nearest to the numeral. -/
def toFloat (n : Numeral) : Float :=
  let len : Int := (toString n.mantissa).length
  let size : Float :=
    if n.mantissa == 0 then 0
    else if n.exponent + len > 400 then Binary64.infinity
    else if n.exponent + len < -400 then 0
    else if 0 ≤ n.exponent then Binary64.ofNatRatio (n.mantissa * tenPow n.exponent.toNat) 1
    else Binary64.ofNatRatio n.mantissa (tenPow (-n.exponent).toNat)
  if n.negative then -size else size

end Numeral

/-- A number from its text; blanks around it do not count. -/
def readFloat? (text : String) : Option Float :=
  let (neg, body) := match trim text.toList with
    | '-' :: r => (true, r)
    | '+' :: r => (false, r)
    | r => (false, r)
  let word := String.ofList (body.map Char.toLower)
  if word == "inf" || word == "infinity" then
    some (if neg then -Binary64.infinity else Binary64.infinity)
  else if word == "nan" then some Binary64.nan
  else (Numeral.readUnsigned? neg body).map Numeral.toFloat

/-- An integer from its text; blanks around it do not count. -/
def readInteger? (text : String) : Option Int :=
  let (neg, body) := match trim text.toList with
    | '-' :: r => (true, r)
    | '+' :: r => (false, r)
    | r => (false, r)
  match Numeral.digitRun body with
  | ([], _) => none
  | (ds, []) => some (if neg then -(Numeral.ofDigits ds : Int) else Numeral.ofDigits ds)
  | _ => none

end FieldScript
