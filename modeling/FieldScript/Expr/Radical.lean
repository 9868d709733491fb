import FieldScript.Expr.Facts

/-!
# Rational powers of numbers

A product of rational powers of rational numbers has one form: an exact
coefficient, primes to exponents between zero and one, and a power of
minus one. `Radicals` collects such a product; only primes up to a limit
are split off, and what is left of a base counts as a prime.
-/

namespace FieldScript

/-- Newton's iteration for the integer square root, from above. -/
def natSqrtFrom : Nat → Nat → Nat → Nat
  | 0, _, x => x
  | fuel + 1, n, x =>
    let y := (x + n / x) / 2
    if y < x then natSqrtFrom fuel n y else x

/-- The greatest number whose square is at most `n`. -/
def natSqrt (n : Nat) : Nat :=
  if n == 0 then 0 else natSqrtFrom (n.log2 + 8) n (twoPow (n.log2 / 2 + 1))

/-- What remains of a number without small factors: a square is split. -/
def remainingFactors (n : Nat) : List Nat :=
  let r := natSqrt n
  if n ≤ 1 then [] else if r * r == n then [r, r] else [n]

/-- Splits off the factors from `p` on; `fuel` bounds the candidates. -/
def primePowersFrom : Nat → Nat → Nat → List Nat
  | 0, n, _ => remainingFactors n
  | fuel + 1, n, p =>
    if n ≤ 1 then []
    else if p * p > n then [n]
    else if n % p == 0 then p :: primePowersFrom fuel (n / p) p
    else primePowersFrom fuel n (if p == 2 then 3 else p + 2)

/-- The largest candidate for a prime factor. -/
def primeLimit : Nat := twoPow 15

/-- The prime factors of a number, with repetition. -/
def primeFactors (n : Nat) : List Nat :=
  primePowersFrom (primeLimit + n.log2) n 2

/-- A product of powers of primes and of minus one. -/
structure Radicals where
  /-- Primes with their exponents; each prime once. -/
  primes : List (Nat × Rat)
  /-- The exponent of minus one. -/
  minus : Rat

namespace Radicals

def one : Radicals := ⟨[], 0⟩

def insertPrime (p : Nat) (e : Rat) : List (Nat × Rat) → List (Nat × Rat)
  | [] => [(p, e)]
  | (q, f) :: rest => if p == q then (q, f + e) :: rest else (q, f) :: insertPrime p e rest

def insertNat (n : Nat) (e : Rat) (primes : List (Nat × Rat)) : List (Nat × Rat) :=
  (primeFactors n).foldl (fun ps p => insertPrime p e ps) primes

/-- Multiplies by a power of a rational number other than zero. -/
def mulPower (r : Radicals) (base : Rat) (e : Rat) : Radicals :=
  ⟨insertNat base.den (-e) (insertNat base.num.natAbs e r.primes),
   if base.num < 0 then r.minus + e else r.minus⟩

/-- Multiplies by the imaginary unit. -/
def mulImaginary (r : Radicals) : Radicals := { r with minus := r.minus + mkRat 1 2 }

/-- The part of an exponent between zero and one. -/
def fractionPart (e : Rat) : Rat := e - (Num.ratFloor e : Rat)

def ratPow (r : Rat) (k : Int) : Rat :=
  if 0 ≤ k then r ^ k.toNat else (r ^ (-k).toNat).inv

/-- The rational factor: the integral parts of all exponents. -/
def coefficient (r : Radicals) : Rat :=
  let size := r.primes.foldl (fun c p => c * ratPow p.1 (Num.ratFloor p.2)) 1
  if Num.ratFloor r.minus % 2 == 0 then size else -size

/-- Primes of one exponent are multiplied into one base. -/
def insertBase (n : Nat) (e : Rat) : List (Nat × Rat) → List (Nat × Rat)
  | [] => [(n, e)]
  | (m, f) :: rest => if e == f then (m * n, f) :: rest else (m, f) :: insertBase n e rest

/-- The irrational factors that remain. -/
def factors (r : Radicals) : List Expr :=
  let bases := r.primes.foldl
    (fun bs p => let f := fractionPart p.2; if f == 0 then bs else insertBase p.1 f bs) []
  let sign := fractionPart r.minus
  bases.map (fun b => Expr.pow (Expr.ofInt b.1) (Expr.ofRat b.2))
    ++ (if sign == 0 then []
        else if sign == mkRat 1 2 then [Expr.imaginary]
        else [Expr.pow (Expr.ofInt (-1)) (Expr.ofRat sign)])

end Radicals

/-! ## Rounded powers -/

/-- A power of a positive number that may lie beyond the range of binary64
numbers: its fraction is taken there and its power of two is exact.
Nothing if the exponent is out of all proportion. -/
def widePower? (b e : Num) (bits : Nat) : Option Num :=
  let (m, k) := b.scaled
  let twos := e.value * (k : Rat)
  let whole := Num.ratFloor twos
  let size := m.pow e.toFloat * Float.exp2 (Binary64.ofRat (twos - (whole : Rat)))
  if size.isFinite && size != 0 && whole.natAbs ≤ 1000000 then
    some (.ofRounded (Binary64.toRat size * Radicals.ratPow 2 whole) bits)
  else none

/-- A power of numbers of which one at least is rounded, as its real and
imaginary part; nothing if it has no size. -/
def roundedPower? (b e : Num) (bits : Nat) : Option (Num × Num) :=
  let x := b.toFloat
  let y := e.toFloat
  let size := if y == 0.5 then x.abs.sqrt else x.abs.pow y
  if !size.isFinite || size == 0 then
    if b.isPositive then (widePower? b e bits).map (·, 0) else none
  else if x > 0 then some (.ofFloat size bits, 0)
  else
    let turn := Radicals.fractionPart (e.value / 2) * 2
    let cosine : Float :=
      if turn == mkRat 1 2 || turn == mkRat 3 2 then 0
      else Float.cos (3.141592653589793 * Binary64.ofRat turn)
    let sine : Float :=
      if turn == 0 || turn == 1 then 0 else Float.sin (3.141592653589793 * Binary64.ofRat turn)
    some (.ofFloat (size * cosine) bits, .ofFloat (size * sine) bits)

end FieldScript
