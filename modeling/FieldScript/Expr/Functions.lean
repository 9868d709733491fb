import FieldScript.Expr.Normal

/-!
# Functions of expressions

The functions of the library on expressions. Special values are exact:
multiples of pi for the trigonometric functions, powers of the base for
logarithms, integers for rounding. A function of a rounded number is a
rounded number. Everything else stays symbolic.
-/

namespace FieldScript
namespace Expr

/-- Whether the expression is written with a minus sign: a negative
coefficient, or more such terms than others in a sum. -/
def isNegated : Expr → Bool
  | num n => n.isNegative
  | mul (num n :: _) => n.isNegative
  | add ts =>
    let signs := ts.map fun t => t.splitCoefficient.1.isNegative
    let minus := (signs.filter id).length
    if 2 * minus > ts.length then true
    else if 2 * minus == ts.length then (signs.getLast?).getD false
    else false
  | _ => false

/-- The value at a rounded number; nothing where it has none. -/
def atRounded? (f : Float → Float) (n : Num) : Option Expr :=
  match n with
  | .exact _ => none
  | .rounded _ bits =>
    let y := f n.toFloat
    if y.isFinite then some (num (.ofFloat y bits)) else none

/-- A coefficient of pi that is an exact binary fraction counts as
exact. -/
def exactTurn? : Num → Option Rat
  | .exact r => some r
  | .rounded r _ =>
    let f := Radicals.fractionPart (if r < 0 then -r else r)
    if f == 0 then some r
    else
      let places := (Float.log2 (Binary64.ofRat f)).abs.round.toUInt64.toNat
      let scaled := r * (twoPow places : Nat)
      if scaled.den == 1 then some r else none

/-- The rational number of times that pi goes into a constant. -/
def turns? : Expr → Option Rat
  | pi => some 1
  | mul [num n, pi] => exactTurn? n
  | _ => none

/-- A rational number within one period of length two. -/
def reduceTurn (r : Rat) : Rat := r - 2 * (Num.ratFloor (r / 2) : Rat)

/-- The cosine of a rational multiple of pi, if it has a simple form. -/
def cosineOfTurn? (r : Rat) : Option Expr :=
  let r := reduceTurn r
  let r := if r > 1 then 2 - r else r
  let (negative, s) := if r > mkRat 1 2 then (true, 1 - r) else (false, r)
  let root (n : Int) : Expr := squareRoot (ofInt n)
  let value : Option Expr :=
    if s == 0 then some 1
    else if s == mkRat 1 2 then some 0
    else if s == mkRat 1 3 then some half
    else if s == mkRat 1 4 then some (times half (root 2))
    else if s == mkRat 1 6 then some (times half (root 3))
    else if s == mkRat 1 5 then some (times (ofRat (mkRat 1 4)) (plus 1 (root 5)))
    else if s == mkRat 2 5 then some (times (ofRat (mkRat 1 4)) (plus (ofInt (-1)) (root 5)))
    else if s == mkRat 1 12 then
      some (plus (times (ofRat (mkRat 1 4)) (root 2)) (times (ofRat (mkRat 1 4)) (root 6)))
    else if s == mkRat 5 12 then
      some (plus (times (ofRat (mkRat (-1) 4)) (root 2)) (times (ofRat (mkRat 1 4)) (root 6)))
    else none
  value.map fun v => if negative then opposite v else v

/-- Splits the multiples of half of pi off a sum: what remains and the
number of halves. -/
def peelTurns (ts : List Expr) : List Expr × Int :=
  let turns := ts.filterMap fun t => match t with
    | pi => some (1 : Rat)
    | mul [num (.exact r), pi] => some r
    | _ => none
  let rest := ts.filter fun t => match t with
    | pi => false
    | mul [num (.exact _), pi] => false
    | _ => true
  let total := turns.foldl (· + ·) 0
  let halves := Num.ratFloor (2 * total)
  let left := total - (halves : Rat) / 2
  (rest ++ (if left == 0 then [] else [times (ofRat left) pi]), halves)

/-! ## Trigonometric functions -/

/-- What a function takes at infinity when it has no limit there. -/
def spanOf (low high : Expr) : Expr := node .span [low, high]

mutual

/-- The sine. The fuel bounds reductions by symmetry. -/
def makeSin (fuel : Nat) (a : Expr) : Expr :=
  let raw := fn1 .sin a
  match fuel with
  | 0 => raw
  | fuel + 1 =>
    match a with
    | num n => if n.isZero then 0 else (atRounded? Float.sin n).getD raw
    | undefined | pole => undefined
    | infinity _ => spanOf (ofInt (-1)) 1
    | fn1 .asin x => x
    | fn1 .acos x => squareRoot (minus 1 (raise x 2))
    | fn1 .atan x => divide x (squareRoot (plus 1 (raise x 2)))
    | fn2 .atan2 y x => divide y (squareRoot (plus (raise x 2) (raise y 2)))
    | a =>
      if a.isNegated then opposite (makeSin fuel (opposite a))
      else
        match turns? a with
        | some r => (cosineOfTurn? (mkRat 1 2 - r)).getD raw
        | none =>
          match a with
          | add ts =>
            let (rest, halves) := peelTurns ts
            if halves == 0 then raw
            else
              let x := sumOf rest
              match halves % 4 with
              | 0 => makeSin fuel x
              | 1 => makeCos fuel x
              | 2 => opposite (makeSin fuel x)
              | _ => opposite (makeCos fuel x)
          | _ => raw

/-- The cosine. -/
def makeCos (fuel : Nat) (a : Expr) : Expr :=
  let raw := fn1 .cos a
  match fuel with
  | 0 => raw
  | fuel + 1 =>
    match a with
    | num n => if n.isZero then 1 else (atRounded? Float.cos n).getD (if n.isNegative then
        fn1 .cos (num n.neg) else raw)
    | undefined | pole => undefined
    | infinity _ => spanOf (ofInt (-1)) 1
    | fn1 .acos x => x
    | fn1 .asin x => squareRoot (minus 1 (raise x 2))
    | fn1 .atan x => divide 1 (squareRoot (plus 1 (raise x 2)))
    | fn2 .atan2 y x => divide x (squareRoot (plus (raise x 2) (raise y 2)))
    | a =>
      if a.isNegated then makeCos fuel (opposite a)
      else
        match turns? a with
        | some r => (cosineOfTurn? r).getD raw
        | none =>
          match a with
          | add ts =>
            let (rest, halves) := peelTurns ts
            if halves == 0 then raw
            else
              let x := sumOf rest
              match halves % 4 with
              | 0 => makeCos fuel x
              | 1 => opposite (makeSin fuel x)
              | 2 => opposite (makeCos fuel x)
              | _ => makeSin fuel x
          | _ => raw

end

/-- How often symmetries are used. -/
def symmetryFuel : Nat := 8

def sine (a : Expr) : Expr := makeSin symmetryFuel a

def cosine (a : Expr) : Expr := makeCos symmetryFuel a

/-- The tangent. -/
def makeTan : Nat → Expr → Expr
  | 0, a => fn1 .tan a
  | fuel + 1, a =>
    let raw := fn1 .tan a
    match a with
    | num n => if n.isZero then 0 else
        (atRounded? Float.tan n).getD (if n.isNegative then opposite (fn1 .tan (num n.neg)) else raw)
    | undefined | pole => undefined
    | infinity _ => spanOf (infinity true) (infinity false)
    | fn1 .atan x => x
    | fn1 .asin x => divide x (squareRoot (minus 1 (raise x 2)))
    | fn1 .acos x => divide (squareRoot (minus 1 (raise x 2))) x
    | fn2 .atan2 y x => divide y x
    | a =>
      if a.isNegated then opposite (makeTan fuel (opposite a))
      else
        match turns? a with
        | some r =>
          match cosineOfTurn? (mkRat 1 2 - r), cosineOfTurn? r with
          | some s, some c => divide s c
          | _, _ => raw
        | none =>
          match a with
          | add ts =>
            let (rest, halves) := peelTurns ts
            if halves == 0 then raw
            else if halves % 2 == 0 then makeTan fuel (sumOf rest)
            else opposite (raise (makeTan fuel (sumOf rest)) (ofInt (-1)))
          | _ => raw

def tangent (a : Expr) : Expr := makeTan symmetryFuel a

/-! ## Inverse functions -/

/-- The arcsine of the sines of simple multiples of pi. -/
def arcsineTable : List (Expr × Rat) :=
  [(1, mkRat 1 2), (half, mkRat 1 6), (times half (squareRoot 2), mkRat 1 4),
   (times half (squareRoot 3), mkRat 1 3)]

def makeAsin (a : Expr) : Expr :=
  let positive (a : Expr) : Expr :=
    match arcsineTable.find? (·.1 == a) with
    | some (_, r) => times (ofRat r) pi
    | none =>
      match a with
      | num n =>
        if n.isExact then fn1 .asin a
        else if n.value ≤ 1 then (atRounded? Float.asin n).getD (fn1 .asin a)
        else
          let v := Quantity.asinPlane (.complex n.toFloat 0)
          planeNumber (.ofFloat v.re standardBits) (.ofFloat v.im standardBits)
      | a => fn1 .asin a
  match a with
  | undefined => undefined
  | pole => pole
  | num n => if n.isZero then 0 else if n.isNegative then opposite (positive (num n.neg)) else positive a
  | a => if a.isNegated then opposite (positive (opposite a)) else positive a

def makeAcos (a : Expr) : Expr :=
  match a with
  | undefined => undefined
  | pole => pole
  | num n =>
    if n.isZero then times half pi
    else
      match arcsineTable.find? (·.1 == num n.abs) with
      | some (_, r) => times (ofRat (if n.isNegative then mkRat 1 2 + r else mkRat 1 2 - r)) pi
      | none =>
        if n.isExact then fn1 .acos a
        else if n.abs.value ≤ 1 then (atRounded? Float.acos n).getD (fn1 .acos a)
        else
          let v := Quantity.acosPlane (.complex n.toFloat 0)
          planeNumber (.ofFloat v.re standardBits) (.ofFloat v.im standardBits)
  | a =>
    let negative := a.isNegated
    match arcsineTable.find? (·.1 == (if negative then opposite a else a)) with
    | some (_, r) => times (ofRat (if negative then mkRat 1 2 + r else mkRat 1 2 - r)) pi
    | none => fn1 .acos a

/-- The arctangent of the tangents of simple multiples of pi. -/
def arctangentTable : List (Expr × Rat) :=
  [(1, mkRat 1 4), (squareRoot 3, mkRat 1 3), (times (ofRat (mkRat 1 3)) (squareRoot 3), mkRat 1 6)]

def makeAtan (a : Expr) : Expr :=
  let positive (a : Expr) : Expr :=
    match arctangentTable.find? (·.1 == a) with
    | some (_, r) => times (ofRat r) pi
    | none =>
      match a with
      | num n => (atRounded? Float.atan n).getD (fn1 .atan a)
      | a => fn1 .atan a
  match a with
  | undefined => undefined
  | pole => spanOf (times (ofRat (mkRat (-1) 2)) pi) (times half pi)
  | infinity neg => times (ofRat (mkRat (if neg then -1 else 1) 2)) pi
  | num n => if n.isZero then 0 else if n.isNegative then opposite (positive (num n.neg)) else positive a
  | a => if a.isNegated then opposite (positive (opposite a)) else positive a

/-- The angle of the point `(x, y)`. -/
def makeAtan2 (y x : Expr) : Expr :=
  let fx := x.facts
  let fy := y.facts
  let raw := fn2 .atan2 y x
  if x == undefined || y == undefined then undefined
  else if (x == pole || y == pole) && x.isConstant && y.isConstant then undefined
  else if fx.real && fy.real then
    if fx.positive then makeAtan (divide y x)
    else if fx.negative then
      if fy.negative then minus (makeAtan (divide y x)) pi
      else if fy.nonneg then plus (makeAtan (divide y x)) pi
      else raw
    else if fx.zero then
      if fy.positive then times half pi
      else if fy.negative then times (ofRat (mkRat (-1) 2)) pi
      else if fy.zero then undefined
      else raw
    else raw
  else raw

/-! ## Logarithm -/

/-- How often `p ≥ 2` divides `n ≥ 1`. -/
def multiplicityNat : Nat → Nat → Nat → Nat
  | 0, _, _ => 0
  | fuel + 1, p, n => if p ≥ 2 && n ≥ 1 && n % p == 0 then 1 + multiplicityNat fuel p (n / p) else 0

/-- The power of `p` that is in the positive rational number `n`; nothing
where it is not defined. -/
def multiplicity? (p n : Rat) : Option Int :=
  let count (a b : Nat) : Int := multiplicityNat (b.log2 + 1) a b
  if n.num ≤ 0 then none
  else if p.den == 1 then
    if p.num < 2 then none
    else if n.num == 1 then some (-count p.num.natAbs n.den)
    else some (count p.num.natAbs n.num.natAbs - count p.num.natAbs n.den)
  else if p.num == 1 then some (count p.den n.den)
  else if p.num < 2 then none
  else
    let like := min (count p.num.natAbs n.num.natAbs) (count p.den n.den)
    let cross := min (count p.den n.num.natAbs) (count p.num.natAbs n.den)
    some (like - cross)

/-- The natural logarithm. -/
def makeLog : Nat → Expr → Expr
  | 0, a => fn1 .log a
  | fuel + 1, a =>
    let raw := fn1 .log a
    match a with
    | num n =>
      if n.isZero then pole
      else if n.isOne then 0
      else if n.isNegative then plus (times pi imaginary) (makeLog fuel (num n.neg))
      else match n with
        | .exact r => if r.num == 1 then opposite (fn1 .log (ofInt r.den)) else raw
        | .rounded _ bits => (atRounded? Float.log n).getD (num (.ofFloat n.logarithmOfSize bits))
    | infinity _ => infinity false
    | pole => pole
    | undefined => undefined
    | euler => 1
    | imaginary => times (times half pi) imaginary
    | fn1 .exp b => if b.facts.real then b else raw
    | mul [num (.exact r), imaginary] =>
      if r > 0 then plus (times (times half pi) imaginary) (makeLog fuel (ofRat r))
      else minus (makeLog fuel (ofRat (-r))) (times (times half pi) imaginary)
    | a =>
      let f := a.facts
      if f.zero then pole
      else if a.isConstant && f.negative then
        plus (times pi imaginary) (makeLog fuel (opposite a))
      else raw

def logarithm (a : Expr) : Expr := makeLog 3 a

/-- The logarithm to a base. Powers of the base are taken out of a
rational argument. -/
def logarithmTo (a base : Expr) : Expr :=
  let quotient := divide (logarithm a) (logarithm base)
  match base, a with
  | num (.exact 1), num (.exact 1) => undefined
  | num (.exact 1), _ => pole
  | euler, a => logarithm a
  | num (.exact p), num (.exact n) =>
    match multiplicity? p n with
    | some 0 => quotient
    | some k =>
      plus (ofInt k) (divide (logarithm (num (.exact (n / Radicals.ratPow p k)))) (logarithm base))
    | none => quotient
  | _, _ => quotient

/-! ## Size and sign -/

/-- Whether the absolute value of a factor stands outside. -/
def absOfFactor? (e : Expr) : Option Expr :=
  let f := e.facts
  match e with
  | num n => some (num n.abs)
  | imaginary => some 1
  | pow (num b) (num k) => if b.isNegative then some (raise (num b.neg) (num k)) else some e
  | e =>
    if f.nonneg then some e
    else if f.nonpos then some (opposite e)
    else match e with
      | pow b k => if b.facts.negative && !k.any (· == imaginary) then some (raise (opposite b) k) else none
      | _ => none

/-- The imaginary factor taken out of a term. -/
def imaginaryPart? (t : Expr) : Option Expr :=
  let fs := t.factors
  if fs.contains imaginary then some (productOf (fs.filter (· != imaginary))) else none

def makeAbs : Nat → Expr → Expr
  | 0, a => fn1 .abs a
  | fuel + 1, a =>
    let raw (a : Expr) : Expr := if a == 1 then 1 else fn1 .abs a
    let f := a.facts
    match a with
    | undefined => undefined
    | pole | infinity _ => infinity false
    | a =>
      if f.nonneg then a
      else if f.nonpos then opposite a
      else
        match a with
        | imaginary => 1
        | mul fs =>
          let known := fs.filterMap absOfFactor?
          let others := fs.filter fun g => (absOfFactor? g).isNone
          if known.isEmpty then raw a
          else times (makeMul simplificationFuel known)
            (match others with
              | [] => 1
              | [g] => makeAbs fuel g
              | gs => fn1 .abs (mul gs))
        | pow b e =>
          match b, e with
          | num c, num n => if c.isNegative then raise (num c.neg) (num n) else raw a
          | b, num n =>
            if b.facts.real && n.isInteger then
              if n.isEven then a else raise (makeAbs fuel b) (num n)
            else if (n.toInt?.map fun k => decide (k < 0)).getD false && !b.isConstant then
              raise (makeAbs fuel (raise b (num n.neg))) (ofInt (-1))
            else (absOfFactor? a).getD (raw a)
          | _, _ => (absOfFactor? a).getD (raw a)
        | add ts =>
          if a.isConstant && ts.any fun t => (imaginaryPart? t).isSome then
            let re := makeAdd (ts.filter fun t => (imaginaryPart? t).isNone)
            let im := makeAdd (ts.filterMap imaginaryPart?)
            if re.facts.real && im.facts.real then
              squareRoot (plus (raise re 2) (raise im 2))
            else raw a
          else if a.isNegated then raw (opposite a)
          else raw a
        | a => raw a

def absolute (a : Expr) : Expr := makeAbs 6 a

/-- The sign; factors of known sign leave it. -/
def makeSign (a : Expr) : Expr :=
  let f := a.facts
  match a with
  | undefined => undefined
  | infinity neg => ofInt (if neg then -1 else 1)
  | a =>
    if f.zero then 0
    else if f.positive then 1
    else if f.negative then ofInt (-1)
    else
      match a with
      | fn1 .sign _ => a
      | mul fs =>
        let known := fs.filter fun g => let f := g.facts; f.positive || f.negative
        let others := fs.filter fun g => let f := g.facts; !(f.positive || f.negative)
        if known.isEmpty then fn1 .sign a
        else
          let minus := (known.filter fun g => g.facts.negative).length % 2 == 1
          let s := match others with
            | [fn1 .sign x] => fn1 .sign x
            | gs => fn1 .sign (productOf gs)
          if minus then opposite s else s
      | a => fn1 .sign a

/-! ## Rounding -/

/-- The integer next to a finite number that is not too close to one. -/
def integerBeside? (up : Bool) (x : Float) : Option Int :=
  if !x.isFinite then none
  else
    let near := x.round
    if (x - near).abs ≤ 1e-9 * (1 + x.abs) && x.abs < 1e15 then none
    else some (Num.ratFloor (Binary64.toRat (if up then x.ceil else x.floor)))

/-- The integer next to a real constant that is not too close to one. -/
def integerPart? (up : Bool) (a : Expr) : Option Int :=
  match a with
  | num n => some (if up then n.ceil else n.floor)
  | a => a.comparable?.bind (integerBeside? up)

/-- The point with integral coordinates next to a constant. In the plane
each coordinate is rounded for itself. -/
def integralPoint? (up : Bool) (a : Expr) : Option Expr :=
  match integerPart? up a with
  | some k => some (ofInt k)
  | none =>
    let coordinate? (x size : Float) : Option Int :=
      if x.abs ≤ 1e-13 * size then some 0 else integerBeside? up x
    match approx a with
    | .real _ => none
    | .complex x y => do
      if y.abs ≤ 1e-13 * x.abs then none
      else
        let re ← coordinate? x y.abs
        let im ← coordinate? y x.abs
        pure (planeNumber (.ofInt re) (.ofInt im))

/-- Rounding down or up. Integral terms leave it. -/
def makeRound (up : Bool) (a : Expr) : Expr :=
  let f : Fn := if up then .ceiling else .floor
  match a with
  | num n => ofInt (if up then n.ceil else n.floor)
  | undefined => undefined
  | pole => pole
  | infinity neg => infinity neg
  | a =>
    let ts := a.terms
    let whole := ts.filter fun t => let g := t.facts; g.integer && g.real
    let rest := ts.filter fun t => let g := t.facts; !(g.integer && g.real)
    let ipart := makeAdd whole
    if rest.isEmpty then ipart
    else
      let spart := makeAdd rest
      match (if spart.isConstant then integralPoint? up spart else none) with
      | some k => plus ipart k
      | none =>
        match spart with
        | fn1 .floor _ | fn1 .ceiling _ => plus ipart spart
        | _ => plus ipart (fn1 f spart)

def floorOf (a : Expr) : Expr := makeRound false a

def ceilingOf (a : Expr) : Expr := makeRound true a

/-- The remainder with the sign of the divisor; none by an exact zero. -/
def makeMod? (p q : Expr) : Option Expr :=
  let fq := q.facts
  if fq.zero then none
  else
    let unbounded (e : Expr) : Bool := match e with
      | undefined | pole | infinity _ => true
      | _ => false
    if unbounded p || unbounded q then some undefined
    else if p == 0 || p == q || p == opposite q || (p.facts.integer && q == 1) then some 0
    else
      match p, q with
      | num a, num b => some (num (a.mod b))
      | p, q =>
        let r := divide p q
        let constant? := if r.isConstant then r.comparable? else none
        match constant? with
        | some x =>
          if r.facts.integer then some 0
          else
            let d : Int := match r with
              | num n => if n.isNegative then n.ceil else n.floor
              | _ => Num.ratFloor (Binary64.toRat (if x < 0 then x.ceil else x.floor))
            let v := minus p (times (ofInt d) q)
            if (times v q).facts.negative then some (plus v q) else some v
        | none =>
          match p, q with
          | fn2 .mod _ q', q => if q == q' then some p else some (fn2 .mod p q)
          | add (num (.exact c) :: rest), num (.exact m) =>
            let c' := Num.mod (.exact c) (.exact m)
            some (fn2 .mod (sumOf (if c'.isZero then rest else num c' :: rest)) q)
          | p, q => some (fn2 .mod p q)

/-! ## Factorial -/

def factorialNat : Nat → Nat
  | 0 => 1
  | n + 1 => (n + 1) * factorialNat n

/-- Coefficients of the series for the gamma function. -/
def gammaSeries : List Float :=
  [676.5203681218851, -1259.1392167224028, 771.32342877765313, -176.61502916214059,
   12.507343278686905, -0.13857109526572012, 9.9843695780195716e-6, 1.5056327351493116e-7]

/-- The gamma function right of one half. -/
def gammaRight (x : Float) : Float :=
  let x := x - 1
  let (sum, _) := gammaSeries.foldl (fun (s, i) c => (s + c / (x + i), i + 1))
    (0.99999999999980993, (1.0 : Float))
  let t := x + 7.5
  2.5066282746310002 * t.pow (x + 0.5) * (-t).exp * sum

/-- The gamma function. -/
def gamma (x : Float) : Float :=
  if x < 0.5 then
    3.141592653589793 / ((3.141592653589793 * x).sin * gammaRight (1 - x))
  else gammaRight x

def makeFactorial (a : Expr) : Expr :=
  match a with
  | undefined => undefined
  | num n =>
    match n.toInt? with
    | some k => if k < 0 then pole else if k ≤ 5000 then ofInt (factorialNat k.toNat) else fn1 .factorial a
    | none => (atRounded? (fun x => gamma (x + 1)) n).getD (fn1 .factorial a)
  | infinity false => infinity false
  | a => fn1 .factorial a

/-! ## Relations -/

/-- How two expressions compare, if that is known. -/
def ordering? (a b : Expr) : Option Ordering :=
  match a, b with
  | num x, num y =>
    some (if x.value < y.value then .lt else if y.value < x.value then .gt else .eq)
  | a, b =>
    let constants := a.isConstant && b.isConstant
    if constants || (a.facts.real && b.facts.real) then
      let f := (minus a b).facts
      if f.zero then some .eq
      else if f.positive then some .gt
      else if f.negative then some .lt
      else
        match (if constants then a.comparable? else none), b.comparable? with
        | some x, some y => if x.isInf || y.isInf then (if x < y then some .lt else if y < x then some .gt else some .eq) else none
        | _, _ => none
    else none

/-- What is known of a relation when only one side of it is excluded. -/
def weakly? (r : Relation) (a b : Expr) : Option Bool :=
  let f := (minus a b).facts
  if r == .notEqual then (if f.nonzero then some true else none)
  else if a.facts.real && b.facts.real then
    match r with
    | .greaterEq => if f.nonneg then some true else none
    | .lessEq => if f.nonpos then some true else none
    | .less => if f.nonneg then some false else none
    | .greater => if f.nonpos then some false else none
    | .notEqual => none
  else none

/-- A comparison; none between things that have no order. -/
def makeRel? (r : Relation) (a b : Expr) : Option Expr :=
  if a.isLogical || b.isLogical then none
  else if r != .notEqual && (a == undefined || b == undefined || a.facts.nonreal || b.facts.nonreal)
  then none
  else
    match ordering? a b with
    | some o => some (truth (r.holds o))
    | none =>
      match weakly? r a b with
      | some v => some (truth v)
      | none => some (rel r a b)

/-- A relation solved for its variable part: numbers move to the right,
and the left side has no minus sign. -/
def solvedRel (e : Expr) : Expr :=
  match e with
  | rel r a b =>
    let (r, a, b) := if a.isConstant && !b.isConstant then (r.flip, b, a) else (r, a, b)
    let (r, a, b) := if a.isNegated then (r.flip, opposite a, opposite b) else (r, a, b)
    let (c, rest) : Rat × Expr := match a with
      | add (num (.exact c) :: ts) => (c, sumOf ts)
      | a => (0, a)
    let (m, body) : Rat × Expr := match rest with
      | mul (num (.exact m) :: fs) => (m, productOf fs)
      | e => (1, e)
    let right := divide (minus b (ofRat c)) (ofRat m)
    let r := if m < 0 then r.flip else r
    (makeRel? r body right).getD e
  | e => e

/-! ## Truth -/

/-- The relation that is true exactly when this one is false. -/
def negatedRel? : Expr → Option Expr
  | rel r a b => r.negate?.map fun s => rel s a b
  | _ => none

def makeNot (e : Expr) : Expr :=
  match e with
  | truth b => truth !b
  | node .negation [a] => a
  | e => (negatedRel? e).getD (node .negation [e])

/-- The parts of a conjunction or disjunction, each once. -/
def collectParts (h : Head) (es : List Expr) : List Expr :=
  (es.flatMap fun e => match e with
    | node k as => if k == h then as else [e]
    | e => [e]).foldl (fun acc e => if acc.contains e then acc else acc ++ [e]) []

/-- A conjunction or disjunction; `unit` is what does not count in it. -/
def makeJunction (h : Head) (unit : Bool) (es : List Expr) : Expr :=
  let parts := (collectParts h es).filter (· != truth unit)
  if parts.contains (truth !unit) then truth !unit
  else if parts.any fun p => ((negatedRel? p).map parts.contains).getD false then truth !unit
  else match sort parts with
    | [] => truth unit
    | [p] => p
    | ps => node h ps

def makeAnd (es : List Expr) : Expr := makeJunction .conj true es

def makeOr (es : List Expr) : Expr := makeJunction .disj false es

/-! ## Selection -/

/-- A condition with its relations solved. -/
def solvedCondition (e : Expr) : Expr :=
  match e with
  | node .conj as => makeAnd (as.map solvedRel)
  | node .disj as => makeOr (as.map solvedRel)
  | e => solvedRel e

/-- Values with their conditions. -/
def branches : List Expr → List (Expr × Expr)
  | v :: c :: rest => (v, c) :: branches rest
  | _ => []

/-- Cases up to the first condition that always holds, without those
that never do. -/
def cutCases : List (Expr × Expr) → List (Expr × Expr)
  | [] => []
  | (v, c) :: rest =>
    if c == truth false then cutCases rest
    else if c == truth true then [(v, c)]
    else (v, c) :: cutCases rest

/-- The value of a nested selection where the condition around it
holds. -/
def insideCase (seen : List Expr) (cond : Expr) (v : Expr) : Expr :=
  match v with
  | node .select args =>
    let live := (branches args).filter fun p => !seen.contains p.2
    match live.span fun p => p.2 != cond with
    | (before, (e, c) :: _) =>
      if c == truth true then v
      else if before.isEmpty then e
      else node .select ((before ++ [(e, c)]).flatMap fun p => [p.1, p.2])
    | _ => v
  | v => v

/-- Drops cases that cannot occur and joins neighbours with one value.
`done` holds the cases so far, the last one first. -/
def joinCases (done : List (Expr × Expr)) (seen : List Expr) :
    List (Expr × Expr) → List (Expr × Expr)
  | [] => done.reverse
  | (v, c) :: rest =>
    let c := solvedCondition c
    let v := insideCase seen c v
    let repeated := seen.contains c || (match c with
      | node .conj as => as.any seen.contains
      | _ => false)
    if repeated then joinCases done seen rest
    else
      let c := if ((negatedRel? c).map fun n => seen.contains (solvedRel n)).getD false
        then truth true else c
      let seen := c :: seen
      match done with
      | (v', c') :: before =>
        if v' == v then joinCases ((v, makeOr [c, c']) :: before) seen rest
        else if c' == c then joinCases done seen rest
        else joinCases ((v, c) :: done) seen rest
      | [] => joinCases [(v, c)] seen rest

/-- The value of the first case whose condition holds. -/
def makeSelect (cases : List (Expr × Expr)) : Expr :=
  match cutCases cases with
  | [(v, truth true)] => v
  | cs =>
    match cutCases (joinCases [] [] cs) with
    | [(v, truth true)] => v
    | cs => node .select (cs.flatMap fun p => [p.1, p.2])

/-! ## Maximum and minimum -/

/-- Whether `a` makes `b` superfluous in a maximum (or minimum). -/
def dominates (isMax : Bool) (a b : Expr) : Bool :=
  let side := if isMax then Ordering.gt else .lt
  a == b ||
    (match ordering? a b with
      | some o => o == side || o == .eq
      | none =>
        let d := minus a b
        match d with
        | num n => if isMax then !n.isNegative else !n.isPositive
        | d =>
          if d.isConstant then (d.comparable?.map fun x => decide (if isMax then x ≥ 0 else x ≤ 0)).getD false
          else if a.facts.real && b.facts.real then
            let f := d.facts
            if isMax then f.nonneg else f.nonpos
          else false)

/-- Keeps the operands that no other makes superfluous. -/
def keepDominant (isMax : Bool) : List Expr → List Expr → List Expr
  | kept, [] => kept
  | kept, e :: rest =>
    if kept.any fun k => dominates isMax k e then keepDominant isMax kept rest
    else keepDominant isMax (kept.filter (fun k => !dominates isMax e k) ++ [e]) rest

/-- The number of a nested extremum of the other kind decides whether it
can matter beside a number. -/
def outdone (isMax : Bool) (bound : Option Expr) (e : Expr) : Bool :=
  let inner : Fn := if isMax then .min else .max
  match bound, e with
  | some b, node (.fn f) (c :: _) =>
    f == inner && c.isConstant
      && (match ordering? c b with
        | some o => o == (if isMax then .lt else .gt)
        | none => false)
  | _, _ => false

/-- An operand that stands beside an extremum of the other kind which
contains it makes that one superfluous. -/
def absorbed (isMax : Bool) (all : List Expr) (e : Expr) : Bool :=
  let inner : Fn := if isMax then .min else .max
  match e with
  | node (.fn f) as => f == inner && all.any fun a => as.contains a
  | _ => false

/-- The maximum or minimum; none of things that cannot be compared. -/
def makeExtremum? (isMax : Bool) (args : List Expr) : Option Expr :=
  let f : Fn := if isMax then .max else .min
  let incomparable (e : Expr) : Bool :=
    e.isLogical || e.facts.nonreal || e == undefined || e == pole
      || (e.isConstant && (e.comparable?).isNone)
  if args.any incomparable then none
  else
    let flat := args.flatMap fun e => match e with
      | node (.fn g) as => if g == f then as else [e]
      | e => [e]
    if flat.contains (infinity !isMax) then some (infinity !isMax)
    else
      let flat := flat.filter (· != infinity isMax)
      let kept := keepDominant isMax [] flat
      let bound := kept.find? isConstant
      let kept := kept.filter fun e => !outdone isMax bound e && !absorbed isMax kept e
      match sort kept with
      | [] => some (infinity isMax)
      | [e] => some e
      | es => some (node (.fn f) es)

end Expr
end FieldScript
