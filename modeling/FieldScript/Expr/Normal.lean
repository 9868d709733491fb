import FieldScript.Expr.Radical

/-!
# Normal forms

Sums, products, powers and exponentials are built by functions that
simplify as they go:

* `makeAdd` collects like terms; a term whose coefficients cancel is
  gone, whatever it stood for;
* `makeMul` collects powers of one base, and spreads a numeric
  coefficient over a sum;
* `makePow` takes powers of numbers, of products and of powers;
* `makeExp` undoes logarithms.

What an exact zero divides is a pole, and pole minus pole or zero times
pole is undefined. The functions call each other on smaller problems;
fuel bounds how often, and without fuel the operation stays as written.
-/

namespace FieldScript
namespace Expr

/-! ## Collecting -/

/-- Terms by what their coefficient multiplies. -/
def collectTerm (c : Num) (e : Expr) : List (Num × Expr) → List (Num × Expr)
  | [] => [(c, e)]
  | (d, f) :: rest => if e == f then (d.add c, f) :: rest else (d, f) :: collectTerm c e rest

/-- Powers by base and by what the coefficient of the exponent
multiplies. -/
def collectPower (b : Expr) (c : Num) (e : Expr) :
    List (Expr × Num × Expr) → List (Expr × Num × Expr)
  | [] => [(b, c, e)]
  | (b', d, f) :: rest =>
    if b == b' && e == f then (b', d.add c, f) :: rest
    else (b', d, f) :: collectPower b c e rest

/-- Bases of powers with one exponent. -/
def collectBase (b : Num) (e : Expr) : List (Num × Expr) → List (Num × Expr)
  | [] => [(b, e)]
  | (d, f) :: rest => if e == f then (d.mul b, f) :: rest else (d, f) :: collectBase b e rest

/-- What a sum has that is not finite. -/
inductive Unbounded where
  | none
  | infinity (negative : Bool)
  | pole
  | undefined
  deriving DecidableEq

namespace Unbounded

/-- Adding a second unbounded term. -/
def addInfinity (negative : Bool) : Unbounded → Unbounded
  | .none => .infinity negative
  | .infinity n => if n == negative then .infinity n else .undefined
  | _ => .undefined

def addPole : Unbounded → Unbounded
  | .none => .pole
  | _ => .undefined

/-- Multiplying by a second unbounded factor. -/
def mulInfinity (negative : Bool) : Unbounded → Unbounded
  | .none => .infinity negative
  | .infinity n => .infinity (n != negative)
  | u => u

def mulPole : Unbounded → Unbounded
  | .undefined => .undefined
  | _ => .pole

end Unbounded

/-- A sum sorted into its constant, its unbounded part and its other
terms. -/
structure TermSplit where
  constant : Num
  unbounded : Unbounded
  others : List (Num × Expr)

def splitTerm (s : TermSplit) (e : Expr) : TermSplit :=
  match e with
  | num n => { s with constant := s.constant.add n }
  | infinity neg => { s with unbounded := s.unbounded.addInfinity neg }
  | pole => { s with unbounded := s.unbounded.addPole }
  | undefined => { s with unbounded := .undefined }
  | e => let (c, f) := e.splitCoefficient; { s with others := collectTerm c f s.others }

/-- The sum of these terms, which are normal themselves. -/
def makeAdd (es : List Expr) : Expr :=
  let s := (es.flatMap terms).foldl splitTerm ⟨0, .none, []⟩
  let others := (s.others.filter fun t => !t.1.isZero).map fun t => scale t.1 t.2
  match s.unbounded with
  | .undefined => undefined
  | .pole =>
    let kept := others.filter fun e => let f := e.facts; !(f.finite && (f.real || f.nonreal))
    sumOf (sort (pole :: kept))
  | .infinity neg =>
    let kept := others.filter fun e =>
      let f := e.facts
      !((f.real && f.finite) || (if neg then f.nonpos else f.nonneg))
    sumOf (sort (infinity neg :: kept))
  | .none =>
    let sorted := sort others
    sumOf (if s.constant.isZero then sorted else num s.constant :: sorted)

/-- The factors of a product, sorted by what is done with them. -/
structure FactorSplit where
  coefficient : Num
  unbounded : Unbounded
  radicals : Radicals
  /-- Powers of positive numbers to other exponents. -/
  numeric : List (Expr × Num × Expr)
  powers : List (Expr × Num × Expr)

def splitFactor (s : FactorSplit) (o : Expr) : FactorSplit :=
  let other : FactorSplit :=
    let (b, e) := o.splitPower
    let (c, f) := e.splitCoefficient
    { s with powers := collectPower b c f s.powers }
  match o with
  | num n => { s with coefficient := s.coefficient.mul n }
  | infinity neg => { s with unbounded := s.unbounded.mulInfinity neg }
  | pole => { s with unbounded := s.unbounded.mulPole }
  | undefined => { s with unbounded := .undefined }
  | imaginary => { s with radicals := s.radicals.mulImaginary }
  | pow (num (.exact b)) (num (.exact e)) => { s with radicals := s.radicals.mulPower b e }
  | pow (num (.exact b)) e =>
    if b > 0 then
      let (b, e) := if b.num == 1 && b.den != 1 then o.splitPower else (num (.exact b), e)
      let (c, f) := e.splitCoefficient
      { s with numeric := collectPower b c f s.numeric }
    else other
  | _ => other

def splitFactors (fs : List Expr) : FactorSplit :=
  fs.foldl splitFactor ⟨1, .none, .one, [], []⟩

/-- A coefficient in front of normal factors. -/
def finishProduct (coefficient : Num) (unbounded : Unbounded) (parts : List Expr) : Expr :=
  match unbounded with
  | .undefined => undefined
  | .pole =>
    if coefficient.isZero then undefined
    else productOf (sort (pole :: parts.filter fun e =>
      let f := e.facts; !(f.nonzero && (f.real || f.nonreal))))
  | .infinity neg =>
    if coefficient.isZero then undefined
    else
      let signs := parts.map facts
      let flips := (signs.filter Facts.negative).length + if coefficient.isNegative then 1 else 0
      let kept := parts.filter fun e => let f := e.facts; !(f.positive || f.negative)
      productOf (sort (infinity (neg != (flips % 2 == 1)) :: kept))
  | .none =>
    if coefficient.isZero then num coefficient
    else
      let sorted := sort parts
      match coefficient.isOne, sorted with
      | true, ps => productOf ps
      | false, [] => num coefficient
      | false, [add ts] =>
        makeAdd (ts.map fun t => match t with
          | num n => num (coefficient.mul n)
          | t => scale coefficient t)
      | false, ps => mul (num coefficient :: ps)

/-- The real and imaginary part of a number in the plane. -/
def planeNumber (re im : Num) : Expr :=
  makeAdd [num re, finishProduct im .none [imaginary]]

/-- Whether an exponent is so large that the power is left as it is. -/
def hugePower (r : Rat) (k : Int) : Bool :=
  k.natAbs * (max r.num.natAbs r.den).log2 > twoPow 24

/-- The largest size among coefficients of which one is rounded. -/
def roundedScale? (cs : List Num) : Option Num :=
  if cs.any fun c => !c.isExact then
    let big := cs.foldl (fun m c => if c.abs.value ≥ m.value then c.abs else m) (cs.headD 0).abs
    if big.value > 0 && big.value != 1 then some big else none
  else none

/-- Values and conditions in turn, with the values changed. -/
def mapValues (f : Expr → Expr) : List Expr → List Expr
  | v :: c :: rest => f v :: c :: mapValues f rest
  | rest => rest

/-! ## Products, powers and exponentials -/

mutual

/-- The product of these factors. -/
def makeMul (fuel : Nat) (es : List Expr) : Expr :=
  match fuel with
  | 0 => mul es
  | fuel + 1 =>
    let es := es.filter fun
      | num n => !n.isOne
      | _ => true
    let s := splitFactors (es.flatMap factors)
    let power (p : Expr × Num × Expr) : Expr :=
      let (b, c, f) := p
      if c.isZero then 1
      else
        let e := match f with
          | num n => num (c.mul n)
          | f => makeMul fuel [num c, f]
        makePow fuel b e
    let powers := s.powers.map power
    let numeric := (s.numeric.foldl (fun acc p => match p.1 with
      | num b => collectBase b (makeMul fuel [num p.2.1, p.2.2]) acc
      | _ => acc) []).map fun p => makePow fuel (num p.1) p.2
    let parts := powers ++ numeric ++ s.radicals.factors
    let coefficient := s.coefficient.mul (.exact s.radicals.coefficient)
    -- A power may turn out to be a number, a product or a power of another base.
    let settled := (splitFactors parts)
    let again := parts.any (fun
        | num _ | mul _ | infinity _ | pole | undefined => true
        | _ => false)
      || settled.powers.length + settled.numeric.length + s.radicals.factors.length
          != parts.length
    if again then
      match s.unbounded with
      | .none => makeMul fuel (num coefficient :: parts.flatMap factors)
      | .undefined => undefined
      | .pole => makeMul fuel (pole :: num coefficient :: parts.flatMap factors)
      | .infinity neg => makeMul fuel (infinity neg :: num coefficient :: parts.flatMap factors)
    else finishProduct coefficient s.unbounded parts

/-- The power of a base to an exponent. -/
def makePow (fuel : Nat) (b e : Expr) : Expr :=
  match fuel with
  | 0 => pow b e
  | fuel + 1 =>
    let raw := pow b e
    match b, e with
    | _, num (.exact 0) => 1
    | b, num (.exact 1) => b
    | undefined, _ => undefined
    | _, undefined => undefined
    | _, pole => undefined
    | num (.exact 1), infinity _ => undefined
    | num (.exact 1), _ => 1
    | euler, e => makeExp fuel e
    | pole, num n => if n.isNegative then 0 else pole
    | infinity neg, num n =>
      if n.isNegative then 0
      else if !neg then infinity false
      else if n.isEven then infinity false
      else if n.isOdd then infinity true
      else raw
    | num b, num e =>
      match b, e with
      | .exact r, .exact k =>
        if k.den == 1 then
          if r == 0 && k < 0 then pole
          else if hugePower r k.num then raw
          else num (.exact (Radicals.ratPow r k.num))
        else if r == 0 then (if k < 0 then pole else 0)
        else
          let rad := Radicals.one.mulPower r k
          finishProduct (.exact rad.coefficient) .none rad.factors
      | b, e =>
        if e.isZero then 1
        else if b.isZero then (if e.isNegative then pole else num b)
        else
          match b, e.toInt? with
          | .rounded .., some k => num (b.powInt k)
          | b, _ =>
            let bits := (b.commonBits? e).getD standardBits
            match e with
            | .exact k =>
              if b.isNegative && k.num == 1 && k.den % 2 == 1 then
                makeMul fuel [pow (ofInt (-1)) (num e), makePow fuel (num b.neg) (num e)]
              else match roundedPower? b e bits with
                | some (re, im) => planeNumber re im
                | none => raw
            | .rounded .. => match roundedPower? b e bits with
              | some (re, im) => planeNumber re im
              | none => raw
    | num b, e =>
      if b.isZero then
        let f := e.facts
        if f.positive then num b
        else if f.negative then pole
        else if f.nonreal then undefined
        else
          let (c, t) := e.splitCoefficient
          if c.isNegative then pow pole t
          else if c.isOne then raw
          else pow (num b) t
      else raw
    | imaginary, num (.exact k) =>
      let rad : Radicals := ⟨[], k / 2⟩
      finishProduct (.exact rad.coefficient) .none rad.factors
    | mul fs, num n =>
      match n.toInt? with
      | some _ => makeMul fuel (fs.map fun f => makePow fuel f (num n))
      | none =>
        -- Nonnegative factors leave the power; of a negative number the sign stays.
        let apart := fs.filter fun f => f.facts.nonneg
        let inside := fs.filter fun f => !f.facts.nonneg
        let (apart, inside) := match inside with
          | num c :: more =>
            if c.isNegative && !more.isEmpty && !(c.neg).isOne then
              (num c.neg :: apart, ofInt (-1) :: more)
            else (apart, inside)
          | _ => (apart, inside)
        if apart.isEmpty then raw
        else
          let rest := match inside with
            | [] => []
            | [f] => [makePow fuel f (num n)]
            | fs => [pow (mul fs) (num n)]
          makeMul fuel (apart.map (fun f => makePow fuel f (num n)) ++ rest)
    | pow b' e', num n =>
      let small : Bool := match e' with
        | num m => m.abs.value < 1
        | _ => false
      if (n.toInt?).isSome || small || (b'.facts.nonneg && e'.facts.real) then
        makePow fuel b' (makeMul fuel [e', num n])
      else
        let evenOfReal : Bool := match e' with
          | num m => m.isEven && b'.facts.real && !(m.isNegative)
          | _ => false
        if evenOfReal then makePow fuel (node (.fn .abs) [b']) (makeMul fuel [e', num n])
        else raw
    | pow b' (num m), e => if m.abs.value < 1 then makePow fuel b' (makeMul fuel [num m, e]) else raw
    | fn1 .exp a, num n =>
      if (n.toInt?).isSome || a.facts.real then makeExp fuel (makeMul fuel [a, num n]) else raw
    | node .select args, e => node .select (mapValues (fun v => makePow fuel v e) args)
    | add ts, num n =>
      if n.abs.value == 1 then raw
      else
        let pairs := ts.map splitCoefficient
        match roundedScale? (pairs.map (·.1)) with
        | some big =>
          let reduced := makeAdd (pairs.map fun p =>
            let c := if p.1.abs.value == big.value then
                (if p.1.isNegative then Num.ofInt (-1) else 1)
              else p.1.div big
            makeMul fuel [num c, p.2])
          makeMul fuel [makePow fuel (num big) (num n), pow reduced (num n)]
        | none => raw
    | _, _ => raw

/-- The exponential. -/
def makeExp (fuel : Nat) (a : Expr) : Expr :=
  match fuel with
  | 0 => fn1 .exp a
  | fuel + 1 =>
    let raw := fn1 .exp a
    match a with
    | num n =>
      if n.isZero then 1
      else if n.isOne then euler
      else match n with
        | .exact _ => raw
        | .rounded _ bits =>
          let y := n.toFloat.exp
          if y.isFinite && y != 0 then num (.ofFloat y bits) else raw
    | undefined => undefined
    | infinity neg => if neg then 0 else infinity false
    | pole => undefined
    | fn1 .log b => b
    | mul fs =>
      let turns? : Option Rat := match fs with
        | [pi, imaginary] => some 1
        | [num (.exact r), pi, imaginary] => some r
        | _ => none
      match turns? with
      | some r =>
        if (2 * r).den == 1 then
          let rad : Radicals := ⟨[], r⟩
          finishProduct (.exact rad.coefficient) .none rad.factors
        else raw
      | none =>
        -- One logarithm among constants: the exponential is a power.
        let logs := fs.filterMap fun
          | fn1 .log b => some b
          | _ => none
        let others := fs.filter fun
          | fn1 .log _ => false
          | _ => true
        match logs with
        | [b] =>
          if others.all fun o => (o.comparable?).isSome then makePow fuel b (makeMul fuel others)
          else raw
        | _ => raw
    | add ts =>
      let images := ts.map fun t => match t with
        | num (.exact 1) => (false, t)
        | t => match makeExp fuel t with
          | fn1 .exp t' => (false, t')
          | v => (true, v)
      let out := (images.filter (·.1)).map (·.2)
      if out.isEmpty then raw
      else
        let rest := makeAdd ((images.filter (!·.1)).map (·.2))
        let tail := match rest with
          | num (.exact 0) => []
          | num (.exact 1) => [euler]
          | r => [fn1 .exp r]
        makeMul fuel (out ++ tail)
    | _ => raw

end

/-! ## Operations -/

/-- How far operations follow each other before they are left as they
are. -/
def simplificationFuel : Nat := 200

def plus (a b : Expr) : Expr := makeAdd [a, b]

def times (a b : Expr) : Expr := makeMul simplificationFuel [a, b]

def raise (a b : Expr) : Expr := makePow simplificationFuel a b

def opposite (a : Expr) : Expr := times (ofInt (-1)) a

def minus (a b : Expr) : Expr := plus a (opposite b)

/-- The quotient; of numbers it is taken at once. -/
def divide (a b : Expr) : Expr :=
  match a, b with
  | num x, num y =>
    if y.isZero then (if x.isZero then undefined else pole) else num (x.div y)
  | _, _ => times a (raise b (ofInt (-1)))

def squareRoot (a : Expr) : Expr := raise a half

def exponential (a : Expr) : Expr := makeExp simplificationFuel a

end Expr
end FieldScript
