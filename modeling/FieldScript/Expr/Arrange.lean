import FieldScript.Expr.Normal

/-!
# The order of evaluation

Addition of binary64 numbers is not associative, so the order in which a
sum is added up belongs to its value. Terms come by descending powers of
what is not constant, factors and the bases of powers by a structural
key: numbers, constants and variables first, then products, sums, powers
and functions. `Expr.arranged` puts every sum and product of an
expression into this order.
-/

namespace FieldScript

/-- What an operand is sorted by: its class, its operands, its exponent
and its coefficient. -/
inductive SortKey where
  | mk (rank place : Nat) (name atom : String) (args : List SortKey) (exponent : Option SortKey)
      (coefficient : Rat)

namespace SortKey

mutual

def compare : SortKey → SortKey → Ordering
  | mk r p n a as e c, mk r' p' n' a' as' e' c' =>
    (Ord.compare r r').then <| (Ord.compare p p').then <| (Ord.compare n n').then <|
    (Ord.compare as.length as'.length).then <| (Ord.compare a a').then <|
    (compareList as as').then <| (compareOption e e').then <|
    if c < c' then .lt else if c' < c then .gt else .eq

def compareList : List SortKey → List SortKey → Ordering
  | [], [] => .eq
  | [], _ :: _ => .lt
  | _ :: _, [] => .gt
  | a :: as, b :: bs => (compare a b).then (compareList as bs)

def compareOption : Option SortKey → Option SortKey → Ordering
  | none, none => .eq
  | none, some _ => .lt
  | some _, none => .gt
  | some a, some b => compare a b

end

/-- The key of a number. -/
def ofRat (r : Rat) : SortKey := mk 1 0 "Number" "" [] none r

end SortKey

namespace Expr

/-- The class of a function: how far back it comes, and its name. -/
def fnClass : Fn → Nat × String
  | .exp => (10, "exp") | .log => (11, "log") | .sin => (20, "sin") | .cos => (21, "cos")
  | .tan => (22, "tan") | .asin => (10000, "asin") | .acos => (10000, "acos")
  | .atan => (10000, "atan") | .atan2 => (10000, "atan2") | .abs => (10000, "Abs")
  | .sign => (10000, "sign") | .floor => (10000, "floor") | .ceiling => (10000, "ceiling")
  | .mod => (10000, "Mod") | .factorial => (10000, "factorial") | .max => (0, "Max")
  | .min => (0, "Min")

def relationClass : Relation → String
  | .less => "StrictLessThan" | .lessEq => "LessThan" | .greater => "StrictGreaterThan"
  | .greaterEq => "GreaterThan" | .notEqual => "Unequality"

def headClass : Head → Nat × Nat × String
  | .mul => (3, 0, "Mul")
  | .add => (3, 1, "Add")
  | .pow => (3, 2, "Pow")
  | .select => (4, 0, "Piecewise")
  | .fn .max => (5, 0, "Max")
  | .fn .min => (5, 0, "Min")
  | .fn f => let (i, n) := fnClass f; (4, i, n)
  | .rel r => (5, 0, relationClass r)
  | .conj => (5, 0, "And")
  | .disj => (5, 0, "Or")
  | .negation => (5, 0, "Not")
  | .closure _ => (5, 0, "Lambda")
  | .span => (5, 0, "AccumBounds")
  | .call n => (4, 0, n)

/-- The key of an expression whose sums and products are arranged. The
fuel bounds the nesting. -/
def sortKey : Nat → Expr → SortKey
  | 0, _ => .ofRat 0
  | fuel + 1, e =>
    let (c, rest) := e.splitCoefficient
    match rest with
    | num _ => .ofRat c.value
    | rest =>
      let (base, exponent) := match rest with
        | pow b x => (b, sortKey fuel x)
        | b => (b, SortKey.ofRat 1)
      let atom (name text : String) : SortKey := .mk 2 0 name text [.ofRat 0] (some exponent) c.value
      match base with
      | num n => .mk 1 0 "Number" (toString n.value.num) [.ofRat 0] (some exponent) c.value
      | pi => atom "Pi" "pi"
      | euler => atom "Exp1" "E"
      | imaginary => atom "ImaginaryUnit" "I"
      | infinity _ => atom "Infinity" "oo"
      | pole => atom "ComplexInfinity" "zoo"
      | undefined => atom "NaN" "nan"
      | var n => atom "Symbol" n
      | truth b => atom "Boolean" (toString b)
      | node h as =>
        let (rank, place, name) := headClass h
        .mk rank place name "" (as.map (sortKey fuel)) (some exponent) c.value

def keyOf (e : Expr) : SortKey := sortKey (2 * e.depth + 2) e

/-- Sorts by key; equal keys keep their order. -/
def sortByKey (es : List Expr) : List Expr :=
  ((es.map fun e => (keyOf e, e)).mergeSort fun a b => a.1.compare b.1 != .gt).map (·.2)

/-! ## Terms of a sum -/

/-- A power as a base and an integral exponent: the denominator of a
rational exponent goes to the base. -/
def integralPower (e : Expr) : Expr × Int :=
  let keep (base : Expr) (tail : Expr) : Expr := match base with
    | euler => fn1 .exp tail
    | b => if tail == 1 then b else pow b tail
  let (base, exponent) : Expr × Expr := match e with
    | pow b x => (b, x)
    | fn1 .exp a => (euler, a)
    | e => (e, 1)
  match exponent with
  | num (.exact r) => (if r.den == 1 then keep base 1 else keep base (ofRat (mkRat 1 r.den)), r.num)
  | num _ => (e, 1)
  | x =>
    match x.splitCoefficient with
    | (.exact r, tail) =>
      if r == 1 then (e, 1)
      else (keep base (scale (.exact (mkRat 1 r.den)) tail), r.num)
    | _ => (e, 1)

/-- A term as a complex coefficient and powers of what is not
constant. -/
structure Monomial where
  re : Float
  im : Float
  powers : List (Expr × Int)

def monomial (e : Expr) : Monomial :=
  let (c, rest) := e.splitCoefficient
  let factors := match rest with
    | num _ => []
    | rest => rest.factors
  factors.foldl (fun m f =>
    if f.isConstant then
      let v := Quantity.mulPlane (.complex m.re m.im) (approx f)
      { m with re := v.re, im := v.im }
    else { m with powers := m.powers ++ [integralPower f] }) ⟨c.toFloat, 0, []⟩

/-- The bases of all terms, each once, by key. -/
def generators (ms : List Monomial) : List Expr :=
  let all := ms.flatMap fun m => m.powers.map (·.1)
  sortByKey (all.foldl (fun acc e => if acc.contains e then acc else acc ++ [e]) [])

def exponents (gens : List Expr) (m : Monomial) : List Int :=
  gens.map fun g => ((m.powers.reverse.find? (·.1 == g)).map (·.2)).getD 0

/-- Larger exponents come first; among equal ones real coefficients come
first, and smaller ones before larger ones. -/
def compareTerms (a b : List Int × Monomial × Expr) : Ordering :=
  let float (x y : Float) : Ordering := if x < y then .lt else if y < x then .gt else .eq
  let (xs, m, _) := a
  let (ys, n, _) := b
  (Ord.compare ys xs).then <| (Ord.compare (m.im != 0) (n.im != 0)).then <|
  (float m.im n.im).then <| float m.re n.re

def sortTerms (ts : List Expr) : List Expr :=
  let ms := ts.map monomial
  let gens := generators ms
  let rows := (ms.zip ts).map fun p => (exponents gens p.1, p.1, p.2)
  (rows.mergeSort fun a b => compareTerms a b != .gt).map fun r => r.2.2

mutual

/-- The expression with all sums and products in the order of
evaluation. -/
def arranged : Expr → Expr
  | node h as =>
    let bs := arrangedList as
    match h with
    | .add => node .add (sortTerms bs)
    | .mul => node .mul (sortByKey bs)
    | h => node h bs
  | e => e

def arrangedList : List Expr → List Expr
  | [] => []
  | e :: es => arranged e :: arrangedList es

end

end Expr
end FieldScript
