import FieldScript.Expr.Meaning
import FieldScript.Proofs.ExprValue

/-!
# Values of terms

The value of a term in exact arithmetic, read as it is written: operators
are operations on the values of their operands, names and calls are worth
what an `Interpretation` says, and arguments are evaluated before a call.
The library functions are those of `Builtin.value?`.

Words that decide while a text is read (`and`, `or`, `not`, a choice by
`if`, a chain of comparisons, a test of sameness) are no operations on
values, and texts, groups and indices are no numbers; a term with one of
them has no value.

What a term means as an expression has the value of the term
(`Term.value?_meaning?`), provided that the scope agrees with the
interpretation on the names that occur.
-/

namespace FieldScript

/-- What names and calls are worth. -/
structure Interpretation where
  name? : String → Option Value
  call? : String → List Value → Option Value

/-! ## Operators and library functions -/

noncomputable def UnaryOp.value? : UnaryOp → Value → Option Value
  | .plus, .number x => some (.number x)
  | .minus, .number x => some (.number (-x))
  | .complement, .truth b => some (.truth !b)
  | _, _ => none

noncomputable def BinaryOp.value? : BinaryOp → Value → Value → Option Value
  | .add, .number x, .number y => some (.number (x + y))
  | .sub, .number x, .number y => some (.number (x - y))
  | .mul, .number x, .number y => some (.number (x * y))
  | .div, .number x, .number y => (quotient? x y).map .number
  | .floorDiv, .number x, .number y => (quotient? x y).map fun q => .number ⌊q⌋
  | .mod, .number x, .number y => (remainder? x y).map .number
  | .pow, .number x, .number y => (power? x y).map .number
  | .meet, .truth b, .truth c => some (.truth (b && c))
  | .join, .truth b, .truth c => some (.truth (b || c))
  | _, _, _ => none

noncomputable def CompareOp.value? (op : CompareOp) : Value → Value → Option Value
  | .number x, .number y => (Meaning.relation? op).map fun r => .truth (r.real x y)
  | _, _ => none

/-- The functions of the library on numbers. -/
noncomputable def Builtin.real? (b : Builtin) (xs : List ℝ) : Option ℝ :=
  match b, xs with
  | .sin, [x] => Fn.sin.unary? x
  | .cos, [x] => Fn.cos.unary? x
  | .tan, [x] => Fn.tan.unary? x
  | .asin, [x] => Fn.asin.unary? x
  | .acos, [x] => Fn.acos.unary? x
  | .atan, [x] => Fn.atan.unary? x
  | .atan2, [y, x] => angle? y x
  | .sqrt, [x] => power? x (1 / 2)
  | .log, [x] => Fn.log.unary? x
  | .log, [x, y] => if 0 < x ∧ 0 < y ∧ y ≠ 1 then some (Real.log x / Real.log y) else none
  | .exp, [x] => Fn.exp.unary? x
  | .pow, [x, y] => power? x y
  | .abs, [x] => Fn.abs.unary? x
  | .max, xs => Fn.max.real? xs
  | .min, xs => Fn.min.real? xs
  | .floor, [x] => some ⌊x⌋
  | .ceiling, [x] => some ⌈x⌉
  | .round, [x] => some ⌊x + 1 / 2⌋
  | .step, [edge, x] => some (if edge ≤ x then 1 else 0)
  | .clamp, [x, low, high] => some (Max.max low (Min.min x high))
  | .mix, [x, y, a] => some (x * (1 - a) + y * a)
  | .fract, [x] => some (x - ⌊x⌋)
  | .mod, [x, y] => remainder? x y
  | .sign, [x] => some (Real.sign x)
  | _, _ => none

/-- The functions of the library. A choice takes any condition. -/
noncomputable def Builtin.value? (b : Builtin) (vs : List Value) : Option Value :=
  match b, vs with
  | .select, [c, x, y] => some (if c.holds then x else y)
  | b, vs => do return .number (← b.real? (← vs.mapM Value.number?))

namespace Term

mutual

noncomputable def value? (I : Interpretation) : Term → Option Value
  | number n => some (.number n.shownValue)
  | name n false => I.name? n
  | unary op a => do op.value? (← value? I a)
  | binary op a b => do op.value? (← value? I a) (← value? I b)
  | compare a [op] [b] => do op.value? (← value? I a) (← value? I b)
  | call (name f true) args => do I.call? f (← values? I args)
  | _ => none

noncomputable def values? (I : Interpretation) : List Term → Option (List Value)
  | [] => some []
  | t :: ts => do return (← value? I t) :: (← values? I ts)

end

mutual

/-- The names that occur in a term. -/
def names : Term → List String
  | name n _ => [n]
  | number _ | imaginary _ | text _ => []
  | group ts | braces ts => namesList ts
  | unary _ a => names a
  | binary _ a b | both a b | either a b | index a b => names a ++ names b
  | compare a _ ts | call a ts => names a ++ namesList ts
  | choose c a b => names c ++ (names a ++ names b)

def namesList : List Term → List String
  | [] => []
  | t :: ts => names t ++ namesList ts

end

end Term

/-! ## What is built -/

namespace Algebra.Preserves

variable {A : Algebra} {σ : Valuation} {a b e : Expr} {x y : ℝ}

theorem add (hA : A.Preserves) (he : A.build? .add [a, b] = some e)
    (ha : a.value? σ = some (.number x)) (hb : b.value? σ = some (.number y)) :
    e.value? σ = some (.number (x + y)) := by
  refine hA.build he (Expr.values?_two_iff.mpr ⟨a, b, rfl, ha, hb⟩) ?_
  show some (Value.number (List.sum [x, y])) = _
  simp

theorem mul (hA : A.Preserves) (he : A.build? .mul [a, b] = some e)
    (ha : a.value? σ = some (.number x)) (hb : b.value? σ = some (.number y)) :
    e.value? σ = some (.number (x * y)) := by
  refine hA.build he (Expr.values?_two_iff.mpr ⟨a, b, rfl, ha, hb⟩) ?_
  show some (Value.number (List.prod [x, y])) = _
  simp

theorem pow (hA : A.Preserves) (he : A.build? .pow [a, b] = some e)
    (ha : a.value? σ = some (.number x)) (hb : b.value? σ = some (.number y)) {z : ℝ}
    (hz : power? x y = some z) : e.value? σ = some (.number z) := by
  refine hA.build he (Expr.values?_two_iff.mpr ⟨a, b, rfl, ha, hb⟩) ?_
  show (power? x y).map Value.number = _
  rw [hz]
  rfl

theorem fn (hA : A.Preserves) {f : Fn} {as : List Expr} {xs : List ℝ}
    (he : A.build? (.fn f) as = some e) (has : Expr.values? σ as = some (xs.map .number))
    (hy : f.real? xs = some y) : e.value? σ = some (.number y) :=
  hA.build he has (Head.value?_fn hy)

/-- A library function of one number. -/
theorem fn_one (hA : A.Preserves) {f : Fn} (he : A.build? (.fn f) [a] = some e)
    (ha : a.value? σ = some (.number x)) (hy : f.real? [x] = some y) :
    e.value? σ = some (.number y) :=
  @fn A σ e y hA f [a] [x] he (Expr.values?_one_iff.mpr ⟨a, rfl, ha⟩) hy

/-- A library function of two numbers. -/
theorem fn_two (hA : A.Preserves) {f : Fn} (he : A.build? (.fn f) [a, b] = some e)
    (ha : a.value? σ = some (.number x)) (hb : b.value? σ = some (.number y)) {z : ℝ}
    (hz : f.real? [x, y] = some z) : e.value? σ = some (.number z) :=
  @fn A σ e z hA f [a, b] [x, y] he (Expr.values?_two_iff.mpr ⟨a, b, rfl, ha, hb⟩) hz

theorem rel (hA : A.Preserves) {r : Relation} {v w : Value}
    (he : A.build? (.rel r) [a, b] = some e) (ha : a.value? σ = some v)
    (hb : b.value? σ = some w) : e.value? σ = some (.truth (r.real v.scalar w.scalar)) :=
  hA.build he (Expr.values?_two_iff.mpr ⟨a, b, rfl, ha, hb⟩) rfl

/-- A choice between two values. -/
theorem select (hA : A.Preserves) {c : Expr} {u v w : Value}
    (he : A.build? .select [a, c, b, .truth true] = some e) (ha : a.value? σ = some v)
    (hc : c.value? σ = some u) (hb : b.value? σ = some w) :
    e.value? σ = some (if u.holds then v else w) := by
  have hvalues : Expr.values? σ [a, c, b, .truth true] = some [v, u, w, .truth true] :=
    Expr.values?_cons.mpr
      ⟨v, _, ha, Expr.values?_three_iff.mpr ⟨c, b, .truth true, rfl, hc, hb, rfl⟩, rfl⟩
  refine hA.build he hvalues ?_
  show (if u.holds then some v else if Value.holds (.truth true) then some w else none) = _
  cases u.holds <;> rfl

end Algebra.Preserves

/-! ## Operators -/

namespace Meaning

variable {A : Algebra} {σ : Valuation} {a b e : Expr} {x y : ℝ}

/-- What is worth a number can stand in arithmetic. -/
theorem isLogical_eq_false (ha : a.value? σ = some (.number x)) : a.isLogical = false := by
  cases a with
  | truth b => cases ha
  | node h as =>
      obtain ⟨vs, -, -, hh⟩ := Expr.value?_node.mp ha
      cases h with
      | rel r => rcases vs with - | ⟨v, - | ⟨w, - | ⟨u, vs⟩⟩⟩ <;> cases hh
      | conj | disj => cases hh
      | negation => rcases vs with - | ⟨v, - | ⟨w, vs⟩⟩ <;> cases hh
      | _ => rfl
  | _ => rfl

theorem operand?_expr (ha : a.value? σ = some (.number x)) : operand? (expr a) = some a := by
  rw [operand?, isLogical_eq_false ha]
  rfl

theorem opposite?_value (hA : A.Preserves) (he : opposite? A a = some e)
    (ha : a.value? σ = some (.number x)) : e.value? σ = some (.number (-x)) := by
  have hone : (Expr.ofInt (-1)).value? σ = some (.number (-1)) := by
    show some (Value.number (((-1 : ℤ) : ℚ) : ℝ)) = _
    norm_num
  rw [hA.mul he hone ha, neg_one_mul]

theorem difference?_value (hA : A.Preserves) (he : difference? A a b = some e)
    (ha : a.value? σ = some (.number x)) (hb : b.value? σ = some (.number y)) :
    e.value? σ = some (.number (x - y)) := by
  obtain ⟨c, hc, he⟩ := Option.bind_eq_some_iff.mp he
  rw [hA.add he ha (opposite?_value hA hc hb), sub_eq_add_neg]

theorem quotient?_eq_some {q : ℝ} (h : quotient? x y = some q) : y ≠ 0 ∧ q = x / y := by
  rw [quotient?] at h
  split at h
  · cases h
  · exact ⟨‹_›, (Option.some.inj h).symm⟩

/-- The quotient of integers is rounded like that of the numbers. -/
theorem fdiv_eq_floor (m n : ℤ) : Int.fdiv m n = ⌊(m : ℝ) / n⌋ := by
  obtain ⟨k, rfl | rfl⟩ := Int.eq_nat_or_neg n
  · rw [Int.fdiv_eq_ediv_of_nonneg _ (Int.natCast_nonneg k), Int.cast_natCast,
      Int.floor_div_natCast, Int.floor_intCast]
  · have hturned : ((m : ℝ) / ((-k : ℤ) : ℝ)) = ((-m : ℤ) : ℝ) / (k : ℝ) := by
      push_cast
      rw [div_neg, neg_div]
    rw [hturned, ← Int.neg_fdiv_neg, neg_neg,
      Int.fdiv_eq_ediv_of_nonneg _ (Int.natCast_nonneg k), Int.floor_div_natCast,
      Int.floor_intCast]

theorem shownValue_of_toInt? {n : Num} {m : ℤ} (h : n.toInt? = some m) : n.shownValue = m := by
  cases n with
  | rounded r bits => cases h
  | exact r =>
      rw [Num.toInt?] at h
      split at h
      · rename_i hden
        obtain rfl := Option.some.inj h
        exact (Rat.den_eq_one_iff r).mp (eq_of_beq hden) |>.symm
      · cases h

theorem floorDiv?_value (hA : A.Preserves) (he : floorDiv? A a b = some e)
    (ha : a.value? σ = some (.number x)) (hb : b.value? σ = some (.number y)) (hy : y ≠ 0) :
    e.value? σ = some (.number ⌊x / y⌋) := by
  have hdivide := hA.divide ha hb hy
  have hfloor : Fn.floor.real? [x / y] = some (⌊x / y⌋ : ℝ) := rfl
  unfold floorDiv? at he
  split at he
  · rename_i p q
    split at he
    · rename_i m n hm hn
      split at he
      · cases he
      · obtain rfl := Option.some.inj he
        obtain rfl := Value.number.inj (Option.some.inj ha)
        obtain rfl := Value.number.inj (Option.some.inj hb)
        rw [shownValue_of_toInt? hm, shownValue_of_toInt? hn, Rat.cast_intCast, Rat.cast_intCast,
          ← fdiv_eq_floor]
        exact congrArg (fun r : ℝ => some (Value.number r)) (Rat.cast_intCast _)
    · exact hA.fn_one he hdivide hfloor
  · exact hA.fn_one he hdivide hfloor

theorem binary?_expr {op : BinaryOp} (hop : isShiftOrBits op = false)
    (ha : a.value? σ = some (.number x)) (hb : b.value? σ = some (.number y)) :
    binary? A op (expr a) (expr b) = (exprOp? A op a b).map expr := by
  rw [binary?, hop, operand?_expr ha, operand?_expr hb]
  rfl

theorem exactInt?_of_truth {t : Bool} (ha : a.value? σ = some (.truth t)) :
    exactInt? (expr a) = none := by
  cases a with
  | num n => cases ha
  | _ => rfl

theorem condition?_expr {c : Expr} (h : condition? (expr a) = some c) : c = a := by
  unfold condition? at h
  split at h
  · cases ‹expr a = truth _›
  · cases ‹expr a = expr _›
    exact (Option.some.inj h).symm
  · cases ‹expr a = expr _›
    split at h
    · exact (Option.some.inj h).symm
    · cases h
  · cases h

theorem logicOp?_value (hA : A.Preserves) {op : BinaryOp} {m : Meaning} {t u : Bool}
    (hm : logicOp? A op (expr a) (expr b) = some m) (ha : a.value? σ = some (.truth t))
    (hb : b.value? σ = some (.truth u)) {v : Value}
    (hv : op.value? (.truth t) (.truth u) = some v) :
    ∃ e, m = expr e ∧ e.value? σ = some v := by
  rw [logicOp?, exactInt?_of_truth ha, exactInt?_of_truth hb] at hm
  dsimp only at hm
  split at hm
  · rename_i p q hp hq
    obtain rfl := condition?_expr hp
    obtain rfl := condition?_expr hq
    cases op with
    | meet =>
        obtain ⟨e, he, rfl⟩ := Option.map_eq_some_iff.mp hm
        obtain rfl := Option.some.inj hv
        refine ⟨e, rfl, (hA.build he (Expr.values?_two_iff.mpr ⟨_, _, rfl, ha, hb⟩) rfl).trans ?_⟩
        simp [Value.holds]
    | join =>
        obtain ⟨e, he, rfl⟩ := Option.map_eq_some_iff.mp hm
        obtain rfl := Option.some.inj hv
        refine ⟨e, rfl, (hA.build he (Expr.values?_two_iff.mpr ⟨_, _, rfl, ha, hb⟩) rfl).trans ?_⟩
        simp [Value.holds]
    | _ => cases hv
  · cases hm

/-- An operator on expressions gives an expression that has the value of
the operation. -/
theorem binary?_value (hA : A.Preserves) {op : BinaryOp} {m : Meaning} {v w u : Value}
    (hm : binary? A op (expr a) (expr b) = some m) (ha : a.value? σ = some v)
    (hb : b.value? σ = some w) (hu : op.value? v w = some u) :
    ∃ e, m = expr e ∧ e.value? σ = some u := by
  cases v with
  | truth t =>
      cases w with
      | number y => cases op <;> cases hu
      | truth t' =>
          have hbits : isShiftOrBits op = true := by cases op <;> first | rfl | cases hu
          rw [binary?, if_pos hbits] at hm
          exact logicOp?_value hA hm ha hb hu
  | number x =>
      cases w with
      | truth t => cases op <;> cases hu
      | number y =>
          have hbits : isShiftOrBits op = false := by cases op <;> first | rfl | cases hu
          rw [binary?_expr hbits ha hb] at hm
          obtain ⟨e, he, rfl⟩ := Option.map_eq_some_iff.mp hm
          refine ⟨e, rfl, ?_⟩
          cases op with
          | add =>
              obtain rfl := Option.some.inj hu
              exact hA.add he ha hb
          | sub =>
              obtain rfl := Option.some.inj hu
              exact difference?_value hA he ha hb
          | mul =>
              obtain rfl := Option.some.inj hu
              exact hA.mul he ha hb
          | div =>
              obtain ⟨q, hq, rfl⟩ := Option.map_eq_some_iff.mp hu
              obtain ⟨hy, rfl⟩ := quotient?_eq_some hq
              obtain rfl := Option.some.inj he
              exact hA.divide ha hb hy
          | floorDiv =>
              obtain ⟨q, hq, rfl⟩ := Option.map_eq_some_iff.mp hu
              obtain ⟨hy, rfl⟩ := quotient?_eq_some hq
              exact floorDiv?_value hA he ha hb hy
          | mod =>
              obtain ⟨r, hr, rfl⟩ := Option.map_eq_some_iff.mp hu
              exact hA.fn_two he ha hb hr
          | pow =>
              obtain ⟨z, hz, rfl⟩ := Option.map_eq_some_iff.mp hu
              exact hA.pow he ha hb hz
          | _ => cases hu

theorem unary?_value (hA : A.Preserves) {op : UnaryOp} {m : Meaning} {v u : Value}
    (hm : unary? A op (expr a) = some m) (ha : a.value? σ = some v) (hu : op.value? v = some u) :
    ∃ e, m = expr e ∧ e.value? σ = some u := by
  cases v with
  | number x =>
      cases op with
      | plus =>
          obtain rfl := Option.some.inj hu
          obtain ⟨e, he, rfl⟩ := Option.map_eq_some_iff.mp hm
          rw [operand?_expr ha] at he
          obtain rfl := Option.some.inj he
          exact ⟨_, rfl, ha⟩
      | minus =>
          obtain rfl := Option.some.inj hu
          rw [unary?, operand?_expr ha] at hm
          obtain ⟨e, he, hm⟩ := Option.bind_eq_some_iff (x := opposite? A a).mp hm
          obtain rfl := Option.some.inj hm
          exact ⟨e, rfl, opposite?_value hA he ha⟩
      | _ => cases hu
  | truth t =>
      cases op with
      | complement =>
          obtain rfl := Option.some.inj hu
          unfold unary? at hm
          dsimp only at hm
          split at hm
          · rename_i p _ hp heq
            obtain rfl := condition?_expr hp
            obtain ⟨e, he, rfl⟩ := Option.map_eq_some_iff.mp hm
            exact ⟨e, rfl, hA.build he (Expr.values?_one_iff.mpr ⟨_, rfl, ha⟩) rfl⟩
          · rename_i n heq _
            cases heq
            cases ha
          · cases a <;> cases hm
      | _ => cases hu

theorem compare?_value (hA : A.Preserves) {op : CompareOp} {m : Meaning} {v w u : Value}
    (hm : compare? A op (expr a) (expr b) = some m) (ha : a.value? σ = some v)
    (hb : b.value? σ = some w) (hu : op.value? v w = some u) :
    ∃ e, m = expr e ∧ e.value? σ = some u := by
  cases v with
  | truth t => cases hu
  | number x =>
      cases w with
      | truth t => cases hu
      | number y =>
          obtain ⟨r, hr, rfl⟩ := Option.map_eq_some_iff.mp hu
          have hcompare : compare? A op (expr a) (expr b)
              = (A.build? (.rel r) [a, b]).bind fun e => some (expr e) := by
            cases op with
            | equal | notEqual => cases hr
            | _ =>
                cases hr
                show ((operand? (expr a)).bind fun p => (operand? (expr b)).bind fun q =>
                  (A.build? _ [p, q]).bind fun e => some (expr e)) = _
                rw [operand?_expr ha, operand?_expr hb]
                rfl
          rw [hcompare] at hm
          obtain ⟨e, he, hm⟩ := Option.bind_eq_some_iff.mp hm
          obtain rfl := Option.some.inj hm
          exact ⟨e, rfl, hA.rel he ha hb⟩

/-! ## Calls -/

theorem half_value : Expr.half.value? σ = some (.number (1 / 2)) := by
  show some (Value.number ((mkRat 1 2 : ℚ) : ℝ)) = _
  rw [Rat.mkRat_eq_div]
  norm_num

theorem rounded?_value (hA : A.Preserves) (he : rounded? A a = some e)
    (ha : a.value? σ = some (.number x)) : e.value? σ = some (.number ⌊x + 1 / 2⌋) := by
  obtain ⟨c, hc, he⟩ := Option.bind_eq_some_iff.mp he
  exact hA.fn_one he (hA.add hc ha half_value) rfl

theorem zero_value : (0 : Expr).value? σ = some (.number 0) := by
  show some (Value.number (((0 : ℕ) : ℚ) : ℝ)) = _
  simp

theorem one_value : (1 : Expr).value? σ = some (.number 1) := by
  show some (Value.number (((1 : ℕ) : ℚ) : ℝ)) = _
  simp

theorem stepAt?_value (hA : A.Preserves) (he : stepAt? A a b = some e)
    (ha : a.value? σ = some (.number x)) (hb : b.value? σ = some (.number y)) :
    e.value? σ = some (.number (if x ≤ y then 1 else 0)) := by
  obtain ⟨c, hc, he⟩ := Option.bind_eq_some_iff.mp he
  rw [hA.select he one_value (hA.rel hc hb ha) zero_value]
  show some (if decide (x ≤ y) = true then Value.number 1 else Value.number 0) = _
  by_cases hle : x ≤ y
  · rw [if_pos (decide_eq_true hle), if_pos hle]
  · rw [if_neg (by simpa using hle), if_neg hle]

theorem clamp?_value (hA : A.Preserves) {c : Expr} {z : ℝ} (he : clamp? A a b c = some e)
    (ha : a.value? σ = some (.number x)) (hb : b.value? σ = some (.number y))
    (hc : c.value? σ = some (.number z)) :
    e.value? σ = some (.number (Max.max y (Min.min x z))) := by
  obtain ⟨d, hd, he⟩ := Option.bind_eq_some_iff.mp he
  exact hA.fn_two he hb (hA.fn_two hd ha hc rfl) rfl

theorem mixture?_value (hA : A.Preserves) {c : Expr} {z : ℝ} (he : mixture? A a b c = some e)
    (ha : a.value? σ = some (.number x)) (hb : b.value? σ = some (.number y))
    (hc : c.value? σ = some (.number z)) :
    e.value? σ = some (.number (x * (1 - z) + y * z)) := by
  obtain ⟨d, hd, he⟩ := Option.bind_eq_some_iff.mp he
  obtain ⟨p, hp, he⟩ := Option.bind_eq_some_iff.mp he
  obtain ⟨q, hq, he⟩ := Option.bind_eq_some_iff.mp he
  exact hA.add he (hA.mul hp ha (difference?_value hA hd one_value hc)) (hA.mul hq hb hc)

theorem test?_value (hA : A.Preserves) {v : Value} (he : test? A a = some e)
    (ha : a.value? σ = some v) : ∃ w, e.value? σ = some w ∧ w.holds = v.holds := by
  unfold test? at he
  split at he
  · obtain rfl := Option.some.inj he
    exact ⟨v, ha, rfl⟩
  · split at he
    · obtain rfl := Option.some.inj he
      exact ⟨v, ha, rfl⟩
    · refine ⟨_, hA.rel he ha zero_value, ?_⟩
      show decide (v.scalar ≠ 0) = v.holds
      cases v with
      | number x => rfl
      | truth b => cases b <;> simp [Value.scalar, Value.holds]

theorem choice?_value (hA : A.Preserves) {c : Expr} {u v w : Value} (he : choice? A c a b = some e)
    (hc : c.value? σ = some u) (ha : a.value? σ = some v) (hb : b.value? σ = some w) :
    e.value? σ = some (if u.holds then v else w) := by
  obtain ⟨d, hd, he⟩ := Option.bind_eq_some_iff.mp he
  obtain ⟨u', hu', hholds⟩ := test?_value hA hd hc
  rw [hA.select he ha hu' hb, hholds]

/-- A library function of numbers. -/
theorem applyPlain?_value (hA : A.Preserves) {b : Builtin} {es : List Expr} {xs : List ℝ}
    (he : applyPlain? A b es = some e) (hes : Expr.values? σ es = some (xs.map .number))
    (hy : b.real? xs = some y) : e.value? σ = some (.number y) := by
  unfold Builtin.real? at hy
  split at hy
  case h_1 | h_2 | h_3 | h_4 | h_5 | h_6 | h_9 | h_11 | h_13 | h_24 =>
    -- functions of one number
    obtain ⟨a, rfl, ha⟩ := Expr.values?_one_iff.mp hes
    exact hA.fn_one he ha hy
  case h_7 | h_23 =>
    -- functions of two numbers
    obtain ⟨a, b, rfl, ha, hb⟩ := Expr.values?_two_iff.mp hes
    exact hA.fn_two he ha hb hy
  case h_8 x =>
    -- the square root is a power
    obtain ⟨a, rfl, ha⟩ := Expr.values?_one_iff.mp hes
    exact hA.pow he ha half_value hy
  case h_10 x z =>
    obtain ⟨a, b, rfl, ha, hb⟩ := Expr.values?_two_iff.mp hes
    split at hy
    · rename_i hdomain
      obtain ⟨hx, hz, hone⟩ := hdomain
      obtain rfl := Option.some.inj hy
      obtain rfl := Option.some.inj he
      exact hA.logarithmTo ha hb hx hz hone
    · cases hy
  case h_12 =>
    obtain ⟨a, b, rfl, ha, hb⟩ := Expr.values?_two_iff.mp hes
    exact hA.pow he ha hb hy
  case h_14 | h_15 => exact hA.fn he hes hy
  case h_16 | h_17 =>
    obtain ⟨a, rfl, ha⟩ := Expr.values?_one_iff.mp hes
    exact hA.fn_one he ha hy
  case h_18 =>
    obtain ⟨a, rfl, ha⟩ := Expr.values?_one_iff.mp hes
    obtain rfl := Option.some.inj hy
    exact rounded?_value hA he ha
  case h_19 =>
    obtain ⟨a, b, rfl, ha, hb⟩ := Expr.values?_two_iff.mp hes
    obtain rfl := Option.some.inj hy
    exact stepAt?_value hA he ha hb
  case h_20 =>
    obtain ⟨a, b, c, rfl, ha, hb, hc⟩ := Expr.values?_three_iff.mp hes
    obtain rfl := Option.some.inj hy
    exact clamp?_value hA he ha hb hc
  case h_21 =>
    obtain ⟨a, b, c, rfl, ha, hb, hc⟩ := Expr.values?_three_iff.mp hes
    obtain rfl := Option.some.inj hy
    exact mixture?_value hA he ha hb hc
  case h_22 =>
    obtain ⟨a, rfl, ha⟩ := Expr.values?_one_iff.mp hes
    obtain rfl := Option.some.inj hy
    obtain ⟨c, hc, he⟩ := Option.bind_eq_some_iff.mp he
    exact difference?_value hA he ha (hA.fn_one hc ha rfl)
  case h_25 => cases hy

theorem mapM_argument? (es : List Expr) : (es.map expr).mapM argument? = some es := by
  induction es with
  | nil => rfl
  | cons e es ih =>
      rw [List.map_cons, List.mapM_cons, ih]
      rfl

theorem callBuiltin?_value (hA : A.Preserves) {b : Builtin} {es : List Expr} {vs : List Value}
    {m : Meaning} {v : Value} (hm : callBuiltin? A b (es.map expr) = some m)
    (hes : Expr.values? σ es = some vs) (hv : b.value? vs = some v) :
    ∃ e, m = expr e ∧ e.value? σ = some v := by
  unfold Builtin.value? at hv
  split at hv
  · obtain ⟨c, a, b, rfl, hc, ha, hb⟩ := Expr.values?_three_iff.mp hes
    obtain rfl := Option.some.inj hv
    obtain ⟨e, he, hm⟩ := Option.bind_eq_some_iff (x := choice? A c a b).mp hm
    obtain rfl := Option.some.inj hm
    exact ⟨e, rfl, choice?_value hA he hc ha hb⟩
  · obtain ⟨xs, hxs, hv⟩ := Option.bind_eq_some_iff.mp hv
    obtain ⟨y, hy, hv⟩ := Option.bind_eq_some_iff.mp hv
    obtain rfl := Option.some.inj hv
    obtain rfl := Value.mapM_number?_iff.mp hxs
    have hplain : callBuiltin? A b (es.map expr) = ((es.map expr).mapM argument?).bind fun es =>
        if es.any Expr.isLogical then none else (applyPlain? A b es).bind fun e => some (expr e) := by
      cases b <;> first
        | rfl
        | cases hy
    rw [hplain, mapM_argument?, Option.bind_some] at hm
    split at hm
    · cases hm
    · obtain ⟨e, he, hm⟩ := Option.bind_eq_some_iff.mp hm
      obtain rfl := Option.some.inj hm
      exact ⟨e, rfl, applyPlain?_value hA he hes hy⟩

/-- A call of a definition puts the arguments in the place of the
parameters. -/
theorem call?_value (hA : A.Preserves) {params : List String} {body : Expr} {es : List Expr}
    {vs : List Value} {m : Meaning} {v : Value}
    (hm : call? A (definition params body) (es.map expr) = some m)
    (hes : Expr.values? σ es = some vs) (hv : body.value? (σ.withArgs params vs) = some v) :
    ∃ e, m = expr e ∧ e.value? σ = some v := by
  have hthrough := Expr.through_zip params hes
  rw [← hthrough] at hv
  unfold call? at hm
  dsimp only at hm
  split at hm
  · cases hm
  · split at hm
    · -- the identity, or a variable that is no parameter
      rename_i p a q hargs _
      obtain ⟨e, es', rfl, rfl, hnil⟩ := List.map_eq_cons_iff.mp hargs
      obtain rfl := List.map_eq_nil_iff.mp hnil
      rw [Expr.value?, Expr.through, List.zip_cons_cons, List.lookup_cons] at hv
      split at hm
      · rename_i hpq
        obtain rfl := Option.some.inj hm
        rw [BEq.comm, hpq] at hv
        exact ⟨e, rfl, hv⟩
      · rename_i hpq
        obtain rfl := Option.some.inj hm
        rw [BEq.comm, Bool.eq_false_iff.mpr hpq] at hv
        exact ⟨.var q, rfl, hv⟩
    · rw [mapM_argument?] at hm
      obtain ⟨es', hes', hm⟩ := Option.bind_eq_some_iff.mp hm
      obtain rfl := Option.some.inj hes'
      obtain ⟨e, he, hm⟩ := Option.bind_eq_some_iff.mp hm
      obtain rfl := Option.some.inj hm
      exact ⟨e, rfl, Expr.value?_substitute? hA he hv⟩

end Meaning

/-! ## Terms -/

/-- The scope gives a name the meaning of what the interpretation says. -/
structure Scope.Agrees (s : Scope) (I : Interpretation) (σ : Valuation) (n : String) : Prop where
  name : ∀ {v : Value}, I.name? n = some v →
    ∃ e, s.meaning n false = .expr e ∧ e.value? σ = some v
  call : ∀ {vs : List Value} {v : Value}, I.call? n vs = some v →
    (∃ b : Builtin, s.meaning n true = .builtin b ∧ b.value? vs = some v) ∨
      ∃ params body, s.meaning n true = .definition params body ∧
        body.value? (σ.withArgs params vs) = some v

namespace Term

theorem induction {P : Term → Prop} (number : ∀ n, P (number n)) (imaginary : ∀ n, P (imaginary n))
    (name : ∀ s called, P (name s called)) (text : ∀ s, P (text s))
    (group : ∀ ts, (∀ t ∈ ts, P t) → P (group ts)) (braces : ∀ ts, (∀ t ∈ ts, P t) → P (braces ts))
    (unary : ∀ op a, P a → P (unary op a)) (binary : ∀ op a b, P a → P b → P (binary op a b))
    (compare : ∀ a ops ts, P a → (∀ t ∈ ts, P t) → P (compare a ops ts))
    (both : ∀ a b, P a → P b → P (both a b)) (either : ∀ a b, P a → P b → P (either a b))
    (choose : ∀ c a b, P c → P a → P b → P (choose c a b))
    (call : ∀ f ts, P f → (∀ t ∈ ts, P t) → P (call f ts))
    (index : ∀ a i, P a → P i → P (index a i)) (t : Term) : P t :=
  @Term.rec P (fun ts => ∀ t ∈ ts, P t) number imaginary name text group braces unary binary compare
    both either choose call index (List.forall_mem_nil _)
    (fun _ _ ht hts => List.forall_mem_cons.mpr ⟨ht, hts⟩) t

theorem mem_namesList {n : String} {ts : List Term} :
    n ∈ namesList ts ↔ ∃ t ∈ ts, n ∈ t.names := by
  induction ts with
  | nil => simp [namesList]
  | cons t ts ih => rw [namesList, List.mem_append, ih, List.exists_mem_cons_iff]

variable {s : Scope} {I : Interpretation} {σ : Valuation}

/-- The meanings of arguments are expressions with their values. -/
theorem values?_meanings? {ts : List Term} {ms : List Meaning} {vs : List Value}
    (hms : meanings? s ts = some ms) (hvs : values? I ts = some vs)
    (hts : ∀ t ∈ ts, ∀ m v, t.meaning? s = some m → t.value? I = some v →
      ∃ e, m = .expr e ∧ e.value? σ = some v) :
    ∃ es, ms = es.map .expr ∧ Expr.values? σ es = some vs := by
  induction ts generalizing ms vs with
  | nil =>
      obtain rfl := Option.some.inj hms
      obtain rfl := Option.some.inj hvs
      exact ⟨[], rfl, rfl⟩
  | cons t ts ih =>
      obtain ⟨ht, hts⟩ := List.forall_mem_cons.mp hts
      obtain ⟨m, hm, hms⟩ := Option.bind_eq_some_iff.mp hms
      obtain ⟨ms', hms', hms⟩ := Option.bind_eq_some_iff.mp hms
      obtain rfl := Option.some.inj hms
      obtain ⟨v, hv, hvs⟩ := Option.bind_eq_some_iff.mp hvs
      obtain ⟨vs', hvs', hvs⟩ := Option.bind_eq_some_iff.mp hvs
      obtain rfl := Option.some.inj hvs
      obtain ⟨e, rfl, he⟩ := ht m v hm hv
      obtain ⟨es, rfl, hes⟩ := ih hms' hvs' hts
      exact ⟨e :: es, rfl, Expr.values?_cons.mpr ⟨v, vs', he, hes, rfl⟩⟩

/-- What a term means is an expression that has the value of the term. -/
theorem value?_meaning? (hA : s.algebra.Preserves) {t : Term} {m : Meaning} {v : Value}
    (hm : t.meaning? s = some m) (hv : t.value? I = some v)
    (hnames : ∀ n ∈ t.names, s.Agrees I σ n) : ∃ e, m = .expr e ∧ e.value? σ = some v := by
  induction t using induction generalizing m v with
  | number n =>
      obtain rfl := Option.some.inj hm
      exact ⟨.num n, rfl, hv⟩
  | name n called =>
      obtain rfl := Option.some.inj hm
      cases called with
      | true => cases hv
      | false => exact (hnames n (List.mem_singleton.mpr rfl)).name hv
  | unary op a iha =>
      obtain ⟨ma, hma, hm⟩ := Option.bind_eq_some_iff.mp hm
      obtain ⟨va, hva, hv⟩ := Option.bind_eq_some_iff.mp hv
      obtain ⟨e, rfl, he⟩ := iha hma hva hnames
      exact Meaning.unary?_value hA hm he hv
  | binary op a b iha ihb =>
      obtain ⟨ha, hb⟩ := List.forall_mem_append.mp hnames
      obtain ⟨ma, hma, hm⟩ := Option.bind_eq_some_iff.mp hm
      obtain ⟨mb, hmb, hm⟩ := Option.bind_eq_some_iff.mp hm
      obtain ⟨va, hva, hv⟩ := Option.bind_eq_some_iff.mp hv
      obtain ⟨vb, hvb, hv⟩ := Option.bind_eq_some_iff.mp hv
      obtain ⟨e, rfl, he⟩ := iha hma hva ha
      obtain ⟨f, rfl, hf⟩ := ihb hmb hvb hb
      exact Meaning.binary?_value hA hm he hf hv
  | compare a ops ts iha ihts =>
      obtain ⟨ha, hb⟩ := List.forall_mem_append.mp hnames
      -- A single comparison is the only one with a value.
      rcases ops with - | ⟨op, - | ⟨op', ops⟩⟩
      · cases hv
      · rcases ts with - | ⟨b, - | ⟨b', ts⟩⟩
        · cases hv
        · obtain ⟨ma, hma, hm⟩ := Option.bind_eq_some_iff.mp hm
          obtain ⟨mb, hmb, hm⟩ := Option.bind_eq_some_iff.mp hm
          obtain ⟨mc, hmc, hm⟩ := Option.bind_eq_some_iff.mp hm
          obtain rfl := Option.some.inj hm
          obtain ⟨va, hva, hv⟩ := Option.bind_eq_some_iff.mp hv
          obtain ⟨vb, hvb, hv⟩ := Option.bind_eq_some_iff.mp hv
          obtain ⟨e, rfl, he⟩ := iha hma hva ha
          rw [namesList, namesList, List.append_nil] at hb
          obtain ⟨f, rfl, hf⟩ := ihts b List.mem_cons_self hmb hvb hb
          exact Meaning.compare?_value hA hmc he hf hv
        · cases hv
      · cases hv
  | call f ts ihf ihts =>
      obtain ⟨hf, hts⟩ := List.forall_mem_append.mp hnames
      cases f with
      | name n called =>
          cases called with
          | false => cases hv
          | true =>
              obtain ⟨ms, hms, hm⟩ := Option.bind_eq_some_iff.mp hm
              obtain ⟨vs, hvs, hv⟩ := Option.bind_eq_some_iff.mp hv
              have hargs := values?_meanings? hms hvs fun t ht m v hm hv =>
                ihts t ht hm hv fun n hn => hts n (mem_namesList.mpr ⟨t, ht, hn⟩)
              obtain ⟨es, rfl, hes⟩ := hargs
              rcases (hf n (List.mem_singleton.mpr rfl)).call hv with
                ⟨b, hb, hvalue⟩ | ⟨params, body, hbody, hvalue⟩
              · rw [hb] at hm
                exact Meaning.callBuiltin?_value hA hm hes hvalue
              · rw [hbody] at hm
                exact Meaning.call?_value hA hm hes hvalue
      | _ => cases hv
  | _ => cases hv

theorem values?_congr {I J : Interpretation} {ts : List Term}
    (h : ∀ t ∈ ts, t.value? I = t.value? J) : values? I ts = values? J ts := by
  induction ts with
  | nil => rfl
  | cons t ts ih =>
      obtain ⟨ht, hts⟩ := List.forall_mem_cons.mp h
      rw [values?, values?, ht, ih hts]

/-- The value depends on the names that occur. -/
theorem value?_congr {I J : Interpretation} {t : Term}
    (h : ∀ n ∈ t.names, I.name? n = J.name? n ∧ I.call? n = J.call? n) :
    t.value? I = t.value? J := by
  induction t using induction with
  | name n called =>
      cases called with
      | true => rfl
      | false => exact (h n (List.mem_singleton.mpr rfl)).1
  | unary op a iha => rw [value?, value?, iha h]
  | binary op a b iha ihb =>
      obtain ⟨ha, hb⟩ := List.forall_mem_append.mp h
      rw [value?, value?, iha ha, ihb hb]
  | compare a ops ts iha ihts =>
      obtain ⟨ha, hts⟩ := List.forall_mem_append.mp h
      rcases ops with - | ⟨op, - | ⟨op', ops⟩⟩
      · rfl
      · rcases ts with - | ⟨b, - | ⟨b', ts⟩⟩
        · rfl
        · rw [namesList, namesList, List.append_nil] at hts
          rw [value?, value?, iha ha, ihts b List.mem_cons_self hts]
        · rfl
      · rfl
  | call f ts ihf ihts =>
      obtain ⟨hf, hts⟩ := List.forall_mem_append.mp h
      cases f with
      | name n called =>
          cases called with
          | false => rfl
          | true =>
              have hargs : values? I ts = values? J ts := values?_congr fun t ht =>
                ihts t ht fun n hn => hts n (mem_namesList.mpr ⟨t, ht, hn⟩)
              rw [value?, value?, hargs, (hf n (List.mem_singleton.mpr rfl)).2]
      | _ => rfl
  | _ => rfl

end Term

end FieldScript
