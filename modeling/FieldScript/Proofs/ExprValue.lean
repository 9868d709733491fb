import FieldScript.Expr.Substitute
import FieldScript.Proofs.ExactNumbers
import FieldScript.Proofs.ExprInduction

/-!
# Values of expressions

The value of an expression under a valuation of its variables, in exact
arithmetic. It is strict: an expression has a value only if all of its
parts have one, and a part that is no real number (a pole, an infinity,
a point of the plane, a function in place of a number) has none.

Normal forms enter only through one law: what an algebra builds has the
value of the operation on the values of its operands, wherever there is
one (`Algebra.Preserves`). The law carries over to substitution
(`value?_replace?`): a variable is worth what replaces it.
-/

namespace FieldScript

/-- A real number or a truth value. -/
inductive Value where
  | number (x : ℝ)
  | truth (b : Bool)

/-- Values of variables. -/
abbrev Valuation := String → Option Value

/-- Arguments count before the variables around a call. -/
def Valuation.withArgs (σ : Valuation) (params : List String) (vs : List Value) : Valuation :=
  fun n => ((params.zip vs).lookup n).or (σ n)

namespace Value

def number? : Value → Option ℝ
  | number x => some x
  | truth _ => none

/-- The value as a number: one and zero stand for true and false. -/
noncomputable def scalar : Value → ℝ
  | number x => x
  | truth b => if b then 1 else 0

open Classical in
/-- Whether the value counts as true; a number does unless it is zero. -/
noncomputable def holds : Value → Bool
  | number x => decide (x ≠ 0)
  | truth b => b

theorem mapM_number?_iff {vs : List Value} {xs : List ℝ} :
    vs.mapM number? = some xs ↔ vs = xs.map number := by
  induction vs generalizing xs with
  | nil =>
      rw [List.mapM_nil, eq_comm (a := []), List.map_eq_nil_iff]
      exact ⟨fun h => (Option.some.inj h).symm, fun h => h ▸ rfl⟩
  | cons v vs ih =>
      rw [List.mapM_cons]
      cases v with
      | truth b =>
          refine ⟨fun h => (by cases h), fun h => ?_⟩
          cases xs with
          | nil => cases h
          | cons x xs => cases h
      | number x =>
          simp only [number?, Option.bind_eq_bind, Option.bind_some, Option.bind_eq_some_iff,
            Option.pure_def, Option.some.injEq, ih]
          constructor
          · rintro ⟨xs', rfl, rfl⟩
            rfl
          · intro h
            cases xs with
            | nil => cases h
            | cons y xs =>
                obtain ⟨hy, hxs⟩ := List.cons.inj h
                obtain rfl := Value.number.inj hy
                exact ⟨xs, hxs, rfl⟩

/-- Values and conditions in turn: the first value whose condition
holds. -/
noncomputable def selected? : List Value → Option Value
  | v :: c :: rest => if c.holds then some v else selected? rest
  | _ => none

end Value

/-- An operation on values. -/
noncomputable def Head.value? (h : Head) (vs : List Value) : Option Value :=
  match h, vs with
  | .add, v :: vs => ((v :: vs).mapM Value.number?).map fun xs => .number xs.sum
  | .mul, v :: vs => ((v :: vs).mapM Value.number?).map fun xs => .number xs.prod
  | .pow, [.number b, .number e] => (power? b e).map .number
  | .fn f, vs => do return .number (← f.real? (← vs.mapM Value.number?))
  | .rel r, [v, w] => some (.truth (r.real v.scalar w.scalar))
  | .select, vs => Value.selected? vs
  | .conj, vs => some (.truth (vs.all Value.holds))
  | .disj, vs => some (.truth (vs.any Value.holds))
  | .negation, [v] => some (.truth !v.holds)
  | _, _ => none

theorem Head.value?_fn {f : Fn} {xs : List ℝ} {y : ℝ} (hy : f.real? xs = some y) :
    (Head.fn f).value? (xs.map .number) = some (.number y) := by
  show ((xs.map Value.number).mapM Value.number?).bind _ = _
  rw [Value.mapM_number?_iff.mpr rfl, Option.bind_some, hy]
  rfl

namespace Expr

/-- A power of a negative number stays on the real line only for an
integral exponent. -/
def leavesLine : Head → List Expr → Bool
  | .pow, [num b, num x] => b.isNegative && !x.isInteger
  | _, _ => false

mutual

noncomputable def value? (σ : Valuation) : Expr → Option Value
  | num n => some (.number n.shownValue)
  | pi => some (.number Real.pi)
  | euler => some (.number (Real.exp 1))
  | var n => σ n
  | truth b => some (.truth b)
  | node h as => do
    let vs ← values? σ as
    if leavesLine h as then none else h.value? vs
  | imaginary | infinity _ | pole | undefined => none

noncomputable def values? (σ : Valuation) : List Expr → Option (List Value)
  | [] => some []
  | e :: es => do return (← value? σ e) :: (← values? σ es)

end

variable {σ τ : Valuation}

theorem value?_node {h : Head} {as : List Expr} {v : Value} :
    (node h as).value? σ = some v ↔
      ∃ vs, values? σ as = some vs ∧ leavesLine h as = false ∧ h.value? vs = some v := by
  rw [value?]
  refine Option.bind_eq_some_iff.trans (exists_congr fun vs => and_congr_right fun _ => ?_)
  cases leavesLine h as <;> simp

theorem values?_cons {e : Expr} {es : List Expr} {vs : List Value} :
    values? σ (e :: es) = some vs ↔
      ∃ v vs', e.value? σ = some v ∧ values? σ es = some vs' ∧ vs = v :: vs' := by
  rw [values?]
  simp only [Option.bind_eq_bind, Option.bind_eq_some_iff, Option.pure_def, Option.some.injEq]
  constructor
  · rintro ⟨v, hv, vs', hvs, rfl⟩
    exact ⟨v, vs', hv, hvs, rfl⟩
  · rintro ⟨v, vs', hv, hvs, rfl⟩
    exact ⟨v, hv, vs', hvs, rfl⟩

theorem values?_nil_iff {es : List Expr} : values? σ es = some [] ↔ es = [] := by
  cases es with
  | nil => exact ⟨fun _ => rfl, fun _ => rfl⟩
  | cons e es =>
      refine ⟨fun h => ?_, fun h => by cases h⟩
      obtain ⟨_, _, -, -, heq⟩ := values?_cons.mp h
      cases heq

theorem values?_cons_iff {es : List Expr} {v : Value} {vs : List Value} :
    values? σ es = some (v :: vs) ↔
      ∃ e es', es = e :: es' ∧ e.value? σ = some v ∧ values? σ es' = some vs := by
  cases es with
  | nil => exact ⟨fun h => (by cases h), fun ⟨_, _, h, _⟩ => (by cases h)⟩
  | cons e es =>
      rw [values?_cons]
      constructor
      · rintro ⟨_, _, he, hes, heq⟩
        obtain ⟨rfl, rfl⟩ := List.cons.inj heq
        exact ⟨e, es, rfl, he, hes⟩
      · rintro ⟨_, _, heq, he, hes⟩
        obtain ⟨rfl, rfl⟩ := List.cons.inj heq
        exact ⟨v, vs, he, hes, rfl⟩

theorem values?_one_iff {es : List Expr} {v : Value} :
    values? σ es = some [v] ↔ ∃ a, es = [a] ∧ a.value? σ = some v := by
  simp only [values?_cons_iff, values?_nil_iff]
  constructor
  · rintro ⟨a, _, rfl, ha, rfl⟩
    exact ⟨a, rfl, ha⟩
  · rintro ⟨a, rfl, ha⟩
    exact ⟨a, [], rfl, ha, rfl⟩

theorem values?_two_iff {es : List Expr} {v w : Value} :
    values? σ es = some [v, w] ↔
      ∃ a b, es = [a, b] ∧ a.value? σ = some v ∧ b.value? σ = some w := by
  rw [values?_cons_iff]
  simp only [values?_one_iff]
  constructor
  · rintro ⟨a, _, rfl, ha, b, rfl, hb⟩
    exact ⟨a, b, rfl, ha, hb⟩
  · rintro ⟨a, b, rfl, ha, hb⟩
    exact ⟨a, [b], rfl, ha, b, rfl, hb⟩

theorem values?_three_iff {es : List Expr} {u v w : Value} :
    values? σ es = some [u, v, w] ↔
      ∃ a b c, es = [a, b, c] ∧ a.value? σ = some u ∧ b.value? σ = some v ∧
        c.value? σ = some w := by
  rw [values?_cons_iff]
  simp only [values?_two_iff]
  constructor
  · rintro ⟨a, _, rfl, ha, b, c, rfl, hb, hc⟩
    exact ⟨a, b, c, rfl, ha, hb, hc⟩
  · rintro ⟨a, b, c, rfl, ha, hb, hc⟩
    exact ⟨a, [b, c], rfl, ha, b, c, rfl, hb, hc⟩

theorem exists_value_of_mem {es : List Expr} {vs : List Value} (h : values? σ es = some vs) :
    ∀ e ∈ es, ∃ v, e.value? σ = some v := by
  induction es generalizing vs with
  | nil => exact List.forall_mem_nil _
  | cons e es ih =>
      obtain ⟨v, vs', hv, hvs, -⟩ := values?_cons.mp h
      exact List.forall_mem_cons.mpr ⟨⟨v, hv⟩, ih hvs⟩

/-- Values carry over to another valuation, operand by operand. -/
theorem values?_imp {es : List Expr} {vs : List Value} (h : values? σ es = some vs)
    (himp : ∀ e ∈ es, ∀ v, e.value? σ = some v → e.value? τ = some v) :
    values? τ es = some vs := by
  induction es generalizing vs with
  | nil => exact h
  | cons e es ih =>
      obtain ⟨v, vs', hv, hvs, rfl⟩ := values?_cons.mp h
      obtain ⟨he, hes⟩ := List.forall_mem_cons.mp himp
      exact values?_cons.mpr ⟨v, vs', he v hv, ih hvs hes, rfl⟩

/-! ## Free variables -/

theorem mem_foldl_insertName {n : String} {names acc : List String} :
    n ∈ names.foldl insertName acc ↔ n ∈ acc ∨ n ∈ names := by
  induction names generalizing acc with
  | nil => simp
  | cons m names ih =>
      have hinsert : n ∈ insertName acc m ↔ n ∈ acc ∨ n = m := by
        rw [insertName]
        split
        · rename_i hm
          rw [List.contains_iff_mem] at hm
          exact ⟨Or.inl, fun h => h.elim id fun h => h ▸ hm⟩
        · simp
      rw [List.foldl_cons, ih, hinsert, List.mem_cons, or_assoc]

theorem mem_freeVarsList {n : String} {es : List Expr} :
    n ∈ freeVarsList es ↔ ∃ e ∈ es, n ∈ e.freeVars := by
  induction es with
  | nil => simp [freeVarsList]
  | cons e es ih =>
      rw [freeVarsList, mem_foldl_insertName, ih, List.exists_mem_cons_iff]

/-- The head of an operation that has a value is not a nameless
function, so that its free variables are those of its operands. -/
theorem freeVars_node {h : Head} {as : List Expr} {vs : List Value} {v : Value}
    (hv : h.value? vs = some v) : (node h as).freeVars = freeVarsList as := by
  cases h with
  | closure ps => cases hv
  | _ => rfl

/-- The value depends on the free variables only. -/
theorem value?_congr {e : Expr} {v : Value} (h : e.value? σ = some v)
    (hagree : ∀ n ∈ e.freeVars, σ n = τ n) : e.value? τ = some v := by
  induction e using nodeInduction generalizing v with
  | leaf e hleaf =>
      cases e with
      | var n =>
          rw [value?, ← hagree n (by simp [freeVars])]
          exact h
      | node k as => exact absurd rfl (hleaf k as)
      | _ => exact h
  | node k as ih =>
      obtain ⟨vs, hvs, hline, hk⟩ := value?_node.mp h
      rw [freeVars_node hk] at hagree
      refine value?_node.mpr ⟨vs, ?_, hline, hk⟩
      refine values?_imp hvs fun a ha w hw => ?_
      exact ih a ha hw fun n hn => hagree n (mem_freeVarsList.mpr ⟨a, ha, hn⟩)

/-- Where an expression has a value, so have its free variables. -/
theorem exists_of_mem_freeVars {e : Expr} {v : Value} (h : e.value? σ = some v) {n : String}
    (hn : n ∈ e.freeVars) : ∃ w, σ n = some w := by
  induction e using nodeInduction generalizing v with
  | leaf e hleaf =>
      cases e with
      | var m =>
          obtain rfl : n = m := by simpa [freeVars] using hn
          exact ⟨v, h⟩
      | node k as => exact absurd rfl (hleaf k as)
      | _ => cases hn
  | node k as ih =>
      obtain ⟨vs, hvs, -, hk⟩ := value?_node.mp h
      rw [freeVars_node hk, mem_freeVarsList] at hn
      obtain ⟨a, ha, hna⟩ := hn
      obtain ⟨w, hw⟩ := exists_value_of_mem hvs a ha
      exact ih a ha hw hna

end Expr

/-! ## Building and replacing -/

/-- What is built has the value of the operation on the values of the
operands, wherever there is one. -/
structure Algebra.Preserves (A : Algebra) : Prop where
  build : ∀ {h : Head} {as : List Expr} {e : Expr} {σ : Valuation} {vs : List Value} {v : Value},
    A.build? h as = some e → Expr.values? σ as = some vs → h.value? vs = some v →
      e.value? σ = some v
  divide : ∀ {a b : Expr} {σ : Valuation} {x y : ℝ}, a.value? σ = some (.number x) →
    b.value? σ = some (.number y) → y ≠ 0 → (A.divide a b).value? σ = some (.number (x / y))
  logarithmTo : ∀ {a b : Expr} {σ : Valuation} {x y : ℝ}, a.value? σ = some (.number x) →
    b.value? σ = some (.number y) → 0 < x → 0 < y → y ≠ 1 →
    (A.logarithmTo a b).value? σ = some (.number (Real.log x / Real.log y))

namespace Expr

/-- The values of variables some of which are replaced. -/
noncomputable def through (env : List (String × Expr)) (σ : Valuation) : Valuation := fun n =>
  match env.lookup n with
  | some e => e.value? σ
  | none => σ n

/-- Expressions for parameters are worth what their values are. -/
theorem through_zip (params : List String) {es : List Expr} {vs : List Value}
    (hes : values? σ es = some vs) : through (params.zip es) σ = σ.withArgs params vs := by
  funext n
  induction params generalizing es vs with
  | nil => rfl
  | cons p params ih =>
      cases es with
      | nil =>
          obtain rfl := Option.some.inj hes
          rfl
      | cons e es =>
          obtain ⟨v, vs', hv, hvs, rfl⟩ := values?_cons.mp hes
          have htail := ih hvs
          rw [through, Valuation.withArgs] at htail ⊢
          rw [List.zip_cons_cons, List.zip_cons_cons, List.lookup_cons, List.lookup_cons]
          cases n == p with
          | true => exact hv
          | false => exact htail

section Replace

variable {A : Algebra} {env : List (String × Expr)} {σ : Valuation}

theorem replace?_node {h : Head} {as : List Expr} {r : Expr × Bool}
    (hr : replace? A env (node h as) = some r) :
    (∃ ps, h = .closure ps) ∨
      ∃ bs c, replaceList? A env as = some (bs, c) ∧
        (c = true ∧ (∃ e, A.build? h bs = some e ∧ r = (e, true)) ∨
          c = false ∧ r = (node h as, false)) := by
  unfold replace? at hr
  split at hr
  · cases ‹node h as = var _›
  · cases ‹node h as = _›
    exact Or.inl ⟨_, rfl⟩
  · cases ‹node h as = _›
    obtain ⟨⟨bs, c⟩, hbs, hr⟩ := Option.bind_eq_some_iff.mp hr
    refine Or.inr ⟨bs, c, hbs, ?_⟩
    cases c with
    | true =>
        obtain ⟨e, he, hr⟩ := Option.bind_eq_some_iff.mp hr
        exact Or.inl ⟨rfl, e, he, (Option.some.inj hr).symm⟩
    | false => exact Or.inr ⟨rfl, (Option.some.inj hr).symm⟩
  · rename_i hnode
    exact absurd rfl (hnode h as)

/-- A variable is worth what replaces it, and what is not replaced stays
as it is. -/
theorem value?_replace? (hA : A.Preserves) {e : Expr} {v : Value} {r : Expr × Bool}
    (hr : replace? A env e = some r) (hv : e.value? (through env σ) = some v) :
    r.1.value? σ = some v ∧ (r.2 = false → r.1 = e) := by
  induction e using nodeInduction generalizing v r with
  | leaf e hleaf =>
      cases e with
      | var n =>
          rw [value?, through] at hv
          rw [replace?] at hr
          obtain rfl := Option.some.inj hr
          cases hlookup : env.lookup n with
          | none =>
              rw [hlookup] at hv
              exact ⟨hv, fun _ => rfl⟩
          | some e =>
              rw [hlookup] at hv
              exact ⟨hv, fun h => by cases h⟩
      | node k as => exact absurd rfl (hleaf k as)
      | _ =>
          obtain rfl := Option.some.inj hr
          exact ⟨hv, fun _ => rfl⟩
  | node k as ih =>
      obtain ⟨vs, hvs, hline, hk⟩ := value?_node.mp hv
      have hlist : ∀ (es : List Expr) (ws : List Value) (bs : List Expr) (c : Bool),
          (∀ e ∈ es, e ∈ as) → values? (through env σ) es = some ws →
          replaceList? A env es = some (bs, c) →
          values? σ bs = some ws ∧ (c = false → bs = es) := by
        intro es
        induction es with
        | nil =>
            intro ws bs c _ hws hbs
            obtain ⟨rfl, rfl⟩ := Prod.mk.inj (Option.some.inj hbs)
            exact ⟨hws, fun _ => rfl⟩
        | cons e es ihes =>
            intro ws bs c hmem hws hbs
            obtain ⟨he, hes⟩ := List.forall_mem_cons.mp hmem
            obtain ⟨w, ws', hw, hws', rfl⟩ := values?_cons.mp hws
            rw [replaceList?] at hbs
            obtain ⟨⟨f, d⟩, hf, hbs⟩ := Option.bind_eq_some_iff.mp hbs
            obtain ⟨⟨fs, d'⟩, hfs, hbs⟩ := Option.bind_eq_some_iff.mp hbs
            obtain ⟨rfl, rfl⟩ := Prod.mk.inj (Option.some.inj hbs)
            obtain ⟨hfv, hfe⟩ := ih e he hf hw
            obtain ⟨hfsv, hfse⟩ := ihes ws' fs d' hes hws' hfs
            refine ⟨values?_cons.mpr ⟨w, ws', hfv, hfsv, rfl⟩, fun hc => ?_⟩
            obtain ⟨hd, hd'⟩ := Bool.or_eq_false_iff.mp hc
            rw [← hfe hd, ← hfse hd']
      rcases replace?_node hr with ⟨ps, rfl⟩ | ⟨bs, c, hbs, ⟨rfl, e, he, rfl⟩ | ⟨rfl, rfl⟩⟩
      · cases hk
      · obtain ⟨hbsv, -⟩ := hlist as vs bs true (fun _ h => h) hvs hbs
        exact ⟨hA.build he hbsv hk, fun h => by cases h⟩
      · obtain ⟨hbsv, hbse⟩ := hlist as vs bs false (fun _ h => h) hvs hbs
        rw [hbse rfl] at hbsv
        exact ⟨value?_node.mpr ⟨vs, hbsv, hline, hk⟩, fun _ => rfl⟩

theorem value?_substitute? (hA : A.Preserves) {e e' : Expr} {v : Value}
    (he : substitute? A env e = some e') (hv : e.value? (through env σ) = some v) :
    e'.value? σ = some v := by
  obtain ⟨r, hr, rfl⟩ := Option.map_eq_some_iff.mp he
  exact (value?_replace? hA hr hv).1

end Replace

end Expr
end FieldScript
