import FieldScript.Proofs.DefinitionCalls
import FieldScript.Proofs.FrameIndependence
import FieldScript.Proofs.SafePotential

/-!
# Where the inputs of a formula stand

An input of a formula is an argument or a free variable, and it has its
place among the inputs. Code with its inputs filled in (`Code.fill`) has no
places any more, so the code of an expression comes to the same whichever
of its variables are arguments, if each variable has the same value
(`Plan.eval_inputs`). The same operations are carried out on the same
numbers, which makes this an equation between binary64 numbers.

A call with a number for a single argument is then a call with a variable
of this value (`Prepared.call_argument`): a number has no part in the shape
of the result, and the first of the variables without a value is the same.
-/

namespace FieldScript

/-! ## Code with its inputs filled in -/

namespace Code

variable {α : Type} [Scalar α]

mutual

/-- The code with the values of the inputs in their places. -/
def fill (inputs : List α) : Code α → Code α
  | literal v => literal v
  | input i => literal ((inputs[i]?).getD Scalar.undefined)
  | unary f a => unary f (fill inputs a)
  | binary f a b => binary f (fill inputs a) (fill inputs b)
  | gather f as => gather f (fillList inputs as)

def fillList (inputs : List α) : List (Code α) → List (Code α)
  | [] => []
  | a :: as => fill inputs a :: fillList inputs as

end

variable {inputs : List α}

@[simp] theorem fill_literal (v : α) : (literal v).fill inputs = literal v := rfl

@[simp] theorem fill_unary (f : α → α) (a : Code α) :
    (unary f a).fill inputs = unary f (a.fill inputs) := rfl

@[simp] theorem fill_binary (f : α → α → α) (a b : Code α) :
    (binary f a b).fill inputs = binary f (a.fill inputs) (b.fill inputs) := rfl

theorem fillList_eq_map (cs : List (Code α)) : fillList inputs cs = cs.map (fill inputs) := by
  induction cs with
  | nil => rfl
  | cons c cs ih => rw [fillList, ih, List.map_cons]

@[simp] theorem fill_gather (f : List α → α) (as : List (Code α)) :
    (gather f as).fill inputs = gather f (as.map (fill inputs)) := by
  rw [fill, fillList_eq_map]

mutual

/-- Nothing is left to read. -/
theorem eval_fill (others : List α) : ∀ c : Code α, (c.fill inputs).eval others = c.eval inputs
  | literal _ | input _ => rfl
  | unary f a => congrArg f (eval_fill others a)
  | binary f a b => congrArg₂ f (eval_fill others a) (eval_fill others b)
  | gather f as => congrArg f (evalList_fillList others as)

theorem evalList_fillList (others : List α) :
    ∀ cs : List (Code α), evalList others (fillList inputs cs) = evalList inputs cs
  | [] => rfl
  | c :: cs => congrArg₂ List.cons (eval_fill others c) (evalList_fillList others cs)

end

@[simp] theorem fill_joined (f : α → α → α) (cs : List (Code α)) :
    (joined f cs).fill inputs = joined f (cs.map (fill inputs)) := by
  have hfold : ∀ (cs : List (Code α)) (c : Code α),
      (cs.foldl (binary f) c).fill inputs = (cs.map (fill inputs)).foldl (binary f) (c.fill inputs) := by
    intro cs
    induction cs with
    | nil => intro c; rfl
    | cons d ds ih => intro c; exact ih (binary f c d)
  cases cs with
  | nil => rfl
  | cons c cs => exact hfold cs c

end Code

namespace Expr

variable {α : Type} [Scalar α] {inputs : List α} {plane : Float → Float → α}

/-! ## Code of operations -/

theorem fill_powerCode (b : Code α) (bExpr x : Expr) (xCode : Code α) :
    (powerCode b bExpr x xCode plane).fill inputs =
      powerCode (b.fill inputs) bExpr x (xCode.fill inputs) plane := by
  unfold powerCode
  split
  · rfl
  · split
    · rfl
    · split <;> rfl
  · rfl

/-- A factor whose code is filled in. -/
def filledFactor (inputs : List α) (p : Expr × Code α) : Expr × Code α := (p.1, p.2.fill inputs)

theorem splitSign_filled (fs : List (Expr × Code α)) :
    splitSign (fs.map (filledFactor inputs)) =
      ((splitSign fs).1, (splitSign fs).2.map (filledFactor inputs)) := by
  cases fs with
  | nil => rfl
  | cons p fs =>
      obtain ⟨e, c⟩ := p
      cases e with
      | num n =>
          simp only [List.map_cons, filledFactor, splitSign]
          split
          · split <;> rfl
          · rfl
      | _ => rfl

/-- What is no power to an exact number stands in the numerator. -/
theorem splitQuotient_other {e : Expr} (c : Code α) (fs : List (Expr × Code α))
    (he : ∀ b r, e ≠ pow b (num (.exact r))) : splitQuotient plane ((e, c) :: fs) =
      (c :: (splitQuotient plane fs).1, (splitQuotient plane fs).2) := by
  rw [splitQuotient]
  cases splitQuotient plane fs with
  | mk above below =>
      dsimp only
      split
      · exact (he _ _ rfl).elim
      · exact (he _ _ rfl).elim
      · rfl

theorem splitQuotient_filled (fs : List (Expr × Code α)) :
    splitQuotient plane (fs.map (filledFactor inputs)) =
      ((splitQuotient plane fs).1.map (Code.fill inputs), (splitQuotient plane fs).2.map (Code.fill inputs)) := by
  induction fs with
  | nil => rfl
  | cons p fs ih =>
      obtain ⟨e, c⟩ := p
      rw [List.map_cons, filledFactor]
      by_cases hpower : ∃ b r, e = pow b (num (.exact r))
      · obtain ⟨b, r, rfl⟩ := hpower
        -- filling in does not change the form of a code
        cases c with
        | binary f c d =>
            simp only [Code.fill_binary, splitQuotient, ih]
            split
            · split
              · simp
              · simp [fill_powerCode]
            · simp
        | unary f c =>
            simp only [Code.fill_unary, splitQuotient, ih]
            split <;> simp
        | literal v => simp [splitQuotient, ih]
        | input i => simp [splitQuotient, ih, Code.fill]
        | gather f cs => simp [splitQuotient, ih]
      · have hother : ∀ b r, e ≠ pow b (num (.exact r)) := fun b r he => hpower ⟨b, r, he⟩
        rw [splitQuotient_other _ _ hother, splitQuotient_other _ _ hother, ih]
        rfl

theorem fill_quotientCode (negative : Bool) (above below : List (Code α)) :
    (quotientCode negative above below).fill inputs =
      quotientCode negative (above.map (Code.fill inputs)) (below.map (Code.fill inputs)) := by
  unfold quotientCode
  cases above <;> cases below <;> cases negative <;> simp

theorem fill_productCode (fs : List (Expr × Code α)) :
    (productCode plane fs).fill inputs = productCode plane (fs.map (filledFactor inputs)) := by
  simp only [productCode, splitSign_filled, splitQuotient_filled, fill_quotientCode]

/-- The code of an operation is filled in where its operands are. -/
theorem fill_operationCode (h : Head) (as : List Expr) (cs : List (Code α)) :
    (operationCode plane h as cs).fill inputs = operationCode plane h as (cs.map (Code.fill inputs)) := by
  cases h with
  | add => exact Code.fill_joined _ cs
  | mul =>
      show (productCode plane (as.zip cs)).fill inputs = productCode plane (as.zip (cs.map _))
      rw [fill_productCode, List.zip_map_right]
      rfl
  | pow =>
      rcases as with - | ⟨b, - | ⟨x, - | ⟨a, as⟩⟩⟩
      · rfl
      · rfl
      · rcases cs with - | ⟨c, - | ⟨d, - | ⟨e, cs⟩⟩⟩
        · rfl
        · rfl
        · exact fill_powerCode c b x d
        · rfl
      · rfl
  | fn f =>
      by_cases hjoins : f = .max ∨ f = .min
      · obtain rfl | rfl := hjoins <;> exact Code.fill_joined _ cs
      · rcases cs with - | ⟨c, - | ⟨d, - | ⟨e, cs⟩⟩⟩ <;> cases f <;> first | rfl | simp at hjoins
  | rel r =>
      rcases cs with - | ⟨c, - | ⟨d, - | ⟨e, cs⟩⟩⟩ <;> rfl
  | select => exact Code.fill_gather _ cs
  | conj => exact Code.fill_gather _ cs
  | disj => exact Code.fill_gather _ cs
  | negation => rcases cs with - | ⟨c, - | ⟨d, cs⟩⟩ <;> rfl
  | _ => rfl

/-! ## Code of expressions -/

/-- Only a function that stands for itself hides variables. -/
theorem mem_freeVars_node {h : Head} {as : List Expr} {n : String} (hn : n ∈ (node h as).freeVars) :
    ∃ a ∈ as, n ∈ a.freeVars := by
  cases h with
  | closure ps => exact mem_freeVarsList.mp (List.mem_filter.mp hn).1
  | _ => exact mem_freeVarsList.mp hn

/-- The order of evaluation brings no variable along. -/
theorem freeVars_arranged {e : Expr} {n : String} (hn : n ∈ e.arranged.freeVars) : n ∈ e.freeVars := by
  induction e using nodeInduction with
  | leaf e hleaf =>
      cases e with
      | node k as => exact absurd rfl (hleaf k as)
      | _ => exact hn
  | node k as ih =>
      have hlist : n ∈ freeVarsList (arrangedList as) → n ∈ freeVarsList as := by
        intro hn
        obtain ⟨a, ha, hn⟩ := mem_freeVarsList.mp hn
        rw [arrangedList_eq_map] at ha
        obtain ⟨b, hb, rfl⟩ := List.mem_map.mp ha
        exact mem_freeVarsList.mpr ⟨b, hb, ih b hb hn⟩
      cases k with
      | add =>
          obtain ⟨a, ha, hn⟩ := mem_freeVarsList.mp hn
          exact hlist (mem_freeVarsList.mpr ⟨a, (sortTerms_perm _).mem_iff.mp ha, hn⟩)
      | mul =>
          obtain ⟨a, ha, hn⟩ := mem_freeVarsList.mp hn
          exact hlist (mem_freeVarsList.mpr ⟨a, (sortByKey_perm _).mem_iff.mp ha, hn⟩)
      | closure ps =>
          obtain ⟨hn, hps⟩ := List.mem_filter.mp hn
          exact List.mem_filter.mpr ⟨hlist hn, hps⟩
      | _ => exact hlist hn

theorem codes_eq_map (place : String → Nat) (es : List Expr) :
    codes place plane es = es.map (toCode place plane) := by
  induction es with
  | nil => rfl
  | cons e es ih => rw [codes, ih, List.map_cons]

/-- Filled in, the code depends on the values of the variables, wherever
they stand. -/
theorem fill_toCode {inputs inputs' : List α} {place place' : String → Nat} {e : Expr}
    (h : ∀ n ∈ e.freeVars, (inputs[place n]?).getD Scalar.undefined =
      (inputs'[place' n]?).getD Scalar.undefined) :
    (e.toCode place plane).fill inputs = (e.toCode place' plane).fill inputs' := by
  induction e using nodeInduction with
  | leaf e hleaf =>
      cases e with
      | node k as => exact absurd rfl (hleaf k as)
      | var n => exact congrArg Code.literal (h n (List.mem_singleton.mpr rfl))
      | _ => rfl
  | node k as ih =>
      have hoperands : (∀ a ∈ as, ∀ n ∈ a.freeVars, n ∈ (node k as).freeVars) →
          (codes place plane as).map (Code.fill inputs) = (codes place' plane as).map (Code.fill inputs') := by
        intro hmem
        rw [codes_eq_map, codes_eq_map, List.map_map, List.map_map]
        exact List.map_congr_left fun a ha => ih a ha fun n hn => h n (hmem a ha n hn)
      cases k with
      | closure ps => rfl
      | _ =>
          rw [toCode, toCode, fill_operationCode, fill_operationCode,
            hoperands fun a ha n hn => mem_freeVarsList.mpr ⟨a, ha, hn⟩]

end Expr

/-! ## Formulas -/

theorem Formula.getElem?_place {β : Type} {f : Formula} {n : String} (hn : n ∈ f.inputs) (value : String → β) :
    (f.inputs.map value)[f.place n]? = some (value n) :=
  getElem?_findIdx_of_lookup (lookup_zip_self hn value)

/-- A formula comes to the same with other variables as arguments. -/
theorem Plan.eval_inputs (text text' : String) (args args' : List String) (e : Expr) (value : String → Float) :
    (ofFormula (.ofExpr text args e)).eval ((Formula.ofExpr text args e).inputs.map value) =
      (ofFormula (.ofExpr text' args' e)).eval ((Formula.ofExpr text' args' e).inputs.map value) := by
  have hcode : ∀ {α : Type} [Scalar α] (plane : Float → Float → α) (value : String → α),
      ((Formula.ofExpr text args e).code plane).eval ((Formula.ofExpr text args e).inputs.map value) =
        ((Formula.ofExpr text' args' e).code plane).eval ((Formula.ofExpr text' args' e).inputs.map value) := by
    intro α _ plane value
    rw [← Code.eval_fill [] (Formula.code _ plane), ← Code.eval_fill [] (Formula.code _ plane)]
    refine congrArg (Code.eval []) (Expr.fill_toCode fun n hn => ?_)
    have hn : n ∈ e.freeVars := Expr.freeVars_arranged hn
    rw [Formula.getElem?_place (Formula.mem_inputs hn), Formula.getElem?_place (Formula.mem_inputs hn)]
  unfold ofFormula
  rw [show (Formula.ofExpr text args e).expr = e from rfl, show (Formula.ofExpr text' args' e).expr = e from rfl]
  split
  · simp only [eval, List.map_map, hcode]
  · simp only [eval, hcode]

/-- An argument is no free variable; the others keep their order. -/
theorem Formula.free_argument (text : String) (n : String) (e : Expr) :
    (ofExpr text [n] e).free = (ofExpr text [] e).free.filter (· != n) := by
  have hsorted : ∀ args, (ofExpr text args e).free.Pairwise (· ≤ ·) := fun args =>
    List.pairwise_mergeSort' (· ≤ ·) _
  refine List.Perm.eq_of_pairwise' (hsorted [n]) ((hsorted []).filter _) ?_
  refine (List.mergeSort_perm _ _).trans ?_
  refine List.Perm.trans ?_ ((List.mergeSort_perm _ _).filter _).symm
  rw [List.filter_filter]
  refine List.Perm.of_eq (List.filter_congr fun m _ => ?_)
  by_cases hm : m = n <;> simp [hm]

/-! ## Calls -/

/-- Numbers have no part in the common shape. -/
theorem Samples.commonShape?_filter (shapes : List (List Nat)) :
    commonShape? (shapes.filter (· ≠ [])) = commonShape? shapes := by
  have hfold : ∀ shape, (shapes.filter (· ≠ [])).foldlM joinShapes? shape =
      shapes.foldlM joinShapes? shape := by
    induction shapes with
    | nil => exact fun _ => rfl
    | cons s shapes ih =>
        intro shape
        by_cases hs : s = []
        · rw [List.filter_cons_of_neg (by simpa using hs), ih, List.foldlM_cons, hs, joinShapes?_nil]
          rfl
        · rw [List.filter_cons_of_pos (by simpa using hs), List.foldlM_cons, List.foldlM_cons]
          exact congrArg _ (funext ih)
  exact hfold []

/-- An inserted value is found under its name. -/
theorem Assignment.lookup_insert_self (a : Assignment) (n : String) (v : Samples) :
    (a.insert n v).lookup n = some v := by
  rw [insert]
  split
  · rename_i hany
    induction a with
    | nil => cases hany
    | cons p a ih =>
        rw [List.map_cons]
        by_cases hp : p.1 = n
        · rw [if_pos (beq_iff_eq.mpr hp), List.lookup_cons, beq_self_eq_true]
        · have hother : (n == p.1) = false := beq_eq_false_iff_ne.mpr (Ne.symm hp)
          rw [if_neg (by simpa using hp), List.lookup_cons, hother]
          exact ih (by simpa [hp] using hany)
  · rename_i hany
    have hnone : List.lookup n a = none := by
      rw [List.lookup_eq_none_iff]
      intro p hp
      rw [bne_iff_ne]
      rintro rfl
      exact hany (List.any_eq_true.mpr ⟨p, hp, beq_self_eq_true _⟩)
    rw [List.lookup_append, hnone]
    simp

namespace Prepared

/-- The value of a name; a missing one counts as any. -/
def valueIn (environment : Assignment) (n : String) : Samples := (environment.lookup n).getD default

/-- A call fails at the first variable without a value, or in the formula, or
it computes the formula place by place. -/
theorem call_eq (p : Prepared) (environment : Assignment) {values : List Samples}
    (hlength : values.length = p.formula.args.length) : p.call environment values =
      match p.formula.free.find? fun n => (environment.lookup n).isNone with
      | some n => .error (.expression (.undefinedVariable n p.formula.text))
      | none =>
        match p.fault with
        | some f => .error f
        | none => Samples.tabulate? (values ++ p.formula.free.map (valueIn environment))
            fun xs => .ok (p.plan.eval xs) := by
  have hvalues : p.freeValues (fun n => environment.lookup n) =
      match p.formula.free.find? fun n => (environment.lookup n).isNone with
      | some n => .error (.expression (.undefinedVariable n p.formula.text))
      | none => .ok (p.formula.free.map (valueIn environment)) := by
    rw [freeValues]
    induction p.formula.free with
    | nil => rfl
    | cons n ns ih =>
        rw [List.mapM_cons, ih, List.find?_cons, List.map_cons, valueIn]
        cases environment.lookup n with
        | none => rfl
        | some v =>
            dsimp only [Option.isNone_some]
            cases ns.find? fun n => (environment.lookup n).isNone <;> rfl
  have hcall : p.call environment values = (do
      let inputs ← p.inputs (fun n => environment.lookup n) values
      Samples.tabulate? inputs fun xs => .ok (p.plan.eval xs)) := rfl
  rw [hcall, inputs, hlength, bne_self_eq_false, hvalues]
  cases p.formula.free.find? fun n => (environment.lookup n).isNone with
  | some n => rfl
  | none => cases p.fault <;> rfl

section Argument

variable {text : String} {e : Expr} {n : String} {value : String → Samples}

/-- A number has no part in the shape of the inputs, whether it is an
argument or a variable. -/
theorem commonShape?_inputs (hn : (value n).shape = []) :
    Samples.commonShape? (((Formula.ofExpr text [n] e).inputs.map value).map Samples.shape) =
      Samples.commonShape? (((Formula.ofExpr text [] e).inputs.map value).map Samples.shape) := by
  rw [← Samples.commonShape?_filter, ← Samples.commonShape?_filter (List.map _ (List.map value _))]
  simp only [List.map_map, List.filter_map]
  refine congrArg (fun ns => Samples.commonShape? (List.map (Samples.shape ∘ value) ns)) ?_
  have hargs : (Formula.ofExpr text [n] e).inputs =
      n :: (Formula.ofExpr text [] e).inputs.filter (· != n) := by
    rw [Formula.inputs, Formula.free_argument]
    rfl
  rw [hargs, List.filter_cons_of_neg (by simp [hn]), List.filter_filter]
  refine List.filter_congr fun m _ => ?_
  by_cases hm : m = n
  · simp [hm, hn]
  · simp [hm]

theorem tabulate?_inputs (hn : (value n).shape = []) :
    (Samples.tabulate? ((Formula.ofExpr text [n] e).inputs.map value) fun xs =>
        .ok ((Plan.ofFormula (.ofExpr text [n] e)).eval xs)) =
      Samples.tabulate? ((Formula.ofExpr text [] e).inputs.map value) fun xs =>
        .ok ((Plan.ofFormula (.ofExpr text [] e)).eval xs) := by
  have hshapes : Samples.commonShape? (((Formula.ofExpr text [n] e).inputs.map value).map Samples.shape) =
      Samples.commonShape? (((Formula.ofExpr text [] e).inputs.map value).map Samples.shape) :=
    commonShape?_inputs hn
  cases hshape : Samples.commonShape?
      (((Formula.ofExpr text [] e).inputs.map value).map Samples.shape) with
  | none =>
      rw [hshape] at hshapes
      rw [Samples.tabulate?, Samples.tabulate?, hshapes, hshape]
  | some shape =>
      rw [hshape] at hshapes
      rw [Samples.tabulate?_eq hshapes, Samples.tabulate?_eq hshape]
      simp only [List.map_map]
      have hplans : ∀ i : Nat, _ := fun i =>
        Plan.eval_inputs text text [n] [] e fun m => (value m).reader shape i
      simp only [Function.comp_def, hplans]

end Argument

/-- A number for the argument does what a variable of its name with this
value does. -/
theorem call_argument (text : String) (e : Expr) (n : String) (v : Float) (environment : Assignment) :
    (ofExpr text [n] e >>= fun p => p.call environment [.scalar v]) =
      (ofExpr text [] e >>= fun p => p.call (environment.insert n (.scalar v)) []) := by
  unfold ofExpr
  cases e.compileFault? with
  | some f => rfl
  | none =>
      have hself := environment.lookup_insert_self n (.scalar v)
      have hothers := Assignment.agreeBeside_insert n environment (.scalar v)
      show call ⟨.ofExpr text [n] e, _, _⟩ environment [.scalar v] =
        call ⟨.ofExpr text [] e, _, _⟩ (environment.insert n (.scalar v)) []
      rw [call_eq _ _ rfl, call_eq _ _ rfl]
      dsimp only
      have hmissing : (Formula.ofExpr text [n] e).free.find? (fun m => (environment.lookup m).isNone) =
          (Formula.ofExpr text [] e).free.find?
            fun m => (List.lookup m (environment.insert n (.scalar v))).isNone := by
        rw [Formula.free_argument, List.find?_filter]
        refine congrArg (List.find? · _) (funext fun m => ?_)
        by_cases hm : m = n
        · simp [hm, hself]
        · simp [hm, hothers m hm]
      rw [hmissing]
      have hn : valueIn (environment.insert n (.scalar v)) n = .scalar v := by
        rw [valueIn, hself, Option.getD_some]
      have hinputs : [Samples.scalar v] ++ (Formula.ofExpr text [n] e).free.map (valueIn environment) =
          (Formula.ofExpr text [n] e).inputs.map (valueIn (environment.insert n (.scalar v))) := by
        show _ = valueIn (environment.insert n (.scalar v)) n :: (Formula.ofExpr text [n] e).free.map _
        rw [hn]
        refine congrArg (List.cons _) (List.map_congr_left fun m hm => ?_)
        have hne : m ≠ n := fun heq => (Program.mem_free.mp hm).2 (List.mem_singleton.mpr heq)
        rw [valueIn, valueIn, hothers m hne]
      rw [hinputs, List.nil_append]
      have hshape : (valueIn (environment.insert n (.scalar v)) n).shape = [] := congrArg Samples.shape hn
      rw [tabulate?_inputs hshape]
      rfl

end Prepared
end FieldScript
