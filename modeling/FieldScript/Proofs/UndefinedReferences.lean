import FieldScript.Proofs.BoundBodies
import FieldScript.Proofs.CallHistories
import Mathlib.Logic.Relation

/-!
# References to undefined definitions

A definition is undefined if it mentions one that is unbound, or one that is
undefined itself (`Evaluator.Undefined`). A call of a definition fails as an
expression does in two ways only: the definition is unbound, or a name that
its callable reads has no value (`Prepared.call_fault_iff`). So a definition
fails in every call, whatever the variables are, exactly if it is unbound or
its callable still reads an undefined name (`Evaluator.raises_iff`).

The rest of the way is one step at a time: where each definition on the way
fails because one that it mentions does, all on the way fail. Binding may
cut the way, for a body is bound to what is left of it, and a reference that
is multiplied by zero is not.
-/

namespace FieldScript

/-- The failure of an expression, and of nothing else. -/
def Failure.isExpression : Failure → Bool
  | expression _ => true
  | _ => false

/-! ## What is not a failure of an expression -/

theorem isExpression_of_isArithmetic {f : Failure} (h : f.isArithmetic = true) : f.isExpression = false := by
  cases f <;> first | rfl | cases h

theorem isExpression_operationFault? {e : Expr} {f : Failure} (h : e.operationFault? = some f) :
    f.isExpression = false := by
  unfold Expr.operationFault? at h
  split at h
  · split at h
    · cases h
    · exact Option.some.inj h ▸ rfl
  · exact Option.some.inj h ▸ rfl
  · exact Option.some.inj h ▸ rfl
  · exact Option.some.inj h ▸ rfl
  · exact isExpression_of_isArithmetic (Evaluator.plainPowerFault?_isArithmetic h)
  · exact Evaluator.conditionFault?_eq h ▸ rfl
  · cases h

theorem isExpression_callFault? (e : Expr) : ∀ {f : Failure}, e.callFault? = some f →
    f.isExpression = false := by
  induction e using Expr.nodeInduction with
  | leaf e hleaf =>
      intro f hf
      rw [Expr.callFault?.eq_def] at hf
      split at hf
      · exact absurd rfl (hleaf _ _)
      · exact absurd rfl (hleaf _ _)
      · exact isExpression_operationFault? hf
  | node head as ih =>
      intro f hf
      rw [Expr.callFault?.eq_def] at hf
      split at hf
      · exact Option.some.inj hf ▸ rfl
      · rename_i heq
        cases heq
        split at hf
        · exact Option.some.inj hf ▸ rfl
        · rcases Option.or_eq_some_iff.mp hf with hargs | ⟨-, hop⟩
          · obtain ⟨a, ha, hfa⟩ := Evaluator.exists_of_callFaultList? hargs
            exact ih a ha hfa
          · exact isExpression_operationFault? hop
      · exact isExpression_operationFault? hf

theorem isExpression_compileFault? {e : Expr} {f : Failure} (h : e.compileFault? = some f) :
    f.isExpression = false := by
  unfold Expr.compileFault? at h
  split at h
  · exact Option.some.inj h ▸ rfl
  · split at h
    · exact Option.some.inj h ▸ rfl
    · cases h

theorem isExpression_tabulate? {args : List Samples} {g : List Float → Float} {f : Failure}
    (h : Samples.tabulate? args (fun inputs => .ok (g inputs)) = .error f) : f.isExpression = false := by
  unfold Samples.tabulate? at h
  split at h
  · exact Except.error.inj h ▸ rfl
  · rcases bind_eq_error.mp h with h | ⟨_, _, h⟩
    · obtain ⟨-, _, -, -, -, h⟩ := mapM_eq_error.mp h
      cases h
    · cases h

namespace Prepared

variable {p : Prepared} {text : String} {args : List String} {e : Expr} {environment overrides : Assignment}
  {values : List Samples}

/-- Compiling an expression does not fail as an expression does, and what
is wrong with the callable is nothing of the kind either. -/
theorem isExpression_ofExpr :
    (∀ f, ofExpr text args e = .error f → f.isExpression = false) ∧
    ∀ p, ofExpr text args e = .ok p → p.formula.args = args ∧
      ∀ f, p.fault = some f → f.isExpression = false := by
  unfold ofExpr
  split
  · rename_i g hg
    exact ⟨fun f hf => Except.error.inj hf ▸ isExpression_compileFault? hg, fun p hp => (by cases hp)⟩
  · split
    · exact ⟨fun f hf => Except.error.inj hf ▸ rfl, fun p hp => (by cases hp)⟩
    · refine ⟨fun f hf => (by cases hf), fun p hp => ?_⟩
      obtain rfl := Except.ok.inj hp
      exact ⟨rfl, fun f hf => isExpression_callFault? e hf⟩

/-- The free variables have values, or it is an expression that fails. -/
theorem freeValues_fault_iff {β : Type} {find? : String → Option β} :
    (∃ f, p.freeValues find? = .error f ∧ f.isExpression = true) ↔
      ∃ n ∈ p.formula.free, find? n = none := by
  constructor
  · rintro ⟨f, hf, -⟩
    obtain ⟨before, n, after, hsplit, -, hn⟩ := mapM_eq_error.mp hf
    refine ⟨n, hsplit ▸ List.mem_append_right _ List.mem_cons_self, ?_⟩
    cases hvalue : find? n with
    | none => rfl
    | some v => rw [hvalue] at hn; cases hn
  · rintro ⟨n, hn, hnone⟩
    cases hvalues : p.freeValues find? with
    | error f =>
        obtain ⟨-, m, -, -, -, hm⟩ := mapM_eq_error.mp hvalues
        split at hm
        · cases hm
        · exact ⟨f, rfl, Except.error.inj hm ▸ rfl⟩
    | ok vs =>
        obtain ⟨v, -, hv⟩ := (mem_of_mapM_ok hvalues).1 n hn
        rw [hnone] at hv
        cases hv

/-- A call with as many values as there are arguments fails as an expression
does exactly if a name that it reads has no value. -/
theorem call_fault_iff (hfault : ∀ f, p.fault = some f → f.isExpression = false)
    (hlength : values.length = p.formula.args.length)
    (hself : (overrides.any fun o => ownNames.contains o.1) = false) :
    (∃ f, p.call environment values overrides = .error f ∧ f.isExpression = true) ↔
      ∃ n ∈ p.formula.free, overrides.lookup n = none ∧ environment.lookup n = none := by
  have hreads : ∀ n, overrides.lookup n = none ∧ environment.lookup n = none ↔
      (overrides.lookup n).or (environment.lookup n) = none := fun n => Option.or_eq_none_iff.symm
  simp only [hreads]
  rw [← freeValues_fault_iff]
  cases hvalues : p.freeValues fun n => (overrides.lookup n).or (environment.lookup n) with
  | error f =>
      have hinputs : p.inputs (fun n => (overrides.lookup n).or (environment.lookup n)) values = .error f := by
        rw [inputs, hlength, bne_self_eq_false, hvalues]
        rfl
      have hcall : p.call environment values overrides = .error f := by
        rw [call, hself, if_neg Bool.false_ne_true, hinputs]
        rfl
      rw [hcall]
      constructor <;> rintro ⟨g, hg, hexpression⟩ <;> exact ⟨g, congrArg _ (Except.error.inj hg), hexpression⟩
  | ok free =>
      refine ⟨?_, fun ⟨f, hf, _⟩ => (by cases hf)⟩
      rintro ⟨f, hf, hexpression⟩
      rw [call, hself, if_neg Bool.false_ne_true] at hf
      have hnot : f.isExpression = false := by
        rcases bind_eq_error.mp hf with hf | ⟨_, _, hf⟩
        · rw [inputs, hlength, bne_self_eq_false, hvalues] at hf
          cases hp : p.fault with
          | none => rw [hp] at hf; cases hf
          | some g => rw [hp] at hf; exact Except.error.inj hf ▸ hfault g hp
        · exact isExpression_tabulate? hf
      rw [hnot] at hexpression
      cases hexpression

end Prepared

/-- A scalar function or a constant. -/
def NamedFunction.IsScalar (fn : NamedFunction) : Prop := fn.kind = .scalar ∨ fn.kind = .constant

instance (fn : NamedFunction) : Decidable fn.IsScalar :=
  inferInstanceAs (Decidable (fn.kind = .scalar ∨ fn.kind = .constant))

instance (fn : NamedFunction) (n : String) : Decidable (Definitions.Mentions fn n) :=
  inferInstanceAs (Decidable (n ∉ fn.params ∧ ∃ t ∈ tokenizeText fn.body, t.kind = .ident ∧ t.value = n))

namespace Evaluator

variable {ev ev' : Evaluator} {done : List String} {fn : NamedFunction} {d : String}

/-! ## Bound or not -/

/-- Each scalar function and constant of these names is bound with its
parameters, or it is among the unbound ones; no other name is. -/
structure Decided (ev : Evaluator) (done : List String) : Prop where
  scalar : ∀ n ∈ done, ∀ fn, ev.definitions.get? n = some fn → fn.IsScalar →
    (∃ reason, ev.unbound.lookup n = some reason) ∨
      ev.unbound.lookup n = none ∧ ∃ e, ev.bindings.lookup n = some ⟨fn.params, e⟩
  unbound : ∀ n, n ∉ done → ev.unbound.lookup n = none

theorem sameBindings_readKept (ev : Evaluator) (text : String) (params : List String) :
    SameBindings ev (ev.readKept text params).2 := by
  rw [readKept]
  split <;> exact ⟨rfl, rfl, rfl, rfl⟩

theorem sameBindings_readAll (ev : Evaluator) (params texts : List String) :
    SameBindings ev (ev.readAll params texts).2 :=
  readAll_preserves (P := SameBindings ev)
    (fun text _ ev₁ h => h.trans (sameBindings_readKept ev₁ text params)) ⟨rfl, rfl, rfl, rfl⟩

/-- One more name is decided, where the others stay as they are. -/
theorem Decided.extend (h : ev.Decided done) (hdefinitions : ev'.definitions = ev.definitions)
    (hbindings : ∀ n ∈ done, ev'.bindings.lookup n = ev.bindings.lookup n)
    (hunbound : ∀ n, n ≠ d → ev'.unbound.lookup n = ev.unbound.lookup n) (hnew : d ∉ done)
    (hd : ∀ fn, ev'.definitions.get? d = some fn → fn.IsScalar →
      (∃ reason, ev'.unbound.lookup d = some reason) ∨
        ev'.unbound.lookup d = none ∧ ∃ e, ev'.bindings.lookup d = some ⟨fn.params, e⟩) :
    ev'.Decided (done ++ [d]) where
  scalar n hn fn hget hscalar := by
    rcases (mem_append_singleton done d n).mp hn with hold | rfl
    · have hne : n ≠ d := fun heq => hnew (heq ▸ hold)
      rw [hunbound n hne, hbindings n hold]
      exact h.scalar n hold fn (hdefinitions ▸ hget) hscalar
    · exact hd fn hget hscalar
  unbound n hn := by
    obtain ⟨hold, hne⟩ := not_or.mp (mt (mem_append_singleton done d n).mpr hn)
    rw [hunbound n hne, h.unbound n hold]

theorem Decided.bind {ws : List String} (h : ev.Decided done) (hget : ev.definitions.get? fn.name = some fn)
    (hnew : fn.name ∉ done) (hbind : ev.bind fn = .ok (ev', ws)) : ev'.Decided (done ++ [fn.name]) := by
  have hleft : ∀ {ev₁ : Evaluator} (f : ExpressionFault), SameBindings ev ev₁ →
      (ev₁.leaveUnbound fn f).1.Decided (done ++ [fn.name]) := by
    rintro ev₁ f ⟨hdefinitions, -, hbindings, hunbound⟩
    refine h.extend hdefinitions (fun n _ => congrArg (List.lookup n) hbindings) (fun n hn => ?_) hnew
      fun _ _ _ => Or.inl ⟨f.message, (lookup_put _ _ _ _).trans (if_pos rfl)⟩
    exact ((lookup_put _ _ _ _).trans (if_neg hn)).trans (congrArg (List.lookup n) hunbound)
  rcases field_or_scalar fn with hfield | hscalar
  · have hsame := sameBindings_readAll ev fn.params fn.texts
    rcases bind_field_ok hfield hbind with ⟨es, rfl⟩ | ⟨f, rfl⟩
    · obtain ⟨hdefinitions, -, hbindings, hunbound⟩ := hsame
      refine h.extend hdefinitions (fun n _ => congrArg (List.lookup n) hbindings)
        (fun n _ => congrArg (List.lookup n) hunbound) hnew fun fn' hget' hscalar => ?_
      dsimp only at hget'
      rw [hdefinitions, hget] at hget'
      obtain rfl := Option.some.inj hget'
      rcases hfield with hkind | hkind <;> rcases hscalar with hkind' | hkind' <;> rw [hkind] at hkind' <;>
        cases hkind'
    · exact hleft f hsame
  · have hsame := sameBindings_readKept ev fn.body fn.params
    rcases bind_scalar_ok hscalar hbind with ⟨e, -, -, rfl⟩ | ⟨f, -, rfl⟩
    · obtain ⟨hdefinitions, -, hbindings, hunbound⟩ := hsame
      refine h.extend hdefinitions (fun n hn => ?_) (fun n _ => congrArg (List.lookup n) hunbound) hnew
        fun fn' hget' _ => Or.inr ⟨?_, e, ?_⟩
      · have hne : n ≠ fn.name := fun heq => hnew (heq ▸ hn)
        exact ((lookup_put _ _ _ _).trans (if_neg hne)).trans (congrArg (List.lookup n) hbindings)
      · exact (congrArg (List.lookup fn.name) hunbound).trans (h.unbound _ hnew)
      · dsimp only at hget'
        rw [hdefinitions, hget] at hget'
        obtain rfl := Option.some.inj hget'
        exact (lookup_put _ _ _ _).trans (if_pos rfl)
    · exact hleft f hsame

theorem decided_of_ofDefinitions {ds : Definitions} {environment : Assignment} {A : Algebra}
    {ws : List String} (hnames : ds.names.Nodup) (h : ofDefinitions ds environment A = .ok (ev, ws)) :
    ev.definitions = ds ∧ ev.prepared = [] ∧ ev.Decided ds.names := by
  obtain ⟨order, horder, hbind⟩ := bind_eq_ok.mp h
  have hperm := (Definitions.order_ok horder).1
  have hempty : Decided ⟨ds, order, [], [], [], [], [], environment, A⟩ [] :=
    ⟨fun n hn => (nomatch hn), fun _ _ => rfl⟩
  have hall : ev.Decided order :=
    bindAll_preserves (P := fun ev done => ev.Decided done) (hperm.nodup_iff.mpr hnames)
      (fun _ _ _ _ hnew _ _ _ hdecided hget hstep => hdecided.bind hget hnew hstep) hempty rfl hbind
  obtain ⟨hdefinitions, hprepared⟩ := (bindsOnly_of_bindAll hbind).sameCallables
  refine ⟨hdefinitions, hprepared, fun n hn => hall.scalar n (hperm.mem_iff.mpr hn), fun n hn => ?_⟩
  exact hall.unbound n (mt hperm.mem_iff.mp hn)

/-! ## The callable of a definition -/

theorem isExpression_prepareBinding {b : Binding} :
    (∀ f, prepareBinding fn b = .error f → f.isExpression = false) ∧
    ∀ p, prepareBinding fn b = .ok p → p.formula.args = fn.params ∧
      ∀ f, p.fault = some f → f.isExpression = false := by
  unfold prepareBinding
  split
  · split
    · split
      · refine ⟨fun f hf => ?_, fun p hp => ?_⟩
        · rcases bind_eq_error.mp hf with hf | ⟨_, _, hf⟩
          · exact Prepared.isExpression_ofExpr.1 f hf
          · cases hf
        · obtain ⟨p', hp', hp⟩ := bind_eq_ok.mp hp
          cases hp
          exact ⟨(Prepared.isExpression_ofExpr.2 p' hp').1, fun f hf => Option.some.inj hf ▸ rfl⟩
      · exact Prepared.isExpression_ofExpr
    · exact Prepared.isExpression_ofExpr
  · exact Prepared.isExpression_ofExpr

/-- There is no callable of a field, nor of an unbound definition; that of
another one is made of its binding. -/
theorem Decided.function (h : ev.Decided done) (hprepared : ev.prepared = []) (hd : d ∈ done)
    (hget : ev.definitions.get? d = some fn) :
    ((¬ fn.IsScalar ∨ ∃ reason, ev.unbound.lookup d = some reason) ∧
        ∃ f, (ev.function d).1 = .error f ∧ f.isExpression = true) ∨
      (fn.IsScalar ∧ ev.unbound.lookup d = none ∧ ∃ b, (ev.function d).1 = prepareBinding fn b) := by
  by_cases hscalar : fn.IsScalar
  · have hkind : [DefinitionKind.scalar, DefinitionKind.constant].contains fn.kind = true := by
      rcases hscalar with hkind | hkind <;> rw [hkind] <;> rfl
    rcases h.scalar d hd fn hget hscalar with ⟨reason, hreason⟩ | ⟨hunbound, e, hbinding⟩
    · refine Or.inl ⟨Or.inr ⟨reason, hreason⟩, .expression (.notBound d reason), ?_, rfl⟩
      rw [Evaluator.function, require, hget]
      dsimp only
      rw [hkind, hreason]
      rfl
    · have hrequire : ev.require d [.scalar, .constant] = .ok fn := by
        rw [require, hget]
        dsimp only
        rw [hkind, hunbound]
        rfl
      refine Or.inr ⟨hscalar, hunbound, ⟨fn.params, e⟩, ?_⟩
      rw [Evaluator.function, hrequire]
      dsimp only
      rw [hbinding]
      exact keep_answer (by rw [hprepared]; rfl)
  · have hkind : [DefinitionKind.scalar, DefinitionKind.constant].contains fn.kind = false := by
      rcases field_or_scalar fn with (hkind | hkind) | hkind
      · rw [hkind]; rfl
      · rw [hkind]; rfl
      · exact absurd hkind hscalar
    refine Or.inl ⟨Or.inl hscalar, .expression (.wrongKind d fn.kind.name
      ([DefinitionKind.scalar, DefinitionKind.constant].map DefinitionKind.name)), ?_, rfl⟩
    rw [Evaluator.function, require, hget]
    dsimp only
    rw [hkind]
    rfl

/-! ## Undefined definitions -/

/-- The body of a definition mentions a scalar function or a constant,
outside its own parameters. -/
def Refers (ev : Evaluator) (d m : String) : Prop :=
  ∃ fn gn, ev.definitions.get? d = some fn ∧ ev.definitions.get? m = some gn ∧ gn.IsScalar ∧
    Definitions.Mentions fn m

/-- The definition is unbound, or it mentions one that is undefined. -/
inductive Undefined (ev : Evaluator) : String → Prop
  | unbound {d reason : String} {fn : NamedFunction} (hget : ev.definitions.get? d = some fn)
      (hscalar : fn.IsScalar) (hreason : ev.unbound.lookup d = some reason) : Undefined ev d
  | refers {d m : String} (hm : ev.Refers d m) (h : Undefined ev m) : Undefined ev d

/-- No value is given to the name of an undefined definition. -/
def LeavesOut (ev : Evaluator) (values : Assignment) : Prop :=
  ∀ n, ev.Undefined n → values.lookup n = none

/-- The answer to a call of a definition. -/
def callFunction (ev : Evaluator) (d : String) (environment : Assignment) (values : List Samples)
    (overrides : Assignment) : Except Failure Samples :=
  (ev.function d).1 >>= fun p => p.call environment values overrides

/-- The call fails as an expression does. -/
def Raises (r : Except Failure Samples) : Prop := ∃ f, r = .error (.expression f)

/-- Every call with as many values as the definition has parameters fails as
an expression does, as long as no variable has the name of an undefined
definition. -/
def AlwaysRaises (ev : Evaluator) (d : String) : Prop :=
  ∀ fn, ev.definitions.get? d = some fn → ∀ environment values overrides,
    values.length = fn.params.length → (overrides.any fun o => Prepared.ownNames.contains o.1) = false →
    ev.LeavesOut environment → ev.LeavesOut overrides → Raises (ev.callFunction d environment values overrides)

theorem raises_iff_isExpression {r : Except Failure Samples} :
    Raises r ↔ ∃ f, r = .error f ∧ f.isExpression = true := by
  constructor
  · rintro ⟨f, rfl⟩
    exact ⟨_, rfl, rfl⟩
  · rintro ⟨f, rfl, hf⟩
    cases f <;> first | exact ⟨_, rfl⟩ | cases hf

/-- A call of a bound definition fails as an expression does exactly if a
name that its callable reads has no value. -/
theorem raises_callFunction_iff {b : Binding} {p : Prepared} {environment overrides : Assignment}
    {values : List Samples} (hfunction : (ev.function d).1 = prepareBinding fn b)
    (hp : (ev.function d).1 = .ok p) (hlength : values.length = fn.params.length)
    (hself : (overrides.any fun o => Prepared.ownNames.contains o.1) = false) :
    Raises (ev.callFunction d environment values overrides) ↔
      ∃ n ∈ p.formula.free, overrides.lookup n = none ∧ environment.lookup n = none := by
  obtain ⟨hargs, hfault⟩ := isExpression_prepareBinding.2 p (hfunction ▸ hp)
  rw [raises_iff_isExpression, callFunction, hp]
  exact Prepared.call_fault_iff hfault (hargs ▸ hlength) hself

open Classical in
/-- Zero for all these names that are not undefined. -/
noncomputable def zeros (ev : Evaluator) (names : List String) : Assignment :=
  (names.filter fun n => ¬ ev.Undefined n).map fun n => (n, Samples.scalar 0)

theorem leavesOut_zeros (ev : Evaluator) (names : List String) : ev.LeavesOut (ev.zeros names) := by
  classical
  intro n hn
  refine List.lookup_eq_none_iff.mpr fun p hp => ?_
  obtain ⟨m, hm, rfl⟩ := List.mem_map.mp hp
  obtain ⟨-, hdefined⟩ := List.mem_filter.mp hm
  rw [bne_iff_ne]
  rintro rfl
  exact of_decide_eq_true hdefined hn

theorem lookup_zeros {names : List String} {n : String} (hn : n ∈ names)
    (h : (ev.zeros names).lookup n = none) : ev.Undefined n := by
  classical
  by_contra hdefined
  have hmem : (n, Samples.scalar 0) ∈ ev.zeros names :=
    List.mem_map.mpr ⟨n, List.mem_filter.mpr ⟨hn, decide_eq_true hdefined⟩, rfl⟩
  have hne := List.lookup_eq_none_iff.mp h _ hmem
  rw [bne_self_eq_false] at hne
  cases hne

/-- The callable of the definition reads the name of an undefined one. -/
def ReadsUndefined (ev : Evaluator) (d : String) : Prop :=
  ∃ p, (ev.function d).1 = .ok p ∧ ∃ n ∈ p.formula.free, ev.Undefined n

/-- A definition fails in every call exactly if it has no callable because
it is a field or unbound, or if its callable reads an undefined name. -/
theorem Decided.alwaysRaises_iff (h : ev.Decided done) (hprepared : ev.prepared = []) (hd : d ∈ done)
    (hget : ev.definitions.get? d = some fn) : ev.AlwaysRaises d ↔
      ¬ fn.IsScalar ∨ (∃ reason, ev.unbound.lookup d = some reason) ∨ ev.ReadsUndefined d := by
  rcases h.function hprepared hd hget with ⟨hcause, f, hf, hexpression⟩ | ⟨hscalar, hunbound, b, hfunction⟩
  · refine ⟨fun _ => hcause.imp id Or.inl, fun _ => ?_⟩
    intro fn' _ environment values overrides _ _ _ _
    refine raises_iff_isExpression.mpr ⟨f, ?_, hexpression⟩
    rw [callFunction, hf]
    rfl
  · constructor
    · intro hraises
      refine Or.inr (Or.inr ?_)
      cases hp : (ev.function d).1 with
      | error f =>
          have hfail := raises_iff_isExpression.mp (hraises fn hget [] (List.replicate fn.params.length default) []
            List.length_replicate rfl (fun _ _ => rfl) fun _ _ => rfl)
          obtain ⟨g, hg, hexpression⟩ := hfail
          rw [callFunction, hp] at hg
          obtain rfl := Except.error.inj hg
          rw [isExpression_prepareBinding.1 f (hfunction ▸ hp)] at hexpression
          cases hexpression
      | ok p =>
          -- All names that may have a value get one.
          have hfail := hraises fn hget (ev.zeros p.formula.free) (List.replicate fn.params.length default) []
            List.length_replicate rfl (ev.leavesOut_zeros _) fun _ _ => rfl
          obtain ⟨n, hn, -, hnone⟩ := (raises_callFunction_iff hfunction hp List.length_replicate rfl).mp hfail
          exact ⟨p, hp, n, hn, lookup_zeros hn hnone⟩
    · rintro (hfield | ⟨reason, hreason⟩ | ⟨p, hp, n, hn, hundefined⟩)
      · exact absurd hscalar hfield
      · rw [hunbound] at hreason
        cases hreason
      · intro fn' hget' environment values overrides hlength hself henvironment hoverrides
        rw [hget] at hget'
        obtain rfl := Option.some.inj hget'
        exact (raises_callFunction_iff hfunction hp hlength hself).mpr
          ⟨n, hn, hoverrides n hundefined, henvironment n hundefined⟩

/-- Undefined definitions fail in every call, however long the way to an
unbound one is, if on the way each one that refers to one that fails does so
itself. -/
theorem Decided.alwaysRaises_of_steps (h : ev.Decided done) (hprepared : ev.prepared = [])
    (hall : ∀ n fn, ev.definitions.get? n = some fn → n ∈ done) (hundefined : ev.Undefined d)
    (hsteps : ∀ g m, Relation.ReflTransGen ev.Refers d g → ev.Refers g m → ev.AlwaysRaises m →
      ev.AlwaysRaises g) : ev.AlwaysRaises d := by
  induction hundefined with
  | unbound hget hscalar hreason =>
      exact (h.alwaysRaises_iff hprepared (hall _ _ hget) hget).mpr (Or.inr (Or.inl ⟨_, hreason⟩))
  | refers hm _ ih =>
      exact hsteps _ _ .refl hm (ih fun g m hway => hsteps g m (hway.head hm))

/-- Of every definition, for all variables that leave the names of undefined
definitions out:

a call fails as an expression does exactly if the definition has no callable,
or if one of the names that it reads has no value; and it fails so in every
call exactly if it is a field or unbound, or if it reads the name of an
undefined definition. An undefined definition need not: binding drops what a
body does not depend on. But where each definition on the way to an unbound
one fails because one that it mentions does, the whole way fails. -/
theorem raises_iff {ds : Definitions} {environment : Assignment} {A : Algebra} {ws : List String}
    (hnames : ds.names.Nodup) (h : ofDefinitions ds environment A = .ok (ev, ws)) {d : String}
    {fn : NamedFunction} (hget : ds.get? d = some fn) :
    (∀ p, (ev.function d).1 = .ok p → ∀ environment values overrides, values.length = fn.params.length →
      (overrides.any fun o => Prepared.ownNames.contains o.1) = false →
        (Raises (ev.callFunction d environment values overrides) ↔
          ∃ n ∈ p.formula.free, overrides.lookup n = none ∧ environment.lookup n = none)) ∧
    (ev.AlwaysRaises d ↔
      ¬ fn.IsScalar ∨ (∃ reason, ev.unbound.lookup d = some reason) ∨ ev.ReadsUndefined d) ∧
    (ev.Undefined d → (∀ g m, Relation.ReflTransGen ev.Refers d g → ev.Refers g m → ev.AlwaysRaises m →
      ev.AlwaysRaises g) → ev.AlwaysRaises d) := by
  obtain ⟨hdefinitions, hprepared, hdecided⟩ := decided_of_ofDefinitions hnames h
  have hmem : ∀ n gn, ev.definitions.get? n = some gn → n ∈ ds.names :=
    fun n gn hn => Definitions.mem_names_of_get? (hdefinitions ▸ hn)
  have hget' : ev.definitions.get? d = some fn := hdefinitions ▸ hget
  refine ⟨fun p hp environment values overrides hlength hself => ?_,
    hdecided.alwaysRaises_iff hprepared (hmem d fn hget') hget', fun hundefined hsteps => ?_⟩
  · rcases hdecided.function hprepared (hmem d fn hget') hget' with ⟨-, f, hf, -⟩ | ⟨-, -, b, hfunction⟩
    · rw [hf] at hp
      cases hp
    · exact raises_callFunction_iff hfunction hp hlength hself
  · exact hdecided.alwaysRaises_of_steps hprepared hmem hundefined hsteps

theorem refers_of_get? {ds : Definitions} (hdefinitions : ev.definitions = ds) {d m : String}
    {fn gn : NamedFunction} (hd : ds.get? d = some fn) (hm : ds.get? m = some gn) (hscalar : gn.IsScalar)
    (hmentions : Definitions.Mentions fn m) : ev.Refers d m :=
  ⟨fn, gn, hdefinitions ▸ hd, hdefinitions ▸ hm, hscalar, hmentions⟩

/-- A constant that makes no sense, a function of it and a function of
that. -/
def brokenChain : Definitions :=
  [⟨"FNC", [], "1 +", 1⟩, ⟨"FNA", ["x"], "FNC^2", 2⟩, ⟨"FNB", ["x"], "FNA(x)^3", 3⟩]

/-- The second function is bound, but it reads the constant still. -/
theorem raises_iff_brokenChain : ∃ ev ws, ofDefinitions brokenChain = .ok (ev, ws) ∧
    ev.Undefined "FNB" ∧ ev.unbound.lookup "FNB" = none ∧ ev.AlwaysRaises "FNB" ∧
      Raises (ev.callFunction "FNB" [("t", .scalar 1)] [.scalar 2] []) := by
  have hok : ((ofDefinitions brokenChain).toOption.map fun r =>
      ((r.1.unbound.lookup "FNC").isSome, r.1.unbound.lookup "FNB",
        (r.1.function "FNB").1.toOption.map fun p => p.formula.free)) =
      some (true, none, some ["FNC"]) := by decide +kernel
  obtain ⟨⟨ev, ws⟩, hev, hanswers⟩ := Option.map_eq_some_iff.mp hok
  have hbound := eq_ok_of_toOption hev
  obtain ⟨hconstant, hanswers⟩ := Prod.mk.inj hanswers
  obtain ⟨hunbound, hfree⟩ := Prod.mk.inj hanswers
  obtain ⟨reason, hreason⟩ := Option.isSome_iff_exists.mp hconstant
  obtain ⟨p, hp, hfree⟩ := Option.map_eq_some_iff.mp hfree
  have hp := eq_ok_of_toOption hp
  have hnames : brokenChain.names.Nodup := by decide
  have hget : brokenChain.get? "FNB" = some ⟨"FNB", ["x"], "FNA(x)^3", 3⟩ := by decide
  have hdefinitions := (decided_of_ofDefinitions hnames hbound).1
  have hgetC : brokenChain.get? "FNC" = some ⟨"FNC", [], "1 +", 1⟩ := by decide
  have hgetA : brokenChain.get? "FNA" = some ⟨"FNA", ["x"], "FNC^2", 2⟩ := by decide
  have hundefined : ev.Undefined "FNC" := .unbound (hdefinitions ▸ hgetC) (by decide +kernel) hreason
  have hfirst : ev.Refers "FNA" "FNC" :=
    refers_of_get? hdefinitions hgetA hgetC (by decide +kernel) (by decide +kernel)
  have hsecond : ev.Refers "FNB" "FNA" :=
    refers_of_get? hdefinitions hget hgetA (by decide +kernel) (by decide +kernel)
  obtain ⟨hcalls, halways, -⟩ := raises_iff hnames hbound hget
  have hmem : "FNC" ∈ p.formula.free := hfree ▸ List.mem_cons_self
  refine ⟨ev, ws, hbound, .refers hsecond (.refers hfirst hundefined), hunbound,
    halways.mpr (Or.inr (Or.inr ⟨p, hp, "FNC", hmem, hundefined⟩)), ?_⟩
  exact (hcalls p hp _ _ _ rfl rfl).mpr ⟨"FNC", hmem, rfl, rfl⟩

/-- A function that makes no sense, and one that multiplies it by zero. -/
def lostReference : Definitions := [⟨"FNB", ["x"], "x +", 1⟩, ⟨"FNA", ["x"], "0*FNB(x)", 2⟩]

/-- What is multiplied by zero is not referred to any more. -/
theorem not_alwaysRaises_lostReference : ∃ ev ws, ofDefinitions lostReference = .ok (ev, ws) ∧
    ev.Undefined "FNA" ∧ ev.callFunction "FNA" [] [.scalar 1] [] = .ok (.scalar 0) := by
  have hok : ((ofDefinitions lostReference).toOption.map fun r =>
      ((r.1.unbound.lookup "FNB").isSome,
        (r.1.callFunction "FNA" [] [.scalar 1] []).toOption.map fun s => (s.shape, s.data))) =
      some (true, some ([], #[0])) := by decide +kernel
  obtain ⟨⟨ev, ws⟩, hev, hanswers⟩ := Option.map_eq_some_iff.mp hok
  have hbound := eq_ok_of_toOption hev
  obtain ⟨hunbound, hvalue⟩ := Prod.mk.inj hanswers
  obtain ⟨reason, hreason⟩ := Option.isSome_iff_exists.mp hunbound
  obtain ⟨⟨shape, data⟩, hcall, hsamples⟩ := Option.map_eq_some_iff.mp hvalue
  obtain ⟨rfl, rfl⟩ := Prod.mk.inj hsamples
  have hnames : lostReference.names.Nodup := by decide
  have hdefinitions := (decided_of_ofDefinitions hnames hbound).1
  have hgetB : lostReference.get? "FNB" = some ⟨"FNB", ["x"], "x +", 1⟩ := by decide
  have hgetA : lostReference.get? "FNA" = some ⟨"FNA", ["x"], "0*FNB(x)", 2⟩ := by decide
  have hundefined : ev.Undefined "FNB" := .unbound (hdefinitions ▸ hgetB) (by decide +kernel) hreason
  have hrefers : ev.Refers "FNA" "FNB" :=
    refers_of_get? hdefinitions hgetA hgetB (by decide +kernel) (by decide +kernel)
  exact ⟨ev, ws, hbound, .refers hrefers hundefined, eq_ok_of_toOption hcall⟩

end Evaluator
end FieldScript
