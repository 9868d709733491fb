import FieldScript.Evaluator
import FieldScript.Proofs.DefinitionOrder
import FieldScript.Proofs.ExprInduction
import FieldScript.Proofs.Outcome

/-!
# How evaluators fail

Binding fails as a whole only for a field definition whose body does not
fall into components; anything else that is wrong with a body leaves the
definition unbound. A constant is evaluated without arguments, and what
can go wrong then is either a failure of the evaluation or one of four
others: a pole, a function in the place of a number, a number too large
and a division by zero.
-/

namespace FieldScript

/-- A field definition with an empty component. -/
def NamedFunction.Unsplit (f : NamedFunction) : Prop :=
  (f.kind = .vector ∨ f.kind = .tensor) ∧ splitComponents? f.body.toList = none

namespace Evaluator

/-! ## Binding -/

/-- The evaluators have the same definitions and callables. -/
def SameCallables (ev ev' : Evaluator) : Prop :=
  ev'.definitions = ev.definitions ∧ ev'.prepared = ev.prepared

theorem SameCallables.trans {a b c : Evaluator} (h : SameCallables a b) (h' : SameCallables b c) :
    SameCallables a c :=
  ⟨h'.1.trans h.1, h'.2.trans h.2⟩

variable {ev ev' : Evaluator}

/-- All that binding writes: bindings, components, the names that stay
unbound, and readings. -/
def BindsOnly (ev ev' : Evaluator) : Prop :=
  ∃ bindings components unbound readings, ev' = { ev with
    bindings := bindings, components := components, unbound := unbound, readings := readings }

theorem BindsOnly.trans {ev'' : Evaluator} (h : BindsOnly ev ev') (h' : BindsOnly ev' ev'') :
    BindsOnly ev ev'' := by
  obtain ⟨_, _, _, _, rfl⟩ := h
  obtain ⟨_, _, _, _, rfl⟩ := h'
  exact ⟨_, _, _, _, rfl⟩

theorem BindsOnly.sameCallables (h : BindsOnly ev ev') : SameCallables ev ev' := by
  obtain ⟨_, _, _, _, rfl⟩ := h
  exact ⟨rfl, rfl⟩

theorem readKept_bindsOnly (ev : Evaluator) (text : String) (params : List String) :
    BindsOnly ev (ev.readKept text params).2 := by
  unfold readKept
  split <;> exact ⟨_, _, _, _, rfl⟩

/-- What reading one text preserves, reading all of them does. -/
theorem readAll_preserves {params texts : List String} {P : Evaluator → Prop}
    (hstep : ∀ text ∈ texts, ∀ ev : Evaluator, P ev → P (ev.readKept text params).2)
    {ev : Evaluator} (h : P ev) : P (ev.readAll params texts).2 := by
  induction texts generalizing ev with
  | nil => exact h
  | cons text texts ih =>
      obtain ⟨htext, htexts⟩ := List.forall_mem_cons.mp hstep
      have hkept := htext ev h
      rw [readAll]
      split
      · rename_i heq
        rw [heq] at hkept
        exact hkept
      · rename_i e ev₁ heq
        rw [heq] at hkept
        have hrest := ih htexts hkept
        split <;> rename_i heq' <;> rw [heq'] at hrest <;> exact hrest

theorem readAll_bindsOnly (ev : Evaluator) (params texts : List String) :
    BindsOnly ev (ev.readAll params texts).2 :=
  readAll_preserves (fun text _ ev₁ h => h.trans (readKept_bindsOnly ev₁ text params))
    ⟨_, _, _, _, rfl⟩

theorem bind_field (ev : Evaluator) {fn : NamedFunction} (h : fn.kind = .vector ∨ fn.kind = .tensor) :
    ev.bind fn = match splitComponents? fn.body.toList with
      | none => .error .outOfBounds
      | some texts =>
        match ev.readAll fn.params texts with
        | (.ok es, ev) => .ok ({ ev with components := put ev.components fn.name es }, [])
        | (.error f, ev) => .ok (ev.leaveUnbound fn f) := by
  rcases h with h | h <;> rw [bind, h] <;> rfl

theorem bind_scalar (ev : Evaluator) {fn : NamedFunction}
    (h : fn.kind = .scalar ∨ fn.kind = .constant) :
    ev.bind fn = match ev.readKept fn.body fn.params with
      | (.ok e, ev) =>
        if Prepared.hasRepeated fn.params then .error .repeatedParameter
        else .ok ({ ev with bindings := put ev.bindings fn.name ⟨fn.params, e⟩ }, [])
      | (.error f, ev) => .ok (ev.leaveUnbound fn f) := by
  rcases h with h | h <;> rw [bind, h] <;> rfl

theorem field_or_scalar (fn : NamedFunction) :
    (fn.kind = .vector ∨ fn.kind = .tensor) ∨ (fn.kind = .scalar ∨ fn.kind = .constant) := by
  cases fn.kind <;> simp

theorem bindsOnly_of_bind {fn : NamedFunction} {ws : List String}
    (h : ev.bind fn = .ok (ev', ws)) : BindsOnly ev ev' := by
  have hstored : ∀ {ev₁ : Evaluator} bindings components unbound, BindsOnly ev ev₁ → BindsOnly ev
      { ev₁ with bindings := bindings, components := components, unbound := unbound } :=
    fun _ _ _ h => h.trans ⟨_, _, _, _, rfl⟩
  rcases field_or_scalar fn with hfield | hscalar
  · rw [bind_field ev hfield] at h
    split at h
    · cases h
    · rename_i texts _
      have hall := readAll_bindsOnly ev fn.params texts
      split at h <;> rename_i heq <;> rw [heq] at hall <;> cases h <;> exact hstored _ _ _ hall
  · rw [bind_scalar ev hscalar] at h
    have hkept := readKept_bindsOnly ev fn.body fn.params
    split at h <;> rename_i heq <;> rw [heq] at hkept
    · split at h <;> cases h
      exact hstored _ _ _ hkept
    · cases h
      exact hstored _ _ _ hkept

theorem bindsOnly_of_bindAll {order ws : List String} (h : ev.bindAll order = .ok (ev', ws)) :
    BindsOnly ev ev' := by
  induction order generalizing ev ws with
  | nil =>
      cases h
      exact ⟨_, _, _, _, rfl⟩
  | cons n order ih =>
      rw [bindAll] at h
      split at h
      · cases h
      · obtain ⟨⟨ev₁, ws₁⟩, hbind, h⟩ := bind_eq_ok.mp h
        obtain ⟨⟨ev₂, ws₂⟩, hrest, h⟩ := bind_eq_ok.mp h
        cases h
        exact (bindsOnly_of_bind hbind).trans (ih hrest)

theorem hasRepeated_eq_false {ns : List String} (h : ns.Nodup) :
    Prepared.hasRepeated ns = false := by
  induction ns with
  | nil => rfl
  | cons n rest ih =>
      obtain ⟨hn, hrest⟩ := List.nodup_cons.mp h
      rw [Prepared.hasRepeated, ih hrest, Bool.or_false]
      simpa using hn

/-- Binding a definition fails only where its components cannot be told
apart, and keeps the callables. -/
theorem bind_cases (ev : Evaluator) {fn : NamedFunction}
    (hparams : fn.params.Nodup) :
    (fn.Unsplit ∧ ev.bind fn = .error .outOfBounds) ∨
      (¬ fn.Unsplit ∧ ∃ ev' ws, ev.bind fn = .ok (ev', ws) ∧ SameCallables ev ev') := by
  rcases field_or_scalar fn with hfield | hscalar
  · rw [bind_field ev hfield]
    split
    · exact Or.inl ⟨⟨hfield, ‹_›⟩, rfl⟩
    · rename_i texts hsome
      refine Or.inr ⟨fun h => (by rw [h.2] at hsome; cases hsome), ?_⟩
      have hall := (readAll_bindsOnly ev fn.params texts).sameCallables
      split <;> rename_i h <;> rw [h] at hall <;> exact ⟨_, _, rfl, hall⟩
  · refine Or.inr ⟨fun h => ?_, ?_⟩
    · rcases hscalar with hk | hk <;> rcases h.1 with h | h <;> rw [hk] at h <;> cases h
    · have hkept := (readKept_bindsOnly ev fn.body fn.params).sameCallables
      rw [bind_scalar ev hscalar, hasRepeated_eq_false hparams]
      split <;> rename_i h <;> rw [h] at hkept <;> exact ⟨_, _, rfl, hkept⟩

/-- All definitions of an order are bound, or one of them cannot be told
apart into components. -/
theorem bindAll_cases {ev : Evaluator} {order : List String}
    (horder : ∀ n ∈ order, ∃ fn, ev.definitions.get? n = some fn ∧ fn.params.Nodup) :
    ((∃ n ∈ order, ∃ fn, ev.definitions.get? n = some fn ∧ fn.Unsplit) ∧
        ev.bindAll order = .error .outOfBounds) ∨
      ((∀ n ∈ order, ∀ fn, ev.definitions.get? n = some fn → ¬ fn.Unsplit) ∧
        ∃ ev' ws, ev.bindAll order = .ok (ev', ws) ∧ SameCallables ev ev') := by
  induction order generalizing ev with
  | nil => exact Or.inr ⟨List.forall_mem_nil _, ev, [], rfl, rfl, rfl⟩
  | cons n rest ih =>
      obtain ⟨⟨fn, hfn, hparams⟩, hrest⟩ := List.forall_mem_cons.mp horder
      have hstep : ev.bindAll (n :: rest) = ev.bind fn >>= fun r =>
          r.1.bindAll rest >>= fun r' => pure (r'.1, r.2 ++ r'.2) := by
        rw [bindAll, hfn]
      rw [hstep]
      rcases ev.bind_cases hparams with ⟨hunsplit, hbind⟩ | ⟨hsplit, ev₁, ws, hbind, hsame⟩
      · rw [hbind]
        exact Or.inl ⟨⟨n, List.mem_cons_self, fn, hfn, hunsplit⟩, rfl⟩
      · rw [hbind]
        have ih := @ih ev₁ (by rw [hsame.1]; exact hrest)
        rw [hsame.1] at ih
        rcases ih with ⟨⟨m, hm, hunsplit⟩, hall⟩ | ⟨hnone, ev₂, ws₂, hall, hsame₂⟩
        · refine Or.inl ⟨⟨m, List.mem_cons_of_mem _ hm, hunsplit⟩, ?_⟩
          show (ev₁.bindAll rest >>= _) = _
          rw [hall]
          rfl
        · refine Or.inr ⟨List.forall_mem_cons.mpr ⟨?_, hnone⟩, ev₂, ws ++ ws₂, ?_, hsame.trans hsame₂⟩
          · intro gn hgn
            rw [hfn] at hgn
            exact Option.some.inj hgn ▸ hsplit
          · show (ev₁.bindAll rest >>= _) = _
            rw [hall]
            rfl

/-- An evaluator is made, with no callables yet, unless a field cannot be
told apart into components. -/
theorem ofOrder_cases {ds : Definitions} {order : List String} (horder : order.Perm ds.names)
    (hparams : ∀ fn ∈ ds, fn.params.Nodup) (hnames : ds.names.Nodup) :
    ((∃ fn ∈ ds, fn.Unsplit) ∧ ofOrder ds order = .error .outOfBounds) ∨
      ((∀ fn ∈ ds, ¬ fn.Unsplit) ∧ ∃ ev ws, ofOrder ds order = .ok (ev, ws) ∧ ev.prepared = []) := by
  have hget : ∀ n ∈ order, ∃ fn, ds.get? n = some fn ∧ fn.params.Nodup := by
    intro n hn
    obtain ⟨fn, hfn, hget⟩ := Definitions.get?_of_mem_names (horder.subset hn)
    exact ⟨fn, hget, hparams fn hfn⟩
  rcases @bindAll_cases ⟨ds, order, [], [], [], [], [], [], .standard⟩ order hget with
    ⟨⟨n, hn, fn, hfn, hunsplit⟩, hall⟩ | ⟨hnone, ev, ws, hall, hsame⟩
  · exact Or.inl ⟨⟨fn, List.mem_of_find?_eq_some hfn, hunsplit⟩, hall⟩
  · refine Or.inr ⟨fun fn hfn => ?_, ev, ws, hall, hsame.2⟩
    have hmem : fn.name ∈ order := horder.symm.subset (List.mem_map.mpr ⟨fn, hfn, rfl⟩)
    exact hnone fn.name hmem fn (Definitions.get?_of_mem hnames hfn)

/-! ## Evaluating a constant -/

/-- The failures of a constant that are none of its evaluation. -/
def IsConstantFault (f : Failure) : Prop :=
  f = .pole ∨ f = .unresolvedName ∨ f = .tooLarge ∨ f = .divisionByZero

/-- A failure of the evaluation, or one of the four others. -/
def IsConstantFailure (f : Failure) : Prop := f.isEvaluation = true ∨ IsConstantFault f

/-- A failure of the evaluation or of arithmetic, or a function in the
place of a number. -/
def IsCallFailure (f : Failure) : Prop :=
  f.isEvaluation = true ∨ f.isArithmetic = true ∨ f = .unresolvedName

theorem IsCallFailure.isConstantFailure {f : Failure} (h : IsCallFailure f) :
    IsConstantFailure f := by
  rcases h with h | h | rfl
  · exact Or.inl h
  · refine Or.inr (Or.inr (Or.inr ?_))
    cases f with
    | tooLarge => exact Or.inl rfl
    | divisionByZero => exact Or.inr rfl
    | _ => cases h
  · exact Or.inr (Or.inr (Or.inl rfl))

theorem conditionFault?_eq {es : List Expr} {f : Failure} (h : Expr.conditionFault? es = some f) :
    f = .notApplicable := by
  fun_induction Expr.conditionFault? es with
  | case1 => exact (Option.some.inj h).symm
  | case2 _ _ _ _ ih => exact ih h
  | case3 => cases h

theorem plainPowerFault?_isArithmetic {e : Expr} {f : Failure} (h : e.plainPowerFault? = some f) :
    f.isArithmetic = true := by
  unfold Expr.plainPowerFault? at h
  split at h
  · rename_i b x
    cases x <;> dsimp only at h <;> repeat' split at h
    all_goals cases h
    all_goals rfl
  · cases h

theorem operationFault?_cases {e : Expr} {f : Failure} (h : e.operationFault? = some f) :
    IsCallFailure f := by
  unfold Expr.operationFault? at h
  split at h
  · split at h
    · cases h
    · exact Or.inr (Or.inl (Option.some.inj h ▸ rfl))
  · exact Or.inr (Or.inr (Option.some.inj h).symm)
  · exact Or.inr (Or.inr (Option.some.inj h).symm)
  · exact Or.inl (Option.some.inj h ▸ rfl)
  · exact Or.inr (Or.inl (plainPowerFault?_isArithmetic h))
  · exact Or.inl (conditionFault?_eq h ▸ rfl)
  · cases h

theorem exists_of_callFaultList? {es : List Expr} {f : Failure}
    (h : Expr.callFaultList? es = some f) : ∃ e ∈ es, e.callFault? = some f := by
  induction es with
  | nil => cases h
  | cons e rest ih =>
      rw [Expr.callFaultList?] at h
      rcases Option.or_eq_some_iff.mp h with he | ⟨-, hrest⟩
      · exact ⟨e, List.mem_cons_self, he⟩
      · obtain ⟨e', he', hf⟩ := ih hrest
        exact ⟨e', List.mem_cons_of_mem _ he', hf⟩

/-- What is wrong with an expression is wrong with the expression itself
or with an operand. -/
theorem callFault?_step {e : Expr} {f : Failure} (h : e.callFault? = some f) :
    IsCallFailure f ∨ ∃ head as, e = .node head as ∧ ∃ a ∈ as, a.callFault? = some f := by
  rw [Expr.callFault?.eq_def] at h
  split at h
  · exact Or.inl (Or.inr (Or.inr (Option.some.inj h).symm))
  · split at h
    · exact Or.inl (Or.inl (Option.some.inj h ▸ rfl))
    · rcases Option.or_eq_some_iff.mp h with hargs | ⟨-, hop⟩
      · exact Or.inr ⟨_, _, rfl, exists_of_callFaultList? hargs⟩
      · exact Or.inl (operationFault?_cases hop)
  · exact Or.inl (operationFault?_cases h)

theorem callFault?_cases (e : Expr) : ∀ {f : Failure}, e.callFault? = some f →
    IsCallFailure f := by
  induction e using Expr.nodeInduction with
  | leaf e hleaf =>
      intro f hf
      rcases callFault?_step hf with hf | ⟨head, as, rfl, -⟩
      · exact hf
      · exact absurd rfl (hleaf head as)
  | node head as ih =>
      intro f hf
      rcases callFault?_step hf with hf | ⟨_, _, heq, a, ha, hfa⟩
      · exact hf
      · cases heq
        exact ih a ha hfa

theorem ofExpr_eq_ok {text : String} {params : List String} {e : Expr} {p : Prepared}
    (h : Prepared.ofExpr text params e = .ok p) :
    p.formula = Formula.ofExpr text params e ∧ p.fault = e.callFault? := by
  unfold Prepared.ofExpr at h
  split at h
  · cases h
  · split at h
    · cases h
    · obtain rfl := Except.ok.inj h
      exact ⟨rfl, rfl⟩

theorem ofExpr_error {text : String} {e : Expr} {f : Failure}
    (h : Prepared.ofExpr text [] e = .error f) : IsConstantFailure f := by
  unfold Prepared.ofExpr at h
  split at h
  · rename_i g hg
    obtain rfl := Except.error.inj h
    unfold Expr.compileFault? at hg
    split at hg
    · exact Or.inr (Or.inl (Option.some.inj hg).symm)
    · split at hg
      · exact Or.inl (Option.some.inj hg ▸ rfl)
      · cases hg
  · cases h

theorem freeValues_error {β : Type} {p : Prepared} {find? : String → Option β} {f : Failure}
    (h : p.freeValues find? = .error f) : f.isEvaluation = true := by
  obtain ⟨-, n, -, -, -, hn⟩ := mapM_eq_error.mp h
  split at hn
  · cases hn
  · exact Except.error.inj hn ▸ rfl

theorem inputs_error {β : Type} {p : Prepared} {find? : String → Option β} {values : List β}
    {f : Failure} (h : p.inputs find? values = .error f) :
    f.isEvaluation = true ∨ p.fault = some f := by
  unfold Prepared.inputs at h
  dsimp only at h
  split at h
  · exact Or.inl (Except.error.inj h ▸ rfl)
  · rcases bind_eq_error.mp h with h | ⟨free, -, h⟩
    · exact Or.inl (freeValues_error h)
    · split at h
      · rename_i g hg
        obtain rfl := Except.error.inj h
        exact Or.inr hg
      · cases h

theorem tabulate?_error {args : List Samples} {g : List Float → Float} {f : Failure}
    (h : Samples.tabulate? args (fun inputs => .ok (g inputs)) = .error f) :
    f.isEvaluation = true := by
  unfold Samples.tabulate? at h
  split at h
  · exact Except.error.inj h ▸ rfl
  · rcases bind_eq_error.mp h with h | ⟨_, _, h⟩
    · obtain ⟨-, _, -, -, -, h⟩ := mapM_eq_error.mp h
      cases h
    · cases h

/-- How the evaluation of a constant fails. -/
theorem evaluate_error {ev : Evaluator} (hprepared : ev.prepared = []) {text : String} {f : Failure}
    (h : ev.evaluate text [] = .error f) : IsConstantFailure f := by
  have hcompile : ∀ r, ev.compile text [] = r → (∀ g, r = .error g → IsConstantFailure g) ∧
      ∀ p, r = .ok p → ∀ g, p.fault = some g → IsConstantFailure g := by
    rintro r rfl
    rw [compile, hprepared, List.lookup_nil]
    dsimp only
    split
    · rename_i e _
      refine ⟨fun g hg => ofExpr_error hg, fun p hp g hg => ?_⟩
      rw [(ofExpr_eq_ok hp).2] at hg
      exact (callFault?_cases e hg).isConstantFailure
    · exact ⟨fun g hg => Or.inl (Except.error.inj hg ▸ rfl), fun p hp => by cases hp⟩
  obtain ⟨herror, hok⟩ := hcompile _ rfl
  have heval : ev.evaluate text [] = ev.compile text [] >>= fun p => p.call ev.environment [] := by
    rw [evaluate]
    dsimp only
    rw [List.mergeSort_nil]
    rfl
  rw [heval] at h
  rcases bind_eq_error.mp h with h | ⟨p, hp, h⟩
  · exact herror f h
  · unfold Prepared.call at h
    dsimp only at h
    split at h
    · exact Or.inl (Except.error.inj h ▸ rfl)
    · rcases bind_eq_error.mp h with h | ⟨inputs, -, h⟩
      · rcases inputs_error h with h | h
        · exact Or.inl h
        · exact hok p hp f h
      · exact Or.inl (tabulate?_error h)

end Evaluator
end FieldScript
