import FieldScript.Proofs.BoundBodies
import FieldScript.Proofs.CodeValue

/-!
# Calls of definitions

Binding puts earlier bodies into later ones, so that a call of a
definition evaluates one expression. Where evaluation of the bodies in
dynamic scope has a value, this expression has it
(`Evaluator.Settled.value?_body`), and the callable of the definition
computes it (`Evaluator.Settled.function_dynamic`): a parameter of a
caller stands for the variables of its name in what it calls. Evaluation
in lexical scope gives the same if no variable is captured in this way.

Calls are in exact arithmetic (`Prepared.callExact`), and operations may
be built in any way that keeps values (`Algebra.Preserves`).
-/

namespace FieldScript

/-! ## Meanings of names -/

namespace Scope

variable {s : Scope} {n : String} {called : Bool}

theorem meaning_eq (hword : words.contains n = false) :
    s.meaning n called = match s.find? n with
      | some m => m
      | none =>
        match Builtin.fallback.lookup n with
        | some b => .builtin b
        | none => if called then .unknownFunction n else .expr (.var n) := by
  unfold meaning
  split
  · cases hword
  · cases hword
  · cases hword
  · rfl

theorem meaning_of_find? {m : Meaning} (hword : words.contains n = false) (h : s.find? n = some m) :
    s.meaning n called = m := by
  rw [meaning_eq hword, h]

theorem find?_parameter (h : n ∈ s.params) : s.find? n = some (.expr (.var n)) := by
  rw [find?, List.contains_iff_mem.mpr h]
  rfl

theorem find?_binding {b : Binding} (hparam : n ∉ s.params) (h : s.bindings.lookup n = some b) :
    s.find? n = some (if b.params.isEmpty then .expr b.body else .definition b.params b.body) := by
  rw [find?, if_neg (mt List.contains_iff_mem.mp hparam), h]

/-- Without a binding, a name means what it refers to in the library. -/
theorem find?_library (hparam : n ∉ s.params) (hbinding : s.bindings.lookup n = none) :
    (∃ e, Referent.library n = .constant e ∧ s.find? n = some (.expr e)) ∨
    (∃ b, Referent.library n = .function b ∧ s.find? n = some (.builtin b)) ∨
    Referent.library n = .word ∨
    (Referent.library n = .free ∧ s.find? n = none ∧ Builtin.fallback.lookup n = none) := by
  rw [find?, if_neg (mt List.contains_iff_mem.mp hparam), hbinding]
  unfold Referent.library
  dsimp only
  split
  · exact .inl ⟨.pi, rfl, rfl⟩
  · split
    · exact .inl ⟨.euler, rfl, rfl⟩
    · cases Builtin.ofName? n with
      | some b => exact .inr (.inl ⟨b, rfl, rfl⟩)
      | none =>
          cases hfallback : Builtin.fallback.lookup n with
          | some b => exact .inr (.inr (.inl rfl))
          | none => exact .inr (.inr (.inr ⟨rfl, rfl, rfl⟩))

end Scope

/-! ## Bodies -/

/-- What has a value without any variable has it among any. -/
theorem Expr.value?_of_closed {e : Expr} {v : Value} (h : e.value? (fun _ => none) = some v)
    (σ : Valuation) : e.value? σ = some v := by
  refine value?_congr h fun n hn => ?_
  obtain ⟨w, hw⟩ := exists_of_mem_freeVars h hn
  cases hw

namespace Definitions

variable {ds : Definitions} {params : List String} {bindings : List (String × Binding)} {A : Algebra}
  {τ : Valuation} {call? : String → List Value → Option Value} {n : String}

/-- A word that is no name has no value. -/
theorem agrees_word (hr : ds.referent params n = .word) :
    (Scope.mk params bindings A).Agrees (ds.interpretation params τ call?) τ n := by
  refine ⟨fun hv => ?_, fun hv => ?_⟩ <;> simp only [interpretation, hr] at hv <;> cases hv

theorem agrees_parameter (hword : Scope.words.contains n = false) (hparam : n ∈ params)
    (hr : ds.referent params n = .parameter) :
    (Scope.mk params bindings A).Agrees (ds.interpretation params τ call?) τ n := by
  refine ⟨fun hv => ?_, fun hv => ?_⟩
  · rw [name?_parameter hr] at hv
    exact ⟨.var n, Scope.meaning_of_find? hword (Scope.find?_parameter hparam), hv⟩
  · simp only [interpretation, hr] at hv
    cases hv

/-- A definition has the meaning of its binding, if calls are worth what
this is worth. -/
theorem agrees_definition (hword : Scope.words.contains n = false) (hparam : n ∉ params)
    (hr : ds.referent params n = .definition)
    (hcall : ∀ vs v, call? n vs = some v →
      ∃ b, bindings.lookup n = some b ∧ b.params.length = vs.length ∧
        b.body.value? (τ.withArgs b.params vs) = some v) :
    (Scope.mk params bindings A).Agrees (ds.interpretation params τ call?) τ n := by
  constructor
  · intro v hv
    simp only [interpretation, hr] at hv
    obtain ⟨b, hb, hlength, hvalue⟩ := hcall [] v hv
    have hconstant : b.params = [] := List.length_eq_zero_iff.mp hlength
    rw [hconstant] at hvalue
    refine ⟨b.body, Scope.meaning_of_find? hword ?_, hvalue⟩
    rw [Scope.find?_binding hparam hb, hconstant]
    rfl
  · intro vs v hv
    simp only [interpretation, hr] at hv
    split at hv
    · cases hv
    · rename_i hvs
      obtain ⟨b, hb, hlength, hvalue⟩ := hcall vs v hv
      have hparams : b.params.isEmpty = false := by
        rw [← Bool.not_eq_true, List.isEmpty_iff_length_eq_zero, hlength,
          ← List.isEmpty_iff_length_eq_zero]
        exact hvs
      refine .inr ⟨b.params, b.body, Scope.meaning_of_find? hword ?_, hvalue⟩
      rw [Scope.find?_binding hparam hb, hparams]
      rfl

/-- A name of the library and a variable have their meaning if no binding
hides them. -/
theorem agrees_library (hword : Scope.words.contains n = false) (hparam : n ∉ params)
    (hbinding : bindings.lookup n = none) (hr : ds.referent params n = .library n) :
    (Scope.mk params bindings A).Agrees (ds.interpretation params τ call?) τ n := by
  rcases @Scope.find?_library ⟨params, bindings, A⟩ n hparam hbinding with
    ⟨e, hlibrary, hfind⟩ | ⟨b, hlibrary, hfind⟩ | hlibrary | ⟨hlibrary, hfind, hfallback⟩ <;>
    rw [hlibrary] at hr
  · refine ⟨fun hv => ?_, fun hv => ?_⟩ <;> simp only [interpretation, hr] at hv
    · exact ⟨e, Scope.meaning_of_find? hword hfind, Expr.value?_of_closed hv τ⟩
    · cases hv
  · refine ⟨fun hv => ?_, fun hv => ?_⟩ <;> simp only [interpretation, hr] at hv
    · cases hv
    · exact .inl ⟨b, Scope.meaning_of_find? hword hfind, hv⟩
  · exact agrees_word hr
  · refine ⟨fun hv => ?_, fun hv => ?_⟩
    · rw [name?_free hr] at hv
      refine ⟨.var n, ?_, hv⟩
      rw [Scope.meaning_eq hword, hfind, hfallback]
      rfl
    · simp only [interpretation, hr] at hv
      cases hv

/-- A scope agrees with the interpretation of a body on a name, if it has
no binding for what is not defined, and the bindings of definitions are
worth what calls are. -/
theorem agrees
    (hundefined : ds.referent params n ≠ .parameter → ds.referent params n ≠ .word →
      n ∉ ds.names → bindings.lookup n = none)
    (hcall : ds.referent params n = .definition → ∀ vs v, call? n vs = some v →
      ∃ b, bindings.lookup n = some b ∧ b.params.length = vs.length ∧
        b.body.value? (τ.withArgs b.params vs) = some v) :
    (Scope.mk params bindings A).Agrees (ds.interpretation params τ call?) τ n := by
  rcases ds.referent_cases params n with ⟨-, hr⟩ | ⟨hword, hparam, hr⟩ | ⟨hword, hparam, -, hr⟩ |
    ⟨hword, hparam, hname, hr⟩
  · exact agrees_word hr
  · exact agrees_parameter hword hparam hr
  · exact agrees_definition hword hparam hr (hcall hr)
  · by_cases hlibrary : Referent.library n = .word
    · exact agrees_word (hr.trans hlibrary)
    · refine agrees_library hword hparam (hundefined ?_ ?_ hname) hr
      · rw [hr]
        exact (library_ne n).1
      · rw [hr]
        exact hlibrary

end Definitions

/-- A text writes an expression if it means one or a plain truth value. -/
theorem Expr.ofText_ok {s : Scope} {text : String} {e : Expr} (h : ofText s text = .ok e) :
    textMeaning? s text = some (.expr e) ∨
      ∃ b, textMeaning? s text = some (.truth b) ∧ e = .truth b := by
  unfold ofText at h
  split at h
  · cases h
  · rename_i b hb
    exact .inr ⟨b, hb, (Except.ok.inj h).symm⟩
  · cases h
  · rename_i e' he
    split at h
    · obtain rfl := Except.ok.inj h
      exact .inl he
    · cases h
  · cases h

namespace Evaluator

variable {ev : Evaluator} {done : List String} {V : Valuation}

/-- Whether a definition has a binding. -/
def isBound (ev : Evaluator) (n : String) : Bool := (ev.bindings.lookup n).isSome

/-- A definition is bound to an expression that has the value of its body
in dynamic scope. -/
theorem Settled.value?_body (h : ev.Settled done) (hA : ev.algebra.Preserves) {depth : Nat}
    {σ : Valuation} {f : String} {vs : List Value} {v : Value}
    (hv : ev.definitions.value? ev.isBound V .dynamic depth σ f vs = some v) :
    ∃ b, ev.bindings.lookup f = some b ∧ b.params.length = vs.length ∧
      b.body.value? (σ.withArgs b.params vs) = some v := by
  induction depth generalizing σ f vs v with
  | zero => cases hv
  | succ depth ih =>
      obtain ⟨fn, t, hget, ht, hbound, hlength, hvalue⟩ := Definitions.value?_eq_some.mp hv
      obtain ⟨b, hb⟩ := Option.isSome_iff_exists.mp hbound
      obtain ⟨fn', hget', hbinds⟩ := h.binding f b hb
      obtain rfl := Option.some.inj (hget.symm.trans hget')
      obtain ⟨-, bindings, hread, hagree⟩ := hbinds.reads
      refine ⟨b, hb, by rw [hbinds.params, hlength], ?_⟩
      rw [hbinds.params]
      have hnames : ∀ n ∈ t.names, (Scope.mk fn.params bindings ev.algebra).Agrees
          (ev.definitions.interpretation fn.params (σ.withArgs fn.params vs)
            (ev.definitions.value? ev.isBound V .dynamic depth (σ.withArgs fn.params vs)))
          (σ.withArgs fn.params vs) n := by
        intro n hn
        refine Definitions.agrees (fun hparam hword hname => ?_) (fun hr ws w hw => ?_)
        · rw [hagree t ht n hn hparam hword, ← Option.not_isSome_iff_eq_none,
            Option.isSome_iff_exists]
          rintro ⟨b', hb'⟩
          obtain ⟨fn', hfn', -⟩ := h.binding n b' hb'
          exact hname (Definitions.mem_names_of_get? hfn')
        · rw [hagree t ht n hn (by rw [hr]; simp) (by rw [hr]; simp)]
          exact ih hw
      have hmeaning : ∀ m, textMeaning? ⟨fn.params, bindings, ev.algebra⟩ fn.body = some m →
          ∃ e, m = .expr e ∧ e.value? (σ.withArgs fn.params vs) = some v := by
        intro m hm
        rw [textMeaning?_eq ht] at hm
        exact Term.value?_meaning? hA hm hvalue hnames
      rcases Expr.ofText_ok hread with hexpr | ⟨c, htruth, -⟩
      · obtain ⟨e, heq, he⟩ := hmeaning _ hexpr
        cases heq
        exact he
      · obtain ⟨e, heq, -⟩ := hmeaning _ htruth
        cases heq

end Evaluator

/-! ## Calls in exact arithmetic -/

/-- Numbers as values of variables. -/
def Valuation.ofReals (V : String → Option ℝ) : Valuation := fun n => (V n).map .number

/-- A call with exact numbers for the arguments and for the variables;
`plane` makes a scalar of a point in the plane. -/
noncomputable def Prepared.callExact (p : Prepared) (plane : Float → Float → Exact)
    (V : String → Option ℝ) (xs : List ℝ) : Except Failure Exact := do
  let inputs ← p.inputs (fun n => (V n).map Exact.number) (xs.map Exact.number)
  return (p.formula.code plane).eval inputs

section Places

variable {α β : Type} {ns : List String} {n : String}

/-- What is kept under a name stands at the place of the name. -/
theorem getElem?_findIdx_of_lookup {as : List α} {a : α} (h : (ns.zip as).lookup n = some a) :
    as[ns.findIdx (· == n)]? = some a := by
  induction ns generalizing as with
  | nil => cases h
  | cons m ns ih =>
      cases as with
      | nil => cases h
      | cons b as =>
          rw [List.zip_cons_cons, List.lookup_cons] at h
          rw [List.findIdx_cons, BEq.comm]
          cases hm : n == m with
          | true =>
              rw [hm] at h
              exact h
          | false =>
              rw [hm] at h
              exact ih h

theorem lookup_zip_map (ns : List String) (as : List α) (f : α → β) (n : String) :
    (ns.zip (as.map f)).lookup n = ((ns.zip as).lookup n).map f := by
  induction ns generalizing as with
  | nil => rfl
  | cons m ns ih =>
      cases as with
      | nil => rfl
      | cons a as =>
          rw [List.map_cons, List.zip_cons_cons, List.zip_cons_cons, List.lookup_cons,
            List.lookup_cons, ih]
          cases n == m <;> rfl

theorem lookup_zip_self (h : n ∈ ns) (f : String → β) :
    (ns.zip (ns.map f)).lookup n = some (f n) := by
  rw [lookup_zip_map]
  induction ns with
  | nil => cases h
  | cons m ns ih =>
      rw [List.zip_cons_cons, List.lookup_cons]
      cases hm : n == m with
      | true => rw [eq_of_beq hm]; rfl
      | false =>
          rcases List.mem_cons.mp h with rfl | h
          · rw [beq_self_eq_true] at hm
            cases hm
          · exact ih h

end Places

namespace Prepared

/-- What a call reads if every free variable has a value. -/
theorem inputs_eq {β : Type} {p : Prepared} {find? : String → Option β} {values : List β}
    {f : String → β} (hlength : values.length = p.formula.args.length)
    (hfree : ∀ n ∈ p.formula.free, find? n = some (f n)) (hfault : p.fault = none) :
    p.inputs find? values = .ok (values ++ p.formula.free.map f) := by
  have hvalues : p.freeValues find? = .ok (p.formula.free.map f) := by
    refine mapM_eq_map fun n hn => ?_
    rw [hfree n hn]
  rw [inputs, hlength, bne_self_eq_false, hvalues, hfault]
  rfl

theorem inputs_eq_ok {β : Type} {p : Prepared} {find? : String → Option β} {values inputs : List β}
    (h : p.inputs find? values = .ok inputs) :
    values.length = p.formula.args.length ∧ p.fault = none ∧
      ∃ free, p.freeValues find? = .ok free ∧ inputs = values ++ free := by
  rw [Prepared.inputs] at h
  split at h
  · cases h
  · rename_i hlength
    obtain ⟨free, hfree, h⟩ := bind_eq_ok.mp h
    cases hfault : p.fault with
    | some f =>
        rw [hfault] at h
        cases h
    | none =>
        rw [hfault] at h
        exact ⟨by simpa using hlength, rfl, free, hfree, (Except.ok.inj h).symm⟩

theorem freeValues_eq_ok {β : Type} {p : Prepared} {find? : String → Option β} {free : List β}
    (h : p.freeValues find? = .ok free) : p.formula.free.map find? = free.map some := by
  rw [Prepared.freeValues] at h
  generalize p.formula.free = ns at h
  induction ns generalizing free with
  | nil =>
      obtain rfl := Except.ok.inj h
      rfl
  | cons n ns ih =>
      obtain ⟨v, vs, hv, hvs, rfl⟩ := mapM_cons_eq_ok.mp h
      rw [List.map_cons, List.map_cons, ih hvs]
      split at hv
      · rename_i heq
        obtain rfl := Except.ok.inj hv
        rw [heq]
      · cases hv

section OfExpr

variable {text : String} {params : List String} {e : Expr} {V : String → Option ℝ} {xs : List ℝ}
  {v : Value}

/-- The variables that are no arguments have values. -/
theorem free_ofExpr (text : String)
    (hv : e.value? ((Valuation.ofReals V).withArgs params (xs.map .number)) = some v) :
    ∀ n ∈ (Formula.ofExpr text params e).free, n ∉ params ∧ V n = some ((V n).getD 0) := by
  intro n hn
  obtain ⟨hmem, hparam⟩ := List.mem_filter.mp ((List.mergeSort_perm _ _).mem_iff.mp hn)
  rw [Bool.not_eq_true', ← Bool.not_eq_true, List.contains_iff_mem] at hparam
  obtain ⟨w, hw⟩ := Expr.exists_of_mem_freeVars hv hmem
  rw [Definitions.withArgs_of_notMem hparam] at hw
  obtain ⟨x, hx, -⟩ := Option.map_eq_some_iff.mp hw
  exact ⟨hparam, by rw [hx, Option.getD_some]⟩

/-- Arguments and free variables stand at the places of their names. -/
theorem getElem?_inputs (hlength : params.length = xs.length)
    (hfree : ∀ n ∈ (Formula.ofExpr text params e).free,
      n ∉ params ∧ V n = some ((V n).getD 0)) {n : String} {w : Value}
    (hn : n ∈ (Formula.ofExpr text params e).inputs)
    (hw : (Valuation.ofReals V).withArgs params (xs.map .number) n = some w) :
    (xs.map Exact.number ++ (Formula.ofExpr text params e).free.map fun n =>
      Exact.number ((V n).getD 0))[(Formula.ofExpr text params e).place n]? = some w.exact := by
  have hargs : (Formula.ofExpr text params e).args.length = (xs.map Exact.number).length :=
    hlength.trans (List.length_map _).symm
  refine getElem?_findIdx_of_lookup ?_
  rw [Formula.inputs, List.zip_append hargs, List.lookup_append, lookup_zip_map,
    show (Formula.ofExpr text params e).args = params from rfl]
  rw [Valuation.withArgs, lookup_zip_map] at hw
  rcases List.mem_append.mp hn with hparam | hn
  · obtain ⟨x, hx⟩ := Definitions.lookup_zip_of_mem hlength hparam
    rw [hx] at hw ⊢
    obtain rfl := Option.some.inj hw
    rfl
  · obtain ⟨hparam, hfind⟩ := hfree n hn
    rw [Definitions.lookup_zip_of_notMem hparam] at hw ⊢
    rw [Option.map_none, Option.none_or, Valuation.ofReals, hfind] at hw
    obtain rfl := Option.some.inj hw
    exact lookup_zip_self hn fun n => Exact.number ((V n).getD 0)

/-- A formula whose variables all have values is worth what its expression
is, with the arguments for its parameters. -/
theorem callExact_ofExpr {p : Prepared} (plane : Float → Float → Exact)
    (hp : ofExpr text params e = .ok p) (hfault : e.callFault? = none)
    (hlength : params.length = xs.length)
    (hv : e.value? ((Valuation.ofReals V).withArgs params (xs.map .number)) = some v) :
    p.callExact plane V xs = .ok v.exact := by
  have hfree := free_ofExpr text hv
  obtain ⟨hformula, hcall⟩ := Evaluator.ofExpr_eq_ok hp
  have hinputs : p.inputs (fun n => (V n).map Exact.number) (xs.map Exact.number)
      = .ok (xs.map Exact.number ++ (Formula.ofExpr text params e).free.map fun n =>
          Exact.number ((V n).getD 0)) := by
    rw [← hformula]
    refine inputs_eq ?_ (fun n hn => ?_) (hcall.trans hfault)
    · rw [hformula, List.length_map]
      exact hlength.symm
    · rw [(hfree n (hformula ▸ hn)).2]
      rfl
  rw [callExact, hinputs, hformula]
  refine congrArg Except.ok (Formula.eval_code hv fun n hn w hw => ?_)
  exact getElem?_inputs hlength hfree hn hw

end OfExpr

end Prepared

/-! ## Calls of bound definitions -/

/-- The tokens of a definition show every definition that its texts refer
to, so that the order of the definitions respects it. -/
def Definitions.Visible (ds : Definitions) : Prop :=
  ∀ fn ∈ ds, ∀ text ∈ fn.texts, ds.Refers fn.params text (identifiers fn.body.toList)

theorem Definitions.Visible.ordered {ds : Definitions} (h : ds.Visible) {order : List String}
    (horder : ds.order = .ok order) : ds.Ordered order := by
  intro before n after hsplit fn hget text htext t ht m hm hr
  obtain ⟨hparam, hname⟩ := of_referent_definition hr
  have hshown := h fn (List.mem_of_find?_eq_some hget) text htext t ht m hm hr
  exact (order_ok horder).2 before n after hsplit fn hget m hname ⟨hparam, mem_identifiers.mp hshown⟩

/-- Whether the definition gives its argument back. -/
def Binding.isIdentity (b : Binding) : Bool :=
  match b.params, b.body with
  | [p], .var q => p == q
  | _, _ => false

/-- The expression of a binding can be called. The identity reads a
variable in the place of its argument, and there are expressions without
code and some that fail in every call. -/
structure Binding.Callable (b : Binding) : Prop where
  proper : b.isIdentity = false
  compiles : b.body.compileFault? = none
  runs : b.body.callFault? = none

instance (b : Binding) : Decidable b.Callable :=
  decidable_of_iff
    (b.isIdentity = false ∧ b.body.compileFault? = none ∧ b.body.callFault? = none)
    ⟨fun ⟨hproper, hcompiles, hruns⟩ => ⟨hproper, hcompiles, hruns⟩,
      fun h => ⟨h.proper, h.compiles, h.runs⟩⟩

namespace Evaluator

variable {ev : Evaluator} {done : List String}

theorem prepareBinding_eq {fn : NamedFunction} {b : Binding} (h : b.isIdentity = false) :
    prepareBinding fn b = Prepared.ofExpr fn.body fn.params b.body := by
  obtain ⟨params, body⟩ := b
  rcases params with - | ⟨p, - | ⟨p', ps⟩⟩
  · rfl
  · cases body with
    | var q =>
        have hpq : (p == q) = false := h
        unfold prepareBinding
        dsimp only
        rw [hpq]
        rfl
    | _ => rfl
  · rfl

theorem Binds.require {fn : NamedFunction} {b : Binding} (h : ev.Binds done fn b) {g : String}
    (hget : ev.definitions.get? g = some fn) : ev.require g [.scalar, .constant] = .ok fn := by
  have hkind : [DefinitionKind.scalar, DefinitionKind.constant].contains fn.kind = true := by
    rcases h.kind with hkind | hkind <;> rw [hkind] <;> rfl
  have hunbound : ev.unbound.lookup g = none := Definitions.name_of_get? hget ▸ h.unbound
  unfold Evaluator.require
  rw [hget]
  dsimp only
  rw [hkind, hunbound]
  rfl

/-- The callable of a definition gives the value of the definition in
dynamic scope. -/
theorem Settled.function_dynamic (h : ev.Settled done) (hA : ev.algebra.Preserves) {g : String}
    (hcallable : ∀ b, ev.bindings.lookup g = some b → b.Callable) {V : String → Option ℝ}
    {depth : Nat} {xs : List ℝ} {v : Value}
    (hv : ev.definitions.value? ev.isBound (.ofReals V) .dynamic depth (.ofReals V) g
      (xs.map .number) = some v) (plane : Float → Float → Exact) :
    ∃ p, (ev.function g).1 = .ok p ∧ p.callExact plane V xs = .ok v.exact := by
  obtain ⟨b, hb, hlength, hvalue⟩ := h.value?_body hA hv
  obtain ⟨fn, hget, hbinds⟩ := h.binding g b hb
  obtain ⟨hproper, hcompiles, hruns⟩ := hcallable b hb
  rw [hbinds.params] at hvalue hlength
  obtain ⟨p, hp⟩ : ∃ p, Prepared.ofExpr fn.body fn.params b.body = .ok p := by
    unfold Prepared.ofExpr
    rw [hcompiles, hbinds.distinct]
    exact ⟨_, rfl⟩
  refine ⟨p, ?_, ?_⟩
  · unfold function
    rw [hbinds.require hget]
    dsimp only
    rw [hb]
    unfold keep
    rw [h.prepared, List.lookup_nil]
    dsimp only
    rw [prepareBinding_eq hproper, hp]
  · exact Prepared.callExact_ofExpr plane hp hruns (hlength.trans (List.length_map _)) hvalue

end Evaluator

/-! ## A variable with the name of a parameter -/

/-- Operations as they are written. -/
def Algebra.literal : Algebra where
  build? h as := if Expr.leavesLine h as then none else some (.node h as)
  divide a b := .mul [a, .pow b (.ofInt (-1))]
  logarithmTo a b := .mul [.node (.fn .log) [a], .pow (.node (.fn .log) [b]) (.ofInt (-1))]

theorem Expr.value?_quotient {σ : Valuation} {a b : Expr} {x y : ℝ}
    (ha : a.value? σ = some (.number x)) (hb : b.value? σ = some (.number y)) (hy : y ≠ 0) :
    (Expr.mul [a, .pow b (.ofInt (-1))]).value? σ = some (.number (x / y)) := by
  have hone : (Expr.ofInt (-1)).value? σ = some (.number (-1)) := by
    show some (Value.number (((-1 : ℤ) : ℚ) : ℝ)) = _
    norm_num
  have hpower : power? y (-1) = some y⁻¹ := by
    rw [power?, Real.rpow_neg_one, if_pos]
    rcases lt_or_gt_of_ne hy with hneg | hpos
    · exact .inr (.inr ⟨hneg, -1, by norm_num⟩)
    · exact .inl hpos
  have hinverse : (Expr.pow b (.ofInt (-1))).value? σ = some (.number y⁻¹) := by
    refine value?_node.mpr ⟨_, values?_two_iff.mpr ⟨b, _, rfl, hb, hone⟩, ?_, ?_⟩
    · cases b with
      | num n => exact Bool.and_false _
      | _ => rfl
    · show (power? y (-1)).map Value.number = _
      rw [hpower]
      rfl
  refine value?_node.mpr ⟨_, values?_two_iff.mpr ⟨a, _, rfl, ha, hinverse⟩, rfl, ?_⟩
  show some (Value.number (List.prod [x, y⁻¹])) = _
  simp [div_eq_mul_inv]

theorem Algebra.literal_preserves : literal.Preserves where
  build {h as e σ vs v} he hvs hv := by
    simp only [literal] at he
    split at he
    · cases he
    · rename_i hline
      obtain rfl := Option.some.inj he
      exact Expr.value?_node.mpr ⟨vs, hvs, Bool.not_eq_true _ ▸ hline, hv⟩
  divide ha hb hy := Expr.value?_quotient ha hb hy
  logarithmTo {a b σ x y} ha hb hx hy hone := by
    have hlog : ∀ {c : Expr} {z : ℝ}, c.value? σ = some (.number z) → 0 < z →
        (Expr.node (.fn .log) [c]).value? σ = some (.number (Real.log z)) := by
      intro c z hc hz
      have hvalue : Fn.log.real? [z] = some (Real.log z) := if_pos hz
      exact Expr.value?_node.mpr
        ⟨_, Expr.values?_one_iff.mpr ⟨c, rfl, hc⟩, rfl, Head.value?_fn hvalue⟩
    exact Expr.value?_quotient (hlog ha hx) (hlog hb hy) (Real.log_ne_zero_of_pos_of_ne_one hy hone)

/-- A definition that reads the variable `t`, and one that calls it with
its parameter. -/
def shiftedBy (param body : String) : Definitions :=
  [⟨"FNA", ["x"], "x + t", 1⟩, ⟨"FNB", [param], body, 2⟩]

theorem ofBody?_shift :
    Term.ofBody? "x + t" = some (.binary .add (.name "x" false) (.name "t" false)) := by cbv

theorem library_t : Referent.library "t" = .free := by
  have hname : Builtin.ofName? "t" = none := by decide +kernel
  rw [Referent.library, hname]
  rfl

section

variable {param body : String} {bound : String → Bool} {V σ : Valuation} {rule : ScopeRule}
  {depth : Nat} {x y : ℝ}

theorem value?_shift (hbound : bound "FNA" = true) (ht : rule.around V σ "t" = some (.number y)) :
    (shiftedBy param body).value? bound V rule (depth + 1) σ "FNA" [.number x]
      = some (.number (x + y)) := by
  refine Definitions.value?_eq_some.mpr ⟨⟨"FNA", ["x"], "x + t", 1⟩,
    _, rfl, ofBody?_shift, hbound, rfl, ?_⟩
  have hfree : (shiftedBy param body).referent ["x"] "t" = .free := library_t
  rw [Term.value?, Term.value?, Term.value?, Definitions.name?_parameter rfl,
    Definitions.name?_free hfree, Definitions.withArgs_of_notMem (n := "t") (by simp), ht]
  rfl

/-- The call adds the variable that is around it. -/
theorem value?_shiftedBy
    (hbody : Term.ofBody? body = some (.call (.name "FNA" true) [.name param false]))
    (hparam : (shiftedBy param body).referent [param] param = .parameter)
    (hcalled : (shiftedBy param body).referent [param] "FNA" = .definition)
    (hbound : bound "FNA" = true ∧ bound "FNB" = true)
    (ht : rule.around V ((rule.around V σ).withArgs [param] [.number x]) "t" = some (.number y)) :
    (shiftedBy param body).value? bound V rule (depth + 2) σ "FNB" [.number x]
      = some (.number (x + y)) := by
  refine Definitions.value?_eq_some.mpr ⟨⟨"FNB", [param], body, 2⟩, _, rfl, hbody, hbound.2, rfl, ?_⟩
  have harg : (rule.around V σ).withArgs [param] [.number x] param = some (.number x) := by
    simp [Valuation.withArgs]
  rw [Term.value?, Term.values?, Term.values?, Term.value?, Definitions.name?_parameter hparam, harg]
  simp only [Option.pure_def, Option.bind_eq_bind, Option.bind_some]
  rw [Definitions.call?_definition hcalled]
  exact value?_shift hbound.1 ht

theorem nodup_shiftedBy (param body : String) : (shiftedBy param body).names.Nodup := by
  simp [shiftedBy, Definitions.names]

/-- The bodies of the definitions name `x` and `t`, and the first
definition and the parameter of the second. -/
theorem names_shiftedBy {f n : String} {r : Referent}
    (hbody : Term.ofBody? body = some (.call (.name "FNA" true) [.name param false]))
    (h : (shiftedBy param body).Names f n r) :
    (f = "FNA" ∧ (n = "x" ∨ n = "t") ∧ (shiftedBy param body).referent ["x"] n = r) ∨
      (f = "FNB" ∧ (n = "FNA" ∨ n = param) ∧ (shiftedBy param body).referent [param] n = r) := by
  obtain ⟨fn, t, hget, ht, hn, hr⟩ := h
  obtain rfl := Definitions.name_of_get? hget
  have hmem := List.mem_of_find?_eq_some hget
  rw [shiftedBy, List.mem_cons, List.mem_singleton] at hmem
  rcases hmem with rfl | rfl
  · obtain rfl := Option.some.inj (ofBody?_shift.symm.trans ht)
    exact .inl ⟨rfl, by simpa [Term.names] using hn, hr⟩
  · obtain rfl := Option.some.inj (hbody.symm.trans ht)
    exact .inr ⟨rfl, by simpa [Term.names, Term.namesList] using hn, hr⟩

/-- The second definition uses the first, and nothing else is used. -/
theorem uses_shiftedBy {f h : String}
    (hbody : Term.ofBody? body = some (.call (.name "FNA" true) [.name param false]))
    (hparam : (shiftedBy param body).referent [param] param = .parameter)
    (huses : (shiftedBy param body).Uses f h) : f = "FNB" ∧ h = "FNA" := by
  rcases names_shiftedBy hbody huses with ⟨-, rfl | rfl, hr⟩ | ⟨rfl, rfl | rfl, hr⟩
  · cases hr
  · have hfree : (shiftedBy param body).referent ["x"] "t" = .free := library_t
    cases hfree.symm.trans hr
  · exact ⟨rfl, rfl⟩
  · cases hparam.symm.trans hr

theorem visible_shiftedBy
    (hbody : Term.ofBody? body = some (.call (.name "FNA" true) [.name param false]))
    (hparam : (shiftedBy param body).referent [param] param = .parameter)
    (hkind : ∀ fn ∈ shiftedBy param body, fn.kind = .scalar)
    (hshown : "FNA" ∈ identifiers body.toList) : (shiftedBy param body).Visible := by
  intro fn hfn text htext t ht n hn hr
  rw [NamedFunction.texts, hkind fn hfn] at htext
  obtain rfl := List.mem_singleton.mp htext
  have huses : (shiftedBy param body).Uses fn.name n :=
    ⟨fn, t, Definitions.get?_of_mem (nodup_shiftedBy _ _) hfn, ht, hn, hr⟩
  obtain ⟨hname, rfl⟩ := uses_shiftedBy hbody hparam huses
  rw [shiftedBy, List.mem_cons, List.mem_singleton] at hfn
  rcases hfn with rfl | rfl
  · exact absurd hname (by decide)
  · exact hshown

/-- The only variable that is read is no parameter. -/
theorem scoped_shiftedBy
    (hbody : Term.ofBody? body = some (.call (.name "FNA" true) [.name param false]))
    (hparam : (shiftedBy param body).referent [param] param = .parameter) (hne : param ≠ "t") :
    (shiftedBy param body).Scoped "FNB" := by
  intro f _ h huses n hfree hmem
  obtain ⟨rfl, rfl⟩ := uses_shiftedBy hbody hparam huses
  obtain rfl := List.mem_singleton.mp hmem
  cases hfree with
  | own hnames =>
      rcases names_shiftedBy hbody hnames with ⟨-, rfl | rfl, hr⟩ | ⟨hname, -, -⟩
      · cases hr
      · exact hne rfl
      · exact absurd hname (by decide)
  | through huses' _ _ =>
      exact absurd (uses_shiftedBy hbody hparam huses').1 (by decide)

end

/-- The variable `t` is zero, and there is no other. -/
noncomputable def zeroForT (n : String) : Option ℝ := if n = "t" then some 0 else none

theorem ofReals_zeroForT : Valuation.ofReals zeroForT "t" = some (.number 0) := by
  rw [Valuation.ofReals, zeroForT, if_pos rfl]
  rfl

namespace Evaluator

theorem bound_shiftedBy {param body : String}
    (h : ((ofDefinitions (shiftedBy param body) [] .literal).toOption.map fun r =>
      ((r.1.isBound "FNA", r.1.isBound "FNB"),
        (r.1.bindings.lookup "FNB").all fun b => decide b.Callable)) = some ((true, true), true)) :
    ∃ ev ws, ofDefinitions (shiftedBy param body) [] .literal = .ok (ev, ws) ∧
      (ev.isBound "FNA" = true ∧ ev.isBound "FNB" = true) ∧
        ∀ b, ev.bindings.lookup "FNB" = some b → b.Callable := by
  obtain ⟨⟨ev, ws⟩, hev, hfacts⟩ := Option.map_eq_some_iff.mp h
  obtain ⟨hbound, hcallable⟩ := Prod.mk.inj hfacts
  refine ⟨ev, ws, eq_ok_of_toOption hev, Prod.mk.inj hbound, fun b hb => ?_⟩
  dsimp only at hcallable
  rw [hb] at hcallable
  exact of_decide_eq_true hcallable

end Evaluator
end FieldScript
