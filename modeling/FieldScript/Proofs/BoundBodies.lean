import FieldScript.Proofs.EvaluatorFailures
import FieldScript.Proofs.ScopeRules

/-!
# What a definition is bound to

Binding goes through the definitions in order and keeps the expressions
of the texts it has read. If every definition stands behind those that
its texts refer to, a text means the same whenever it is read: the names
in it are settled by then. The invariant of the run
(`Evaluator.Settled`) says so of all bindings and of all kept
expressions; one step preserves it, and so does the run.
-/

namespace FieldScript

/-- The texts that are read to bind a definition. -/
def NamedFunction.texts (f : NamedFunction) : List String :=
  match f.kind with
  | .vector | .tensor => (splitComponents? f.body.toList).getD []
  | .scalar | .constant => [f.body]

/-- All definitions that the text refers to are among these names. -/
def Definitions.Refers (ds : Definitions) (params : List String) (text : String)
    (names : List String) : Prop :=
  ∀ t, Term.ofBody? text = some t → ∀ n ∈ t.names, ds.referent params n = .definition → n ∈ names

/-- Every definition stands behind those that its texts refer to. -/
def Definitions.Ordered (ds : Definitions) (order : List String) : Prop :=
  ∀ before n after, order = before ++ n :: after → ∀ fn, ds.get? n = some fn →
    ∀ text ∈ fn.texts, ds.Refers fn.params text before

namespace Evaluator

variable {ev ev' : Evaluator} {done : List String} {params : List String} {text : String} {e : Expr}

/-! ## Lists of values by name -/

theorem lookup_map_put {β : Type} (xs : List (String × β)) (name : String) (v : β) (n : String) :
    (xs.map fun p => if p.1 == name then (name, v) else p).lookup n =
      if n = name then (if xs.any (·.1 == name) then some v else none) else xs.lookup n := by
  induction xs with
  | nil => simp
  | cons p xs ih =>
      rw [List.map_cons, List.lookup_cons, ih, List.any_cons, List.lookup_cons]
      by_cases hp : p.1 = name
      · by_cases hn : n = name
        · simp [hp, hn]
        · have hne : (n == name) = false := beq_eq_false_iff_ne.mpr hn
          simp [hp, hn, hne]
      · have hne : (p.1 == name) = false := beq_eq_false_iff_ne.mpr hp
        by_cases hn : n = name
        · have hne' : (name == p.1) = false := beq_eq_false_iff_ne.mpr (Ne.symm hp)
          rw [hne, Bool.false_or, if_neg Bool.false_ne_true, hn, hne']
        · rw [hne, if_neg Bool.false_ne_true, if_neg hn, if_neg hn]

theorem lookup_put {β : Type} (xs : List (String × β)) (name : String) (v : β) (n : String) :
    (put xs name v).lookup n = if n = name then some v else xs.lookup n := by
  rw [put]
  split
  · rename_i hany
    rw [lookup_map_put, if_pos hany]
  · rename_i hany
    rw [List.lookup_append]
    by_cases hn : n = name
    · have hnone : xs.lookup name = none := by
        rw [List.lookup_eq_none_iff]
        intro p hp
        rw [bne_iff_ne]
        rintro rfl
        exact hany (List.any_eq_true.mpr ⟨p, hp, beq_self_eq_true _⟩)
      simp [hn, hnone]
    · have hne : (n == name) = false := beq_eq_false_iff_ne.mpr hn
      simp [hn, hne, List.lookup]

/-! ## The invariant -/

/-- The expression is what the text writes in a scope that tells all names
of the text apart as the evaluator does, and its definitions are done. -/
def Reads (ev : Evaluator) (done params : List String) (text : String) (e : Expr) : Prop :=
  ev.definitions.Refers params text done ∧
    ∃ bindings, Expr.ofText ⟨params, bindings, ev.algebra⟩ text = .ok e ∧
      ∀ t, Term.ofBody? text = some t → ∀ n ∈ t.names,
        ev.definitions.referent params n ≠ .parameter → ev.definitions.referent params n ≠ .word →
          bindings.lookup n = ev.bindings.lookup n

/-- A binding of a scalar function or a constant. -/
structure Binds (ev : Evaluator) (done : List String) (fn : NamedFunction) (b : Binding) :
    Prop where
  mem : fn.name ∈ done
  kind : fn.kind = .scalar ∨ fn.kind = .constant
  params : b.params = fn.params
  distinct : Prepared.hasRepeated fn.params = false
  unbound : ev.unbound.lookup fn.name = none
  reads : ev.Reads done fn.params fn.body b.body

/-- The evaluator has bound the definitions of these names. -/
structure Settled (ev : Evaluator) (done : List String) : Prop where
  prepared : ev.prepared = []
  unbound : ∀ n, n ∉ done → ev.unbound.lookup n = none
  binding : ∀ n b, ev.bindings.lookup n = some b →
    ∃ fn, ev.definitions.get? n = some fn ∧ ev.Binds done fn b
  reading : ∀ text params e, ev.readings.lookup (text, params) = some e →
    ev.Reads done params text e

/-- The evaluators have the same bindings. -/
def SameBindings (ev ev' : Evaluator) : Prop :=
  ev'.definitions = ev.definitions ∧ ev'.algebra = ev.algebra ∧ ev'.bindings = ev.bindings ∧
    ev'.unbound = ev.unbound

/-- What has been read stays so while names that are not done are
bound. -/
theorem Reads.mono {done' : List String} (h : ev.Reads done params text e)
    (hdefinitions : ev'.definitions = ev.definitions) (halgebra : ev'.algebra = ev.algebra)
    (hdone : ∀ n ∈ done, n ∈ done')
    (hkept : ∀ n, (n ∈ ev.definitions.names → n ∈ done) →
      ev'.bindings.lookup n = ev.bindings.lookup n) : ev'.Reads done' params text e := by
  obtain ⟨hrefers, bindings, hread, hagree⟩ := h
  rw [Reads, hdefinitions, halgebra]
  refine ⟨fun t ht n hn hdef => hdone n (hrefers t ht n hn hdef), bindings, hread, ?_⟩
  intro t ht n hn hparam hword
  rw [hagree t ht n hn hparam hword, hkept n]
  intro hdefined
  exact hrefers t ht n hn (Definitions.referent_of_mem_names hdefined hparam hword)

theorem Binds.mono {done' : List String} {fn : NamedFunction} {b : Binding}
    (h : ev.Binds done fn b) (hdefinitions : ev'.definitions = ev.definitions)
    (halgebra : ev'.algebra = ev.algebra) (hdone : ∀ n ∈ done, n ∈ done')
    (hkept : ∀ n, (n ∈ ev.definitions.names → n ∈ done) →
      ev'.bindings.lookup n = ev.bindings.lookup n)
    (hunbound : ∀ n ∈ done, ev'.unbound.lookup n = ev.unbound.lookup n) :
    ev'.Binds done' fn b :=
  ⟨hdone _ h.mem, h.kind, h.params, h.distinct, (hunbound _ h.mem).trans h.unbound,
    h.reads.mono hdefinitions halgebra hdone hkept⟩

/-- Reading a text keeps the invariant. -/
theorem Settled.readKept (h : ev.Settled done) (hrefers : ev.definitions.Refers params text done) :
    (ev.readKept text params).2.Settled done ∧
      SameBindings ev (ev.readKept text params).2 ∧
      ∀ e, (ev.readKept text params).1 = .ok e →
        (ev.readKept text params).2.Reads done params text e := by
  have hread : ∀ e, ev.read text params = .ok e → ev.Reads done params text e := by
    intro e he
    unfold read at he
    split at he
    · rename_i e' hlookup
      obtain rfl := Except.ok.inj he
      exact h.reading text params _ hlookup
    · exact ⟨hrefers, ev.bindings, he, fun _ _ _ _ _ _ => rfl⟩
  unfold Evaluator.readKept
  split
  · rename_i e he
    refine ⟨⟨h.prepared, h.unbound, ?_, ?_⟩, ⟨rfl, rfl, rfl, rfl⟩, ?_⟩
    · intro n b hb
      obtain ⟨fn, hfn, hbinds⟩ := h.binding n b hb
      exact ⟨fn, hfn, hbinds.mono rfl rfl (fun _ h => h) (fun _ _ => rfl) (fun _ _ => rfl)⟩
    · intro text' params' e' hlookup
      dsimp only at hlookup
      rw [List.lookup_cons] at hlookup
      split at hlookup
      · rename_i heq
        obtain ⟨rfl, rfl⟩ := Prod.mk.inj (eq_of_beq heq)
        obtain rfl := Option.some.inj hlookup
        exact hread _ he
      · exact h.reading text' params' e' hlookup
    · intro e' he'
      obtain rfl := Except.ok.inj he'
      exact hread _ he
  · exact ⟨h, ⟨rfl, rfl, rfl, rfl⟩, fun e he => by cases he⟩

theorem SameBindings.trans {a b c : Evaluator} (h : SameBindings a b) (h' : SameBindings b c) :
    SameBindings a c :=
  ⟨h'.1.trans h.1, h'.2.1.trans h.2.1, h'.2.2.1.trans h.2.2.1, h'.2.2.2.trans h.2.2.2⟩

theorem Settled.readAll (h : ev.Settled done) {texts : List String}
    (hrefers : ∀ text ∈ texts, ev.definitions.Refers params text done) :
    (ev.readAll params texts).2.Settled done ∧ SameBindings ev (ev.readAll params texts).2 := by
  refine readAll_preserves (P := fun ev' => ev'.Settled done ∧ SameBindings ev ev') ?_
    ⟨h, rfl, rfl, rfl, rfl⟩
  intro text htext ev₁ ⟨hsettled, hsame⟩
  obtain ⟨hkept, hsame₁, -⟩ := hsettled.readKept (by rw [hsame.1]; exact hrefers text htext)
  exact ⟨hkept, hsame.trans hsame₁⟩

/-- Whatever is put for a new name, the invariant holds with this name
done. -/
theorem Settled.extend {done' : List String} {fn : NamedFunction} (h : ev.Settled done)
    (hnew : fn.name ∉ done) (hdefined : fn.name ∈ ev.definitions.names)
    (hdone : ∀ n, n ∈ done' ↔ n ∈ done ∨ n = fn.name) (hdefinitions : ev'.definitions = ev.definitions)
    (halgebra : ev'.algebra = ev.algebra) (hprepared : ev'.prepared = ev.prepared)
    (hreadings : ev'.readings = ev.readings)
    (hunbound : ∀ n, n ≠ fn.name → ev'.unbound.lookup n = ev.unbound.lookup n)
    (hbindings : ∀ n, n ≠ fn.name → ev'.bindings.lookup n = ev.bindings.lookup n)
    (hfn : ∀ b, ev'.bindings.lookup fn.name = some b →
      ev'.definitions.get? fn.name = some fn ∧ ev'.Binds done' fn b) : ev'.Settled done' := by
  have hkept : ∀ n, (n ∈ ev.definitions.names → n ∈ done) →
      ev'.bindings.lookup n = ev.bindings.lookup n := by
    intro n hn
    refine hbindings n ?_
    rintro rfl
    exact hnew (hn hdefined)
  have hsub : ∀ n ∈ done, n ∈ done' := fun n hn => (hdone n).mpr (Or.inl hn)
  have hold : ∀ n ∈ done, ev'.unbound.lookup n = ev.unbound.lookup n := by
    intro n hn
    refine hunbound n ?_
    rintro rfl
    exact hnew hn
  refine ⟨hprepared.trans h.prepared, ?_, ?_, ?_⟩
  · intro n hn
    have hne : n ≠ fn.name := fun heq => hn ((hdone n).mpr (Or.inr heq))
    rw [hunbound n hne]
    exact h.unbound n fun hmem => hn (hsub n hmem)
  · intro n b hb
    by_cases hne : n = fn.name
    · subst hne
      exact ⟨fn, hfn b hb⟩
    · rw [hbindings n hne] at hb
      obtain ⟨fn', hget, hbinds⟩ := h.binding n b hb
      rw [hdefinitions]
      exact ⟨fn', hget, hbinds.mono hdefinitions halgebra hsub hkept hold⟩
  · intro text params e he
    rw [hreadings] at he
    exact (h.reading text params e he).mono hdefinitions halgebra hsub hkept

theorem mem_append_singleton (done : List String) (name n : String) :
    n ∈ done ++ [name] ↔ n ∈ done ∨ n = name := by
  rw [List.mem_append, List.mem_singleton]

section Bind

variable {fn : NamedFunction}

theorem texts_of_scalar (h : fn.kind = .scalar ∨ fn.kind = .constant) : fn.texts = [fn.body] := by
  rcases h with h | h <;> rw [NamedFunction.texts, h]

/-- Binding a field reads its texts and puts the components, or leaves the
field unbound. -/
theorem bind_field_ok {ws : List String} (hkind : fn.kind = .vector ∨ fn.kind = .tensor)
    (hbind : ev.bind fn = .ok (ev', ws)) :
    (∃ es, ev' = { (ev.readAll fn.params fn.texts).2 with
        components := put (ev.readAll fn.params fn.texts).2.components fn.name es }) ∨
      ∃ f, ev' = ((ev.readAll fn.params fn.texts).2.leaveUnbound fn f).1 := by
  rw [Evaluator.bind_field ev hkind] at hbind
  split at hbind
  · cases hbind
  · rename_i texts htexts
    have hall : fn.texts = texts := by
      rcases hkind with hk | hk <;> rw [NamedFunction.texts, hk, htexts] <;> rfl
    rw [hall]
    split at hbind <;> rename_i heq <;> rw [heq] <;>
      obtain ⟨rfl, -⟩ := Prod.mk.inj (Except.ok.inj hbind)
    · exact Or.inl ⟨_, rfl⟩
    · exact Or.inr ⟨_, rfl⟩

/-- Binding a scalar function or a constant reads its body and puts the
expression, or leaves the definition unbound. -/
theorem bind_scalar_ok {ws : List String} (hkind : fn.kind = .scalar ∨ fn.kind = .constant)
    (hbind : ev.bind fn = .ok (ev', ws)) :
    (∃ e, (ev.readKept fn.body fn.params).1 = .ok e ∧ Prepared.hasRepeated fn.params = false ∧
        ev' = { (ev.readKept fn.body fn.params).2 with
          bindings := put (ev.readKept fn.body fn.params).2.bindings fn.name ⟨fn.params, e⟩ }) ∨
      ∃ f, (ev.readKept fn.body fn.params).1 = .error f ∧
        ev' = ((ev.readKept fn.body fn.params).2.leaveUnbound fn f).1 := by
  rw [Evaluator.bind_scalar ev hkind] at hbind
  split at hbind <;> rename_i heq <;> rw [heq]
  · split at hbind
    · cases hbind
    · rename_i hrepeated
      obtain ⟨rfl, -⟩ := Prod.mk.inj (Except.ok.inj hbind)
      exact Or.inl ⟨_, rfl, Bool.not_eq_true _ ▸ hrepeated, rfl⟩
  · obtain ⟨rfl, -⟩ := Prod.mk.inj (Except.ok.inj hbind)
    exact Or.inr ⟨_, rfl, rfl⟩

theorem Settled.lookup_new (h : ev.Settled done) (hget : ev.definitions.get? fn.name = some fn)
    (hnew : fn.name ∉ done) : ev.bindings.lookup fn.name = none := by
  cases hlookup : ev.bindings.lookup fn.name with
  | none => rfl
  | some b =>
      obtain ⟨fn', hget', hbinds⟩ := h.binding _ b hlookup
      rw [hget] at hget'
      obtain rfl := Option.some.inj hget'
      exact absurd hbinds.mem hnew

theorem Settled.leaveUnbound (h : ev.Settled done) (hget : ev.definitions.get? fn.name = some fn)
    (hnew : fn.name ∉ done) (f : ExpressionFault) :
    (ev.leaveUnbound fn f).1.Settled (done ++ [fn.name]) := by
  refine h.extend hnew (Definitions.mem_names_of_get? hget) (mem_append_singleton done fn.name) rfl rfl rfl rfl
    ?_ (fun _ _ => rfl) ?_
  · intro n hn
    exact (lookup_put _ _ _ _).trans (if_neg hn)
  · intro b hb
    rw [show (ev.leaveUnbound fn f).1.bindings = ev.bindings from rfl, h.lookup_new hget hnew] at hb
    cases hb

/-- A field has components and no binding. -/
theorem Settled.bind_field {ws : List String} (h : ev.Settled done)
    (hget : ev.definitions.get? fn.name = some fn) (hnew : fn.name ∉ done)
    (hrefers : ∀ text ∈ fn.texts, ev.definitions.Refers fn.params text done)
    (hkind : fn.kind = .vector ∨ fn.kind = .tensor) (hbind : ev.bind fn = .ok (ev', ws)) :
    ev'.Settled (done ++ [fn.name]) ∧ ev'.definitions = ev.definitions ∧
      ev'.algebra = ev.algebra := by
  obtain ⟨hsettled, hsame⟩ := h.readAll hrefers
  have hcases := bind_field_ok hkind hbind
  generalize (ev.readAll fn.params fn.texts).2 = ev₁ at hsettled hsame hcases
  have hget₁ : ev₁.definitions.get? fn.name = some fn := by rw [hsame.1, hget]
  rcases hcases with ⟨es, rfl⟩ | ⟨f, rfl⟩
  · refine ⟨?_, hsame.1, hsame.2.1⟩
    refine hsettled.extend hnew (Definitions.mem_names_of_get? hget₁)
      (mem_append_singleton done fn.name) rfl rfl rfl rfl (fun _ _ => rfl) (fun _ _ => rfl) ?_
    intro b hb
    rw [show List.lookup fn.name ev₁.bindings = none from hsettled.lookup_new hget₁ hnew] at hb
    cases hb
  · exact ⟨hsettled.leaveUnbound hget₁ hnew f, hsame.1, hsame.2.1⟩

/-- The expression of a scalar function or a constant is put under its
name. -/
theorem Settled.put {e : Expr} (h : ev.Settled done)
    (hget : ev.definitions.get? fn.name = some fn) (hnew : fn.name ∉ done)
    (hkind : fn.kind = .scalar ∨ fn.kind = .constant)
    (hdistinct : Prepared.hasRepeated fn.params = false)
    (hreads : ev.Reads done fn.params fn.body e) :
    Settled { ev with bindings := Evaluator.put ev.bindings fn.name ⟨fn.params, e⟩ }
      (done ++ [fn.name]) := by
  have hother : ∀ n, n ≠ fn.name →
      (Evaluator.put ev.bindings fn.name ⟨fn.params, e⟩).lookup n = ev.bindings.lookup n :=
    fun n hn => (lookup_put _ _ _ _).trans (if_neg hn)
  have hdefined := Definitions.mem_names_of_get? hget
  refine h.extend hnew hdefined (mem_append_singleton done fn.name) rfl rfl rfl rfl
    (fun _ _ => rfl) hother ?_
  intro b hb
  rw [lookup_put, if_pos rfl] at hb
  obtain rfl := Option.some.inj hb
  refine ⟨hget, ?_, hkind, rfl, hdistinct, h.unbound _ hnew, ?_⟩
  · exact (mem_append_singleton done fn.name fn.name).mpr (Or.inr rfl)
  · refine hreads.mono rfl rfl (fun n hn => List.mem_append_left _ hn) ?_
    intro n hn
    refine hother n ?_
    rintro rfl
    exact hnew (hn hdefined)

theorem Settled.bind_scalar {ws : List String} (h : ev.Settled done)
    (hget : ev.definitions.get? fn.name = some fn) (hnew : fn.name ∉ done)
    (hrefers : ∀ text ∈ fn.texts, ev.definitions.Refers fn.params text done)
    (hkind : fn.kind = .scalar ∨ fn.kind = .constant) (hbind : ev.bind fn = .ok (ev', ws)) :
    ev'.Settled (done ++ [fn.name]) ∧ ev'.definitions = ev.definitions ∧
      ev'.algebra = ev.algebra := by
  rw [texts_of_scalar hkind] at hrefers
  obtain ⟨hsettled, hsame, hreads⟩ := h.readKept (hrefers fn.body (List.mem_singleton.mpr rfl))
  have hcases := bind_scalar_ok hkind hbind
  generalize ev.readKept fn.body fn.params = r at hsettled hsame hreads hcases
  have hget₁ : r.2.definitions.get? fn.name = some fn := by rw [hsame.1, hget]
  rcases hcases with ⟨e, he, hdistinct, rfl⟩ | ⟨f, -, rfl⟩
  · exact ⟨hsettled.put hget₁ hnew hkind hdistinct (hreads e he), hsame.1, hsame.2.1⟩
  · exact ⟨hsettled.leaveUnbound hget₁ hnew f, hsame.1, hsame.2.1⟩

/-- Binding a definition whose texts refer to what is done keeps the
invariant, and the definition is done then. -/
theorem Settled.bind {ws : List String} (h : ev.Settled done)
    (hget : ev.definitions.get? fn.name = some fn) (hnew : fn.name ∉ done)
    (hrefers : ∀ text ∈ fn.texts, ev.definitions.Refers fn.params text done)
    (hbind : ev.bind fn = .ok (ev', ws)) :
    ev'.Settled (done ++ [fn.name]) ∧ ev'.definitions = ev.definitions ∧
      ev'.algebra = ev.algebra := by
  rcases field_or_scalar fn with hfield | hscalar
  · exact h.bind_field hget hnew hrefers hfield hbind
  · exact h.bind_scalar hget hnew hrefers hscalar hbind

end Bind

/-- What binding one definition after the earlier ones of an order
preserves, binding all of them does. -/
theorem bindAll_preserves {order : List String} {P : Evaluator → List String → Prop}
    (hnodup : order.Nodup)
    (hstep : ∀ before fn after, order = before ++ fn.name :: after → fn.name ∉ before →
      ∀ (ev ev' : Evaluator) (ws : List String), P ev before →
        ev.definitions.get? fn.name = some fn → ev.bind fn = .ok (ev', ws) →
          P ev' (before ++ [fn.name]))
    {rest ws : List String} (h : P ev done) (hrest : order = done ++ rest)
    (hbind : ev.bindAll rest = .ok (ev', ws)) : P ev' order := by
  induction rest generalizing ev done ws with
  | nil =>
      obtain ⟨rfl, -⟩ := Prod.mk.inj (Except.ok.inj hbind)
      rw [hrest, List.append_nil]
      exact h
  | cons n rest ih =>
      rw [Evaluator.bindAll] at hbind
      split at hbind
      · cases hbind
      · rename_i fn hget
        obtain rfl := Definitions.name_of_get? hget
        obtain ⟨⟨ev₁, ws₁⟩, hbind₁, hbind⟩ := bind_eq_ok.mp hbind
        obtain ⟨⟨ev₂, ws₂⟩, hbind₂, hbind⟩ := bind_eq_ok.mp hbind
        obtain ⟨rfl, -⟩ := Prod.mk.inj (Except.ok.inj hbind)
        have hnew : fn.name ∉ done := by
          intro hmem
          rw [hrest] at hnodup
          exact (List.nodup_append.mp hnodup).2.2 _ hmem _ List.mem_cons_self rfl
        have hnext := hstep done fn rest hrest hnew ev ev₁ ws₁ h hget hbind₁
        exact ih hnext (by rw [hrest, List.append_cons]) hbind₂

/-- Binding all definitions of an order keeps the invariant. -/
theorem Settled.bindAll {order : List String} {ws : List String} (h : ev.Settled [])
    (hnodup : order.Nodup) (hordered : ev.definitions.Ordered order)
    (hbind : ev.bindAll order = .ok (ev', ws)) :
    ev'.Settled order ∧ ev'.definitions = ev.definitions ∧ ev'.algebra = ev.algebra := by
  refine bindAll_preserves (P := fun ev' done => ev'.Settled done ∧
    ev'.definitions = ev.definitions ∧ ev'.algebra = ev.algebra) hnodup ?_ ⟨h, rfl, rfl⟩ rfl hbind
  intro before fn after hsplit hnew ev₁ ev₂ ws₁ ⟨hsettled, hdefinitions, halgebra⟩ hget hbind₁
  have hrefers := hordered before fn.name after hsplit fn (hdefinitions ▸ hget)
  obtain ⟨hsettled₂, hdefinitions₂, halgebra₂⟩ :=
    hsettled.bind hget hnew (by rw [hdefinitions]; exact hrefers) hbind₁
  exact ⟨hsettled₂, hdefinitions₂.trans hdefinitions, halgebra₂.trans halgebra⟩

/-- An evaluator has bound the definitions in their order. -/
theorem settled_of_ofDefinitions {ds : Definitions} {environment : Assignment} {A : Algebra}
    {ws : List String} (hnames : ds.names.Nodup)
    (hordered : ∀ order, ds.order = .ok order → ds.Ordered order)
    (h : ofDefinitions ds environment A = .ok (ev, ws)) :
    (∃ order, ev.Settled order) ∧ ev.definitions = ds ∧ ev.algebra = A := by
  obtain ⟨order, horder, hbind⟩ := bind_eq_ok.mp h
  have hempty : Settled ⟨ds, order, [], [], [], [], [], environment, A⟩ [] :=
    ⟨rfl, fun _ _ => rfl, fun _ _ h => (by cases h), fun _ _ _ h => (by cases h)⟩
  obtain ⟨hsettled, hdefinitions, halgebra⟩ := hempty.bindAll
    ((Definitions.order_ok horder).1.nodup_iff.mpr hnames) (hordered order horder) hbind
  exact ⟨⟨order, hsettled⟩, hdefinitions, halgebra⟩

end Evaluator
end FieldScript
