import FieldScript.Proofs.EvaluatorFailures

/-!
# What callers can tell of the caches

An evaluator keeps the expressions of texts and the callables that it has
made. Two evaluators look the same (`SameView`) if they read every text
alike and compile every text alike, except under the keys of some
callables; a request keeps the view of the evaluator, whether it is
answered or fails.

The callables of definitions are kept with those of texts, under a text
in angle brackets. No other text can tell what was asked before, but this
one can: it is no expression, and yet it has a callable once the
definition was asked for.
-/

namespace FieldScript

/-- What an evaluator can be asked for. -/
inductive Request where
  | compile (text : String) (args : List String)
  | evaluate (text : String) (values : Assignment)
  | function (name : String)
  | vectorFunction (name : String)
  | tensorFunction (name : String)
  | set (name : String) (v : Float)
  | unset (name : String)

/-- The request may put the callable of a definition under this key. -/
def Request.Takes (ds : Definitions) (key : Reading) : Request → Prop
  | function n => ∃ fn, ds.get? n = some fn ∧ key = Evaluator.keyOf n fn.params
  | vectorFunction n | tensorFunction n => ∃ fn, ∃ index : Nat, ds.get? n = some fn ∧
      key = Evaluator.keyOf (fn.name ++ "[" ++ toString index ++ "]") fn.params
  | _ => False

namespace Evaluator

/-- The evaluator after a request, whatever the answer was. -/
def serve (ev : Evaluator) : Request → Evaluator
  | .compile text args => (ev.compileKept text args).2
  | .evaluate text values => (ev.evaluateKept text values).2
  | .function n => (ev.function n).2
  | .vectorFunction n => (ev.vectorFunction n).2
  | .tensorFunction n => (ev.tensorFunction n).2
  | .set n v => ev.set n v
  | .unset n => ev.unset n

def serveAll (ev : Evaluator) (rs : List Request) : Evaluator := rs.foldl serve ev

variable {ev ev' : Evaluator} {hidden : Reading → Prop}

/-! ## Answers -/

theorem readKept_answer (ev : Evaluator) (text : String) (params : List String) :
    (ev.readKept text params).1 = ev.read text params := by
  rw [readKept]
  cases ev.read text params <;> rfl

theorem keep_answer {key : Reading} {make : Except Failure Prepared}
    (h : ev.prepared.lookup key = none) : (ev.keep key make).1 = make := by
  unfold keep
  rw [h]
  cases make <;> rfl

/-- Keeping the callable does not change the answer. -/
theorem compileKept_answer (ev : Evaluator) (text : String) (args : List String) :
    (ev.compileKept text args).1 = ev.compile text args := by
  rw [compileKept, compile]
  split
  · rfl
  · rename_i hlookup
    have hread := readKept_answer ev text args
    have hsame := (readKept_bindsOnly ev text args).sameCallables.2
    split <;> rename_i heq <;> rw [heq] at hread hsame <;> rw [← hread]
    exact keep_answer (by rw [hsame, hlookup])

/-! ## Views -/

/-- The second evaluator has the same definitions as the first one, reads
every text like it, and has no callables but those that the first one
makes and hidden ones. -/
structure SameView (hidden : Reading → Prop) (ev ev' : Evaluator) : Prop where
  definitions : ev'.definitions = ev.definitions
  bindings : ev'.bindings = ev.bindings
  components : ev'.components = ev.components
  unbound : ev'.unbound = ev.unbound
  read : ∀ text params, ev'.read text params = ev.read text params
  prepared : ∀ key p, ev'.prepared.lookup key = some p →
    hidden key ∨ ev.compile key.1 key.2 = .ok p

theorem SameView.refl (hprepared : ev.prepared = []) : SameView hidden ev ev := by
  refine ⟨rfl, rfl, rfl, rfl, fun _ _ => rfl, fun key p hp => ?_⟩
  rw [hprepared] at hp
  cases hp

/-- What is compiled under a key that is not hidden is what the first
evaluator compiles. -/
theorem SameView.compile (h : SameView hidden ev ev') (hprepared : ev.prepared = []) {text : String}
    {args : List String} (hkey : ¬ hidden (text, args)) :
    ev'.compile text args = ev.compile text args := by
  rw [Evaluator.compile]
  split
  · rename_i p hp
    rcases h.prepared _ p hp with hhidden | hcompile
    · exact absurd hhidden hkey
    · exact hcompile.symm
  · simp only [Evaluator.compile, h.read, hprepared, List.lookup_nil]

/-- One more callable is kept, of a hidden key or as the first evaluator
makes it. -/
theorem SameView.keep (h : SameView hidden ev ev') {key : Reading} {make : Except Failure Prepared}
    (hmake : ∀ p, make = .ok p → hidden key ∨ ev.compile key.1 key.2 = .ok p) :
    SameView hidden ev (ev'.keep key make).2 := by
  unfold Evaluator.keep
  split
  · exact h
  · split
    · rename_i p
      refine ⟨h.definitions, h.bindings, h.components, h.unbound, h.read, fun key' p' hp => ?_⟩
      rw [List.lookup_cons] at hp
      split at hp
      · rename_i heq
        obtain rfl := eq_of_beq heq
        obtain rfl := Option.some.inj hp
        exact hmake p rfl
      · exact h.prepared key' p' hp
    · exact h

/-- One more expression is kept. -/
theorem SameView.readKept (h : SameView hidden ev ev') (text : String) (params : List String) :
    SameView hidden ev (ev'.readKept text params).2 := by
  rw [Evaluator.readKept]
  split
  · rename_i e he
    refine ⟨h.definitions, h.bindings, h.components, h.unbound, fun text' params' => ?_, h.prepared⟩
    rw [← h.read]
    unfold Evaluator.read
    dsimp only
    rw [List.lookup_cons]
    split
    · rename_i e' hlookup
      split at hlookup
      · -- the text that was read just now
        rename_i heq
        obtain ⟨rfl, rfl⟩ := Prod.mk.inj (eq_of_beq heq)
        obtain rfl := Option.some.inj hlookup
        exact he.symm
      · rw [hlookup]
    · rename_i hlookup
      split at hlookup
      · cases hlookup
      · rw [hlookup]
        rfl
  · exact h

theorem SameView.compileKept (h : SameView hidden ev ev') (hprepared : ev.prepared = [])
    (text : String) (args : List String) : SameView hidden ev (ev'.compileKept text args).2 := by
  have hkept := h.readKept text args
  have hread := (readKept_answer ev' text args).trans (h.read text args)
  rw [Evaluator.compileKept]
  split
  · exact h
  · split <;> rename_i heq <;> rw [heq] at hkept hread
    · exact hkept
    · refine hkept.keep fun p hp => Or.inr ?_
      rw [Evaluator.compile, hprepared, ← hread]
      exact hp

theorem SameView.evaluateKept (h : SameView hidden ev ev') (hprepared : ev.prepared = [])
    (text : String) (values : Assignment) : SameView hidden ev (ev'.evaluateKept text values).2 := by
  rw [Evaluator.evaluateKept]
  split
  · exact h
  · exact h.compileKept hprepared _ _

theorem definition_of_require {name : String} {kinds : List DefinitionKind} {fn : NamedFunction}
    (h : ev.require name kinds = .ok fn) : ev.definitions.get? name = some fn := by
  unfold require at h
  split at h
  · cases h
  · rename_i fn' hget
    split at h
    · cases h
    · split at h
      · cases h
      · rw [hget, Except.ok.inj h]

theorem SameView.function (h : SameView hidden ev ev') {name : String}
    (hkey : ∀ fn, ev.definitions.get? name = some fn → hidden (keyOf name fn.params)) :
    SameView hidden ev (ev'.function name).2 := by
  rw [Evaluator.function]
  split
  · exact h
  · rename_i fn hfn
    split
    · exact h
    · have hget := definition_of_require hfn
      rw [h.definitions] at hget
      exact h.keep fun _ _ => Or.inl (hkey fn hget)

theorem SameView.componentCallables (h : SameView hidden ev ev') {fn : NamedFunction}
    (hkey : ∀ index : Nat, hidden (keyOf (fn.name ++ "[" ++ toString index ++ "]") fn.params))
    (index : Nat) (es : List Expr) :
    SameView hidden ev (ev'.componentCallables fn index es).2 := by
  induction es generalizing ev' index with
  | nil => exact h
  | cons e es ih =>
      have hkept : SameView hidden ev
          (ev'.keep (keyOf (fn.name ++ "[" ++ toString index ++ "]") fn.params)
            (Prepared.ofExpr (fn.name ++ "[" ++ toString index ++ "]") fn.params e)).2 :=
        h.keep fun _ _ => Or.inl (hkey index)
      rw [Evaluator.componentCallables]
      split <;> rename_i heq <;> rw [heq] at hkept
      · exact hkept
      · have hrest := ih hkept (index + 1)
        split <;> rename_i heq' <;> rw [heq'] at hrest <;> exact hrest

theorem SameView.componentFunction (h : SameView hidden ev ev') {name : String} {kind : DefinitionKind}
    (hkey : ∀ fn, ∀ index : Nat, ev.definitions.get? name = some fn →
      hidden (keyOf (fn.name ++ "[" ++ toString index ++ "]") fn.params)) :
    SameView hidden ev (ev'.componentFunction name kind).2 := by
  rw [Evaluator.componentFunction]
  split
  · exact h
  · rename_i fn hfn
    split
    · exact h
    · have hget := definition_of_require hfn
      rw [h.definitions] at hget
      exact h.componentCallables (fun index => hkey fn index hget) 0 _

/-- A request keeps the view, if the keys that it takes are hidden. -/
theorem SameView.serve (h : SameView hidden ev ev') (hprepared : ev.prepared = []) {r : Request}
    (hkeys : ∀ key, r.Takes ev.definitions key → hidden key) : SameView hidden ev (ev'.serve r) := by
  cases r with
  | compile text args => exact h.compileKept hprepared text args
  | evaluate text values => exact h.evaluateKept hprepared text values
  | function n => exact h.function fun fn hfn => hkeys _ ⟨fn, hfn, rfl⟩
  | vectorFunction n => exact h.componentFunction fun fn index hfn => hkeys _ ⟨fn, index, hfn, rfl⟩
  | tensorFunction n => exact h.componentFunction fun fn index hfn => hkeys _ ⟨fn, index, hfn, rfl⟩
  | set n v => exact ⟨h.definitions, h.bindings, h.components, h.unbound, h.read, h.prepared⟩
  | unset n => exact ⟨h.definitions, h.bindings, h.components, h.unbound, h.read, h.prepared⟩

theorem SameView.serveAll (h : SameView hidden ev ev') (hprepared : ev.prepared = [])
    {rs : List Request} (hkeys : ∀ r ∈ rs, ∀ key, r.Takes ev.definitions key → hidden key) :
    SameView hidden ev (ev'.serveAll rs) := by
  induction rs generalizing ev' with
  | nil => exact h
  | cons r rs ih =>
      obtain ⟨hr, hrs⟩ := List.forall_mem_cons.mp hkeys
      exact ih (h.serve hprepared hr) hrs

/-! ## Histories -/

/-- Binding makes no callables. -/
theorem sameCallables_of_bindAll {order ws : List String} (h : ev.bindAll order = .ok (ev', ws)) :
    SameCallables ev ev' :=
  (bindsOnly_of_bindAll h).sameCallables

/-- Variables are set apart from binding. -/
theorem environment_of_bindAll {order ws : List String} (h : ev.bindAll order = .ok (ev', ws)) :
    ev'.environment = ev.environment := by
  obtain ⟨_, _, _, _, rfl⟩ := bindsOnly_of_bindAll h
  rfl

/-- A new evaluator has no callables yet. -/
theorem prepared_of_ofDefinitions {ds : Definitions} {environment : Assignment} {A : Algebra}
    {ws : List String} (h : ofDefinitions ds environment A = .ok (ev, ws)) :
    ev.definitions = ds ∧ ev.prepared = [] := by
  obtain ⟨order, -, hbind⟩ := bind_eq_ok.mp h
  exact sameCallables_of_bindAll hbind

/-- The text and the names that an evaluation compiles. -/
def evaluationKey (text : String) (values : Assignment) : Reading :=
  (text, (values.mergeSort fun a b => a.1 ≤ b.1).map (·.1))

/-- An evaluation asks for one callable and calls it. -/
theorem evaluateKept_answer (ev : Evaluator) (text : String) (values : Assignment) :
    (ev.evaluateKept text values).1 =
      if values.any fun v => ownNames.contains v.1 then .error .notApplicable
      else (ev.compileKept text (evaluationKey text values).2).1 >>= fun p =>
        p.call (ev.compileKept text (evaluationKey text values).2).2.environment
          ((values.mergeSort fun a b => a.1 ≤ b.1).map (·.2)) := by
  rw [evaluateKept]
  split <;> rfl

theorem keep_environment (ev : Evaluator) (key : Reading) (make : Except Failure Prepared) :
    (ev.keep key make).2.environment = ev.environment := by
  unfold keep
  split
  · rfl
  · split <;> rfl

theorem compileKept_environment (ev : Evaluator) (text : String) (args : List String) :
    (ev.compileKept text args).2.environment = ev.environment := by
  have hkept : (ev.readKept text args).2.environment = ev.environment := by
    rw [readKept]
    split <;> rfl
  rw [compileKept]
  split
  · rfl
  · split <;> rename_i heq <;> rw [heq] at hkept
    · exact hkept
    · exact (keep_environment _ _ _).trans hkept

theorem evaluateKept_environment (ev : Evaluator) (text : String) (values : Assignment) :
    (ev.evaluateKept text values).2.environment = ev.environment := by
  rw [evaluateKept]
  split
  · rfl
  · exact compileKept_environment ev _ _

/-- After any requests, a text is compiled and evaluated as a new evaluator
with the same variables does it, unless a request took the key of the text
for the callable of a definition. -/
theorem answers_of_history {ds : Definitions} {environment : Assignment} {A : Algebra}
    {ws : List String} (h : ofDefinitions ds environment A = .ok (ev, ws)) (rs : List Request) :
    (∀ text args, (∀ r ∈ rs, ¬ r.Takes ds (text, args)) →
      ((ev.serveAll rs).compileKept text args).1 = (ev.compileKept text args).1) ∧
    ∀ text values, (∀ r ∈ rs, ¬ r.Takes ds (evaluationKey text values)) →
      ((ev.serveAll rs).evaluateKept text values).1 =
        ({ ev with environment := (ev.serveAll rs).environment }.evaluateKept text values).1 := by
  obtain ⟨hdefinitions, hprepared⟩ := prepared_of_ofDefinitions h
  have hview : SameView (fun key => ∃ r ∈ rs, r.Takes ds key) ev (ev.serveAll rs) :=
    (SameView.refl hprepared).serveAll hprepared fun r hr key hkey => ⟨r, hr, hdefinitions ▸ hkey⟩
  have hcompile : ∀ text args, (∀ r ∈ rs, ¬ r.Takes ds (text, args)) →
      ((ev.serveAll rs).compileKept text args).1 = (ev.compileKept text args).1 := by
    intro text args hkey
    rw [compileKept_answer, compileKept_answer]
    exact hview.compile hprepared fun ⟨r, hr, htakes⟩ => hkey r hr htakes
  refine ⟨hcompile, fun text values hkey => ?_⟩
  -- The variables are no part of what a text is compiled to.
  have hfresh : ({ ev with environment := (ev.serveAll rs).environment }.compileKept text
      (evaluationKey text values).2).1 = (ev.compileKept text (evaluationKey text values).2).1 := by
    rw [compileKept_answer, compileKept_answer]
    rfl
  have hused := hcompile text (evaluationKey text values).2 hkey
  rw [evaluateKept_answer, evaluateKept_answer, compileKept_environment, compileKept_environment,
    hused, hfresh]

/-- Only a text in angle brackets is the key of a callable. -/
theorem not_takes_of_head {ds : Definitions} {text : String} {args : List String}
    (h : text.toList.head? ≠ some '<') (r : Request) : ¬ r.Takes ds (text, args) := by
  have hkey : ∀ name params, (text, args) ≠ keyOf name params := by
    intro name params heq
    obtain rfl := (Prod.mk.inj heq).1
    apply h
    simp
  cases r with
  | function n => exact fun ⟨fn, _, heq⟩ => hkey _ _ heq
  | vectorFunction n | tensorFunction n => exact fun ⟨fn, _, _, heq⟩ => hkey _ _ heq
  | _ => exact id

/-- Requests of every kind, some of which fail, and two definitions, one
with a component that has a pole. -/
theorem answers_of_mixedHistory : ∃ ev ws,
    ofDefinitions [⟨"FNA", ["x"], "x^2", 1⟩, ⟨"VEC_B", ["x"], "[x, FNA(x), 1/0]", 2⟩]
        = .ok (ev, ws) ∧
      let used := ev.serveAll [.compile "FNA(x" ["x"], .function "FNA", .vectorFunction "VEC_B",
        .set "t" 2, .evaluate "FNA(1)" [], .tensorFunction "VEC_B"]
      (used.compileKept "FNA(x)" ["x"]).1 = (ev.compileKept "FNA(x)" ["x"]).1 ∧
        (used.evaluateKept "FNA(t)" []).1 =
          ({ ev with environment := used.environment }.evaluateKept "FNA(t)" []).1 := by
  have hok : (ofDefinitions [⟨"FNA", ["x"], "x^2", 1⟩,
      ⟨"VEC_B", ["x"], "[x, FNA(x), 1/0]", 2⟩]).toOption.isSome = true := by decide +kernel
  obtain ⟨⟨ev, ws⟩, hev⟩ := Option.isSome_iff_exists.mp hok
  have hbound := eq_ok_of_toOption hev
  exact ⟨ev, ws, hbound,
    (answers_of_history hbound _).1 "FNA(x)" ["x"] fun r _ => not_takes_of_head (by decide) r,
    (answers_of_history hbound _).2 "FNA(t)" [] fun r _ => not_takes_of_head (by decide) r⟩

/-- Once the callable of a definition was asked for, the text in angle
brackets, which no evaluator can read, has it. -/
theorem observable_of_callable : ∃ ev ws,
    ofDefinitions [⟨"FNA", ["x"], "x + 1", 1⟩] = .ok (ev, ws) ∧
      ((ev.serve (.function "FNA")).compileKept "<FNA>" ["x"]).1
        ≠ (ev.compileKept "<FNA>" ["x"]).1 := by
  have hok : ((ofDefinitions [⟨"FNA", ["x"], "x + 1", 1⟩]).toOption.map fun r =>
      (((r.1.serve (.function "FNA")).compileKept "<FNA>" ["x"]).1.toOption.isSome,
        (r.1.compileKept "<FNA>" ["x"]).1.toOption.isSome)) = some (true, false) := by
    decide +kernel
  obtain ⟨⟨ev, ws⟩, hev, hanswers⟩ := Option.map_eq_some_iff.mp hok
  obtain ⟨hused, hnew⟩ := Prod.mk.inj hanswers
  refine ⟨ev, ws, eq_ok_of_toOption hev, fun heq => ?_⟩
  dsimp only at hused hnew
  rw [heq, hnew] at hused
  cases hused

end Evaluator
end FieldScript
