import FieldScript.Label
import FieldScript.Proofs.InputPlaces
import FieldScript.Proofs.SurfaceInlining

/-!
# Values given by keyword

An evaluation can be given a value under the name of a variable. The text
is then compiled with this name as an argument, where it would look up the
variable otherwise. The text is read alike both ways if it has the name as
an operand only (`textMeaning?_congr`), and then the same numbers are
computed from (`Prepared.call_argument`). So a keyword does what setting
the variable does, and leaves the variables as they are
(`Evaluator.keyword_eq_variable`); labels and plots are evaluated with the
parameter of an animation in the same way.

The names are those of the callers, but some of them stand for something
else on the way. An evaluation takes `self` and `text` for itself, a label
`label` and the names of its text, and a plot `self`: the value cannot be
given under these names, although there may well be variables of these
names (`Evaluator.not_keyword_text`).
-/

namespace FieldScript

/-! ## Texts with a name as an operand -/

/-- The terms that lexemes are read as: one, or the parameters and the body
of a nameless function. -/
def Term.readFrom (ls : List Lexeme) : List Term :=
  match splitAbstraction? ls with
  | some (ps, body) => (ofLexemes? ps).toList ++ (ofLexemes? body).toList
  | none => (ofLexemes? ls).toList

/-- The terms of a text. -/
def Term.ofText (text : String) : List Term :=
  ((Lexeme.ofText? (fun _ => true) (trim text.toList)).map readFrom).getD []

/-- The text has the name as an operand, if at all: it calls it neither in a
term nor under a factorial sign, and the name is not asked for as the
imaginary unit. -/
structure OperandOnly (n text : String) : Prop where
  factorial : Lexeme.ofText? (fun m => m != n) (trim text.toList) =
    Lexeme.ofText? (fun _ => true) (trim text.toList)
  terms : ∀ t ∈ Term.ofText text, n ∉ t.calls ∧ (t.hasUnit = true → n ≠ "I")

theorem operandOnly_iff {n text : String} : OperandOnly n text ↔
    Lexeme.ofText? (fun m => m != n) (trim text.toList) =
        Lexeme.ofText? (fun _ => true) (trim text.toList) ∧
      ∀ t ∈ Term.ofText text, n ∉ t.calls ∧ (t.hasUnit = true → n ≠ "I") :=
  ⟨fun h => ⟨h.1, h.2⟩, fun h => ⟨h.1, h.2⟩⟩

instance (n text : String) : Decidable (OperandOnly n text) := decidable_of_iff' _ operandOnly_iff

section Scopes

variable {s s' : Scope} {n text : String}

/-- Only this name means something else. -/
theorem Scope.meaning_of_ne (hfind : ∀ m, m ≠ n → s.find? m = s'.find? m) {m : String} (hm : m ≠ n)
    (called : Bool) : s.meaning m called = s'.meaning m called := by
  have hfind := hfind m hm
  unfold meaning
  split
  · rfl
  · rfl
  · rfl
  · rw [hfind]

/-- The lexemes of a text are the same, if it does not put the name before a
group under a factorial sign. -/
theorem OperandOnly.lexemes (h : OperandOnly n text) (hfind : ∀ m, m ≠ n → s.find? m = s'.find? m) :
    Lexeme.ofText? s.knows (trim text.toList) = Lexeme.ofText? s'.knows (trim text.toList) := by
  obtain ⟨asked, r, hlexemes, -⟩ := Lexeme.ofText?_eq text
  have hsame := h.factorial
  rw [hlexemes, hlexemes, List.all_eq_true.mpr fun _ _ => rfl, if_pos rfl] at hsame
  rw [hlexemes, hlexemes]
  cases r with
  | none => rw [ite_self, ite_self]
  | some ls =>
      have hfree : ∀ m ∈ asked, m ≠ n := by
        intro m hm
        split at hsame
        · rename_i hasked
          simpa using List.all_eq_true.mp hasked m hm
        · cases hsame
      have hknown : asked.all s.knows = asked.all s'.knows := by
        rw [Bool.eq_iff_iff, List.all_eq_true, List.all_eq_true]
        refine forall₂_congr fun m hm => ?_
        rw [Scope.knows, Scope.knows, hfind m (hfree m hm)]
      rw [hknown]

/-- More known names change nothing about the lexemes that there are. -/
theorem Lexeme.ofText?_of_known {known : String → Bool} {ls : List Lexeme}
    (h : ofText? known (trim text.toList) = some ls) :
    ofText? (fun _ => true) (trim text.toList) = some ls := by
  obtain ⟨asked, r, hlexemes, -⟩ := Lexeme.ofText?_eq text
  rw [hlexemes] at h ⊢
  rw [List.all_eq_true.mpr fun _ _ => rfl, if_pos rfl]
  split at h
  · exact h
  · cases h

/-- A text means the same in two scopes that differ in one name, if this
name is an operand of the same meaning in both. -/
theorem textMeaning?_congr (halgebra : s.algebra = s'.algebra) (h : OperandOnly n text)
    (hfind : ∀ m, m ≠ n → s.find? m = s'.find? m) (hname : s.meaning n false = s'.meaning n false) :
    textMeaning? s text = textMeaning? s' text := by
  have hterm : ∀ t ∈ Term.ofText text, t.meaning? s = t.meaning? s' := by
    intro t ht
    obtain ⟨hcalls, hunit⟩ := h.terms t ht
    refine Term.meaning?_congr ⟨halgebra, fun hu => hfind "I" (hunit hu).symm, fun m _ => ?_, fun m hm => ?_⟩
    · by_cases hmn : m = n
      · rw [hmn, hname]
      · exact Scope.meaning_of_ne hfind hmn false
    · refine Scope.meaning_of_ne hfind ?_ true
      rintro rfl
      exact hcalls hm
  unfold textMeaning?
  rw [h.lexemes hfind]
  cases hls : Lexeme.ofText? s'.knows (trim text.toList) with
  | none => rfl
  | some ls =>
      have hread : ∀ t ∈ Term.readFrom ls, t.meaning? s = t.meaning? s' := by
        rw [Term.ofText, Lexeme.ofText?_of_known hls] at hterm
        exact hterm
      rw [Term.readFrom] at hread
      rw [Option.bind_eq_bind, Option.bind_some, Option.bind_eq_bind, Option.bind_some]
      cases hsplit : splitAbstraction? ls with
      | none =>
          rw [hsplit] at hread
          exact Option.bind_congr fun t ht => hread t (Option.mem_toList.mpr ht)
      | some r =>
          obtain ⟨ps, body⟩ := r
          rw [hsplit] at hread
          obtain ⟨hparams, hbody⟩ := List.forall_mem_append.mp hread
          have hrest : ∀ params : Term, params.meaning? s = params.meaning? s' →
              ((Term.ofLexemes? body).bind fun b => do
                let m ← params.meaning? s
                let m' ← b.meaning? s
                Meaning.callBuiltin? s.algebra .abstraction [m, m']) =
              ((Term.ofLexemes? body).bind fun b => do
                let m ← params.meaning? s'
                let m' ← b.meaning? s'
                Meaning.callBuiltin? s'.algebra .abstraction [m, m']) := by
            intro params hmeaning
            refine Option.bind_congr fun b hb => ?_
            rw [hmeaning, hbody b (Option.mem_toList.mpr hb), halgebra]
          dsimp only
          split
          · exact hrest _ rfl
          · exact Option.bind_congr fun params hps => hrest params (hparams params (Option.mem_toList.mpr hps))

end Scopes

namespace Evaluator

variable {ev : Evaluator} {done : List String} {n text : String} {v : Float}

/-- What is kept is what the text writes, so that a text is always read as
if nothing were kept. -/
theorem Current.read_eq (h : ev.Current done) (text : String) (params : List String) :
    ev.read text params = Expr.ofText (ev.scope params) text := by
  rw [read]
  split
  · rename_i e he
    exact (eq_ok_of_toOption (h.reading text params e he).2).symm
  · rfl

/-- A text is read alike whether a free name is an argument or a variable. -/
theorem Current.read_argument (h : ev.Current done) (hdone : ∀ m ∈ done, m ∈ ev.definitions.names)
    (hdefined : n ∉ ev.definitions.names) (hlibrary : Referent.library n = .free)
    (htext : OperandOnly n text) : ev.read text [n] = ev.read text [] := by
  have hfind : ∀ m, m ≠ n → (ev.scope [n]).find? m = (ev.scope []).find? m := fun m hm =>
    Scope.find?_of_notMem rfl (mt List.mem_singleton.mp hm) List.not_mem_nil
  have hname : (ev.scope [n]).meaning n false = (ev.scope []).meaning n false := by
    by_cases hword : n ∈ Scope.words
    · simp only [Scope.words, List.mem_cons, List.not_mem_nil, or_false] at hword
      rcases hword with rfl | rfl | rfl <;> rfl
    · rw [Scope.meaning_of_params hword List.mem_cons_self,
        Scope.meaning_of_free hword List.not_mem_nil hlibrary,
        show (ev.scope []).bindings = ev.bindings from rfl, h.fresh n (mt (hdone n) hdefined)]
      rfl
  have hmeaning : textMeaning? (ev.scope [n]) text = textMeaning? (ev.scope []) text :=
    textMeaning?_congr rfl htext hfind hname
  rw [h.read_eq, h.read_eq, Expr.ofText, Expr.ofText, hmeaning]

/-- Keeping the callable does not change the answer. -/
theorem evaluateKept_eq (ev : Evaluator) (text : String) (values : Assignment) :
    (ev.evaluateKept text values).1 = ev.evaluate text values := by
  rw [evaluateKept_answer, compileKept_answer, compileKept_environment, evaluate]
  split <;> rfl

/-- A keyword does what setting the variable does, unless the value cannot be
given under its name, or what is kept for the text is not what the text is
compiled to. -/
theorem SameView.evaluate_argument {hidden : Reading → Prop} {used : Evaluator} (hview : SameView hidden ev used)
    (h : ev.Current done) (hdone : ∀ m ∈ done, m ∈ ev.definitions.names)
    (hdefined : n ∉ ev.definitions.names) (hlibrary : Referent.library n = .free) (hown : n ∉ ownNames)
    (htext : OperandOnly n text) (hkeys : ¬ hidden (text, [n]) ∧ ¬ hidden (text, [])) (v : Float) :
    used.evaluate text [(n, .scalar v)] = (used.set n v).evaluate text [] := by
  have hgiven : used.evaluate text [(n, .scalar v)] =
      used.compile text [n] >>= fun p => p.call used.environment [.scalar v] := by
    rw [evaluate, List.mergeSort_singleton]
    simp [hown]
  have hset : (used.set n v).evaluate text [] =
      used.compile text [] >>= fun p => p.call (used.environment.insert n (.scalar v)) [] := by
    rw [evaluate, List.mergeSort_nil]
    rfl
  rw [hgiven, hset, hview.compile h.prepared hkeys.1, hview.compile h.prepared hkeys.2,
    Evaluator.compile, Evaluator.compile, h.prepared, h.read_argument hdone hdefined hlibrary htext]
  cases ev.read text [] with
  | error f => rfl
  | ok e => exact Prepared.call_argument text e n v used.environment

end Evaluator

/-! ## Labels -/

namespace Label

/-- The text that is evaluated for a term of a label's text, if any is. -/
def source? (line : List Char) (term : List Token) : Option String :=
  match term with
  | [⟨.string, _, _⟩] => none
  | term =>
    match formatCall? line term with
    | some (_, source) => some source
    | none => some (String.ofList (rawSlice line term))

/-- The texts that are evaluated for a label. -/
def sources (l : Label) : List String :=
  ((splitTopLevel (tokenize l.text.toList) .plus).filter fun t => !t.isEmpty).filterMap
    (source? l.text.toList) ++ l.position

variable {ev ev' : Evaluator} {values values' : Assignment}

theorem number_congr {text : String} (h : ev.evaluate text values = ev'.evaluate text values') :
    number ev values text = number ev' values' text := by
  rw [number, number, h]

theorem piece_congr {line : List Char} {term : List Token}
    (h : ∀ text ∈ source? line term, ev.evaluate text values = ev'.evaluate text values') :
    piece ev values line term = piece ev' values' line term := by
  by_cases hquoted : ∃ quoted place, term = [⟨.string, quoted, place⟩]
  · obtain ⟨quoted, place, rfl⟩ := hquoted
    rfl
  · have hother : ∀ quoted place, term = [⟨.string, quoted, place⟩] → False :=
      fun quoted place heq => hquoted ⟨quoted, place, heq⟩
    rw [source?.eq_2 line term hother] at h
    rw [piece.eq_2 ev values line term hother, piece.eq_2 ev' values' line term hother]
    cases hcall : formatCall? line term with
    | none =>
        rw [hcall] at h
        dsimp only
        rw [number_congr (h _ rfl)]
    | some r =>
        rw [hcall] at h
        dsimp only
        rw [number_congr (h _ rfl)]

/-- A label shows what its texts are evaluated to. -/
theorem evaluate_congr {l : Label} (hnames : ∀ v ∈ values, v.1 ∉ ownNames ∧ v.1 ∉ textNames)
    (hnames' : ∀ v ∈ values', v.1 ∉ ownNames ∧ v.1 ∉ textNames)
    (h : ∀ text ∈ l.sources, ev.evaluate text values = ev'.evaluate text values') :
    evaluate ev l values = evaluate ev' l values' := by
  have hfree : ∀ {names : List String} {values : Assignment}, (∀ v ∈ values, v.1 ∉ names) →
      (List.any values fun v => names.contains v.1) = false := by
    intro names values hnames
    rw [List.any_eq_false]
    intro v hv
    simpa using hnames v hv
  have htext : renderText ev l.text values = renderText ev' l.text values' := by
    have hpieces : ∀ term ∈ (splitTopLevel (tokenize l.text.toList) .plus).filter fun t => !t.isEmpty,
        piece ev values l.text.toList term = piece ev' values' l.text.toList term := by
      intro term hterm
      refine piece_congr fun text hsource => h text (List.mem_append_left _ ?_)
      exact List.mem_filterMap.mpr ⟨term, hterm, hsource⟩
    rw [renderText, renderText, hfree fun v hv => (hnames v hv).2, hfree fun v hv => (hnames' v hv).2]
    dsimp only
    rw [mapM_congr hpieces]
  have hposition : l.position.mapM (coordinate ev values) = l.position.mapM (coordinate ev' values') := by
    refine mapM_congr fun text hposition => ?_
    rw [coordinate, coordinate, number_congr (h text (List.mem_append_right _ hposition))]
  rw [evaluate, evaluate, hfree fun v hv => (hnames v hv).1, hfree fun v hv => (hnames' v hv).1, htext, hposition]

end Label

/-! ## Plots -/

/-- What is bound for a call is read as a variable of this value. -/
theorem Prepared.call_override {n : String} (hself : n ∉ ownNames) (p : Prepared) (environment : Assignment)
    (values : List Samples) (v : Samples) :
    p.call environment values [(n, v)] = p.call (environment.insert n v) values := by
  have hfind : (fun m => (List.lookup m [(n, v)]).or (environment.lookup m)) =
      fun m => (List.lookup m ([] : Assignment)).or ((environment.insert n v).lookup m) := by
    funext m
    by_cases hm : m = n
    · subst hm
      rw [List.lookup_cons, beq_self_eq_true, environment.lookup_insert_self m v]
      rfl
    · rw [List.lookup_cons, beq_eq_false_iff_ne.mpr hm, Assignment.agreeBeside_insert n environment v m hm]
  have hown : (List.any [(n, v)] fun o => ownNames.contains o.1) = false := by
    simpa using hself
  rw [call, call, hfind, hown]
  rfl

/-- A field that fails everywhere, in a way that is hidden, is flat. -/
theorem Field.safe_of_fails {f : Field} {e : Failure} (hf : ∀ x y, f x y = .error e) (he : hides e = true) :
    f.safe = zero := by
  have hpoint : ∀ a b, safePoint 0 f a b = .ok 0 := by
    intro a b
    rw [safePoint, hf]
    exact if_pos he
  funext x y
  have hcommon : Samples.commonShape? ([x, y].map Samples.shape) = Samples.joinShapes? x.shape y.shape := by
    rw [Samples.commonShape?]
    simp [Samples.nil_joinShapes?]
  rw [safe, hf, zero]
  dsimp only
  rw [he, if_neg (by decide)]
  split
  · rename_i hscalar
    obtain ⟨hx, hy⟩ := Bool.and_eq_true_iff.mp hscalar
    rw [List.isEmpty_iff.mp hx, List.isEmpty_iff.mp hy]
    rfl
  · cases hjoin : Samples.joinShapes? x.shape y.shape with
    | none => rw [Samples.tabulate?, hcommon, hjoin]
    | some shape =>
        have hzeros : ((List.range (Samples.shapeSize shape)).mapM fun i =>
            safePoint 0 f (x.reader shape i) (y.reader shape i)) =
              .ok (List.replicate (Samples.shapeSize shape) 0) := by
          rw [mapM_eq_map fun i _ => hpoint _ _, List.map_const', List.length_range]
        rw [Samples.tabulate?_eq (hcommon.trans hjoin)]
        show ((List.range (Samples.shapeSize shape)).mapM fun i =>
          safePoint 0 f (x.reader shape i) (y.reader shape i)) >>= _ = _
        rw [hzeros]
        exact congrArg (fun data => Except.ok (Samples.mk shape data)) (List.toArray_replicate _ _)

namespace Session

/-- A frame is plotted as the program without an animation is, with a
variable for the parameter. -/
theorem plotted_override {p : Program} {ev : Evaluator} {time : Option Float} {n : String} {v : Float}
    (hself : n ∉ Prepared.ownNames) (hvalues : p.frameValues time = [(n, .scalar v)]) (ws : List String) :
    plotted ⟨some p, some ev, ws⟩ time = plotted ⟨some { p with animation := none }, some (ev.set n v), ws⟩ none := by
  have hfield : ∀ f, Field.ofPrepared f ev.environment [(n, .scalar v)] =
      Field.ofPrepared f (ev.set n v).environment [] :=
    fun f => funext fun x => funext fun y => f.call_override hself ev.environment [x, y] (.scalar v)
  have hcompile : (ev.set n v).compile ({ p with animation := none } : Program).surfaceExpr ["x", "y"] =
      ev.compile p.surfaceExpr ["x", "y"] := rfl
  rw [plotted_eq, plotted_eq, hvalues, hcompile]
  cases ev.compile p.surfaceExpr ["x", "y"] with
  | ok f => exact congrArg (fun g => Except.ok g.safe) (hfield f)
  | error f => cases f <;> rfl

/-- Nothing can be bound under a name that a call takes for itself: the frame
is flat. -/
theorem plotted_own {p : Program} {ev : Evaluator} {time : Option Float} {n : String} {v : Float} {f : Prepared}
    (hself : n ∈ Prepared.ownNames) (hvalues : p.frameValues time = [(n, .scalar v)])
    (hcompile : ev.compile p.surfaceExpr ["x", "y"] = .ok f) (ws : List String) :
    plotted ⟨some p, some ev, ws⟩ time = .ok Field.zero := by
  have hfails : ∀ x y, Field.ofPrepared f ev.environment [(n, .scalar v)] x y = .error .notApplicable := by
    intro x y
    rw [Field.ofPrepared, Prepared.call]
    simp [hself]
    rfl
  rw [plotted_eq, hcompile, hvalues]
  exact congrArg Except.ok (Field.safe_of_fails hfails rfl)

end Session

/-! ## Keywords and variables -/

namespace Evaluator

variable {ds : Definitions} {environment : Assignment} {A : Algebra} {ev : Evaluator} {ws : List String}

/-- The text takes a value for the name: it has the name as an operand only,
and no request has put the callable of a definition under the keys of the
text. -/
structure TakesValue (ds : Definitions) (rs : List Request) (n text : String) : Prop where
  operand : OperandOnly n text
  kept : ∀ r ∈ rs, ¬ r.Takes ds (text, [n]) ∧ ¬ r.Takes ds (text, [])

/-- After any requests, an evaluation with a keyword is one with a variable of
this value, for a text that takes it. -/
theorem evaluate_keyword (h : ofDefinitions ds environment A = .ok (ev, ws)) (hlegal : ds.Legal)
    (hnames : ds.names.Nodup) (hdiscernible : ds.Discernible) {rs : List Request} {n : String}
    (hdefined : n ∉ ds.names) (hlibrary : Referent.library n = .free) (hown : n ∉ ownNames) {text : String}
    (htext : TakesValue ds rs n text) (v : Float) :
    (ev.serveAll rs).evaluate text [(n, .scalar v)] = ((ev.serveAll rs).set n v).evaluate text [] := by
  obtain ⟨order, horder, hbind⟩ := bind_eq_ok.mp h
  obtain ⟨hperm, hfollows⟩ := Definitions.order_ok horder
  obtain ⟨hcurrent, hdefinitions, -⟩ := current_of_ofOrder hlegal hnames hperm hfollows hdiscernible hbind
  have hview : SameView (fun key => ∃ r ∈ rs, r.Takes ds key) ev (ev.serveAll rs) :=
    (SameView.refl hcurrent.prepared).serveAll hcurrent.prepared
      fun r hr key hkey => ⟨r, hr, hdefinitions ▸ hkey⟩
  have hkeys : ¬ (∃ r ∈ rs, r.Takes ds (text, [n])) ∧ ¬ ∃ r ∈ rs, r.Takes ds (text, []) :=
    ⟨fun ⟨r, hr, hkey⟩ => (htext.kept r hr).1 hkey, fun ⟨r, hr, hkey⟩ => (htext.kept r hr).2 hkey⟩
  have hdone : ∀ m ∈ order, m ∈ ev.definitions.names := fun m hm => hdefinitions ▸ hperm.mem_iff.mp hm
  exact hview.evaluate_argument hcurrent hdone (hdefinitions ▸ hdefined) hlibrary hown htext.operand hkeys v

end Evaluator
end FieldScript
