import FieldScript.Proofs.KeywordValues

/-!
# What labels fall back to

A label that cannot be evaluated shows its text as it was written, and zero
for a coordinate. It falls back from the failures of an evaluation only.
Three others come up in the expressions that a label may have
(`Evaluator.Escapes`): a pole, for which there is no code; a function in the
place of a number; and arithmetic that leaves the range of numbers. They
come up in whatever way a callable was made, so that no earlier request
matters (`Evaluator.ProperlyKept.serveAll`).

A label without one of them is always shown, with a finite number for each
coordinate, and what is wrong with one of its expressions is seen there and
nowhere else (`Program.label_shown_iff`). A label with one of them is not
shown at all.
-/

namespace FieldScript

/-! ## Callables and how they fail -/

/-- The callable takes these arguments, and only what is wrong with calls is
wrong with it. -/
structure Prepared.Proper (args : List String) (p : Prepared) : Prop where
  args_eq : p.formula.args = args
  fault : ∀ f, p.fault = some f → Evaluator.IsCallFailure f

theorem Prepared.proper_ofExpr {text : String} {args : List String} {e : Expr} {p : Prepared}
    (h : ofExpr text args e = .ok p) : p.Proper args := by
  obtain ⟨hformula, hfault⟩ := Evaluator.ofExpr_eq_ok h
  exact ⟨congrArg Formula.args hformula, fun f hf => Evaluator.callFault?_cases e (hfault ▸ hf)⟩

namespace Evaluator

variable {ev : Evaluator}

theorem proper_prepareBinding {fn : NamedFunction} {b : Binding} {p : Prepared}
    (h : prepareBinding fn b = .ok p) : p.Proper fn.params := by
  unfold prepareBinding at h
  split at h
  · split at h
    · split at h
      · obtain ⟨p', hp', h⟩ := bind_eq_ok.mp h
        obtain rfl := Except.ok.inj h
        exact ⟨(Prepared.proper_ofExpr hp').args_eq, fun f hf => Or.inr (Or.inr (Option.some.inj hf).symm)⟩
      · exact Prepared.proper_ofExpr h
    · exact Prepared.proper_ofExpr h
  · exact Prepared.proper_ofExpr h

/-- Every callable that is kept takes the arguments of its key. -/
def ProperlyKept (ev : Evaluator) : Prop :=
  ∀ key p, ev.prepared.lookup key = some p → p.Proper key.2

theorem properlyKept_of_prepared (h : ev.prepared = []) : ev.ProperlyKept := by
  intro key p hp
  rw [h] at hp
  cases hp

theorem ProperlyKept.congr {ev' : Evaluator} (h : ev.ProperlyKept) (hsame : ev'.prepared = ev.prepared) :
    ev'.ProperlyKept := by
  intro key p hp
  exact h key p (hsame ▸ hp)

theorem ProperlyKept.keep (h : ev.ProperlyKept) {key : Reading} {make : Except Failure Prepared}
    (hmake : ∀ p, make = .ok p → p.Proper key.2) : (ev.keep key make).2.ProperlyKept := by
  unfold Evaluator.keep
  split
  · exact h
  · split
    · rename_i p
      intro key' p' hp
      rw [List.lookup_cons] at hp
      split at hp
      · rename_i heq
        obtain rfl := eq_of_beq heq
        obtain rfl := Option.some.inj hp
        exact hmake p rfl
      · exact h key' p' hp
    · exact h

theorem ProperlyKept.compileKept (h : ev.ProperlyKept) (text : String) (args : List String) :
    (ev.compileKept text args).2.ProperlyKept := by
  have hkept : (ev.readKept text args).2.ProperlyKept :=
    h.congr (readKept_bindsOnly ev text args).sameCallables.2
  rw [Evaluator.compileKept]
  split
  · exact h
  · split <;> rename_i heq <;> rw [heq] at hkept
    · exact hkept
    · exact hkept.keep fun p hp => Prepared.proper_ofExpr hp

theorem ProperlyKept.componentCallables (h : ev.ProperlyKept) (fn : NamedFunction) (index : Nat)
    (es : List Expr) : (ev.componentCallables fn index es).2.ProperlyKept := by
  induction es generalizing ev index with
  | nil => exact h
  | cons e es ih =>
      have hkept : (ev.keep (keyOf (fn.name ++ "[" ++ toString index ++ "]") fn.params)
          (Prepared.ofExpr (fn.name ++ "[" ++ toString index ++ "]") fn.params e)).2.ProperlyKept :=
        h.keep fun p hp => Prepared.proper_ofExpr hp
      rw [Evaluator.componentCallables]
      split <;> rename_i heq <;> rw [heq] at hkept
      · exact hkept
      · have hrest := ih hkept (index + 1)
        split <;> rename_i heq' <;> rw [heq'] at hrest <;> exact hrest

theorem ProperlyKept.componentFunction (h : ev.ProperlyKept) (name : String) (kind : DefinitionKind) :
    (ev.componentFunction name kind).2.ProperlyKept := by
  rw [Evaluator.componentFunction]
  split
  · exact h
  · split
    · exact h
    · exact h.componentCallables _ 0 _

theorem ProperlyKept.serve (h : ev.ProperlyKept) (r : Request) : (ev.serve r).ProperlyKept := by
  cases r with
  | compile text args => exact h.compileKept text args
  | evaluate text values =>
      show (ev.evaluateKept text values).2.ProperlyKept
      rw [evaluateKept]
      split
      · exact h
      · exact h.compileKept _ _
  | function n =>
      show (ev.function n).2.ProperlyKept
      rw [Evaluator.function]
      split
      · exact h
      · split
        · exact h
        · exact h.keep fun p hp => proper_prepareBinding hp
  | vectorFunction n => exact h.componentFunction n _
  | tensorFunction n => exact h.componentFunction n _
  | set n v => exact h.congr rfl
  | unset n => exact h.congr rfl

theorem ProperlyKept.serveAll (h : ev.ProperlyKept) (rs : List Request) : (ev.serveAll rs).ProperlyKept := by
  induction rs generalizing ev with
  | nil => exact h
  | cons r rs ih => exact ih (h.serve r)

theorem ProperlyKept.compile (h : ev.ProperlyKept) {text : String} {args : List String} {p : Prepared}
    (hp : ev.compile text args = .ok p) : p.Proper args := by
  unfold Evaluator.compile at hp
  split at hp
  · rename_i p' hlookup
    obtain rfl := Except.ok.inj hp
    exact h _ _ hlookup
  · split at hp
    · exact Prepared.proper_ofExpr hp
    · cases hp

/-- A text that does not compile has a pole, or else its evaluation fails. -/
theorem compile_error {text : String} {args : List String} (hargs : args.Nodup) {f : Failure}
    (h : ev.compile text args = .error f) : f.isEvaluation = true ∨ f = .pole := by
  unfold compile at h
  split at h
  · cases h
  · split at h
    · unfold Prepared.ofExpr at h
      split at h
      · rename_i g hg
        obtain rfl := Except.error.inj h
        rcases Program.compileFault?_cases hg with rfl | rfl
        · exact Or.inr rfl
        · exact Or.inl rfl
      · rw [hasRepeated_eq_false hargs] at h
        cases h
    · exact Or.inl (Except.error.inj h ▸ rfl)

end Evaluator

/-- A call fails in another way than an evaluation exactly if this is what is
wrong with the callable, and every variable has a value. -/
theorem Prepared.call_escapes_iff {p : Prepared} {environment : Assignment} {values : List Samples}
    (hlength : values.length = p.formula.args.length) :
    (∃ f, p.call environment values = .error f ∧ f.isEvaluation = false) ↔
      ∃ f, p.fault = some f ∧ f.isEvaluation = false ∧ ∀ n ∈ p.formula.free, n ∈ environment.names := by
  rw [call_eq p environment hlength]
  cases hfree : p.formula.free.find? fun n => (environment.lookup n).isNone with
  | some n =>
      refine iff_of_false ?_ ?_
      · rintro ⟨f, hf, hkind⟩
        obtain rfl := Except.error.inj hf
        cases hkind
      · rintro ⟨-, -, -, hnames⟩
        have hnone := List.find?_some hfree
        have hsome := Assignment.lookup_isSome.mpr (hnames n (List.mem_of_find?_eq_some hfree))
        rw [Option.isNone_iff_eq_none.mp hnone] at hsome
        cases hsome
  | none =>
      have hnames : ∀ n ∈ p.formula.free, n ∈ environment.names := by
        intro n hn
        have hvalue := List.find?_eq_none.mp hfree n hn
        rw [Option.isNone_iff_eq_none] at hvalue
        exact Assignment.lookup_isSome.mp (Option.isSome_iff_ne_none.mpr hvalue)
      cases hfault : p.fault with
      | none =>
          refine iff_of_false ?_ (by rintro ⟨f, hf, -⟩; cases hf)
          rintro ⟨f, hf, hkind⟩
          rw [Evaluator.tabulate?_error hf] at hkind
          cases hkind
      | some g =>
          constructor
          · rintro ⟨f, hf, hkind⟩
            obtain rfl := Except.error.inj hf
            exact ⟨_, rfl, hkind, hnames⟩
          · rintro ⟨f, hf, hkind, -⟩
            obtain rfl := Option.some.inj hf
            exact ⟨_, rfl, hkind⟩

namespace Evaluator

variable {ev : Evaluator} {values : Assignment} {text : String}

/-- The value of the text fails in a way that a label does not fall back
from. -/
structure Escapes (ev : Evaluator) (values : Assignment) (text : String) : Prop where
  /-- All values can be given by their names. -/
  own : ∀ v ∈ values, v.1 ∉ ownNames
  /-- The expression has a pole; or each call of it comes upon a function, or
  leaves the range of numbers, and every variable has a value. -/
  cause : ev.compile text (evaluationKey text values).2 = .error .pole ∨
    ∃ p f, ev.compile text (evaluationKey text values).2 = .ok p ∧ p.fault = some f ∧
      (f = .unresolvedName ∨ f = .tooLarge ∨ f = .divisionByZero) ∧
        ∀ n ∈ p.formula.free, n ∈ ev.environment.names

theorem isEvaluation_eq_false {f : Failure} (h : f = .unresolvedName ∨ f = .tooLarge ∨ f = .divisionByZero) :
    f.isEvaluation = false := by
  rcases h with rfl | rfl | rfl <;> rfl

theorem IsCallFailure.cases {f : Failure} (h : IsCallFailure f) (hkind : f.isEvaluation = false) :
    f = .unresolvedName ∨ f = .tooLarge ∨ f = .divisionByZero := by
  rcases h with h | h | rfl
  · rw [hkind] at h
    cases h
  · refine Or.inr ?_
    cases f with
    | tooLarge => exact Or.inl rfl
    | divisionByZero => exact Or.inr rfl
    | _ => cases h
  · exact Or.inl rfl

theorem own_iff : (values.any fun v => ownNames.contains v.1) = true ↔ ∃ v ∈ values, v.1 ∈ ownNames := by
  simp

theorem nodup_evaluationKey (h : values.names.Nodup) : (evaluationKey text values).2.Nodup :=
  ((List.mergeSort_perm _ _).map _).nodup_iff.mpr h

/-- These are the failures of an evaluation that are of another kind. -/
theorem escapes_iff (hkept : ev.ProperlyKept) (hnames : values.names.Nodup) :
    ev.Escapes values text ↔ ∃ f, ev.evaluate text values = .error f ∧ f.isEvaluation = false := by
  by_cases hown : (values.any fun v => ownNames.contains v.1) = true
  · refine iff_of_false (fun h => ?_) ?_
    · obtain ⟨v, hv, hmem⟩ := own_iff.mp hown
      exact h.own v hv hmem
    · rintro ⟨f, hf, hkind⟩
      rw [evaluate, hown] at hf
      obtain rfl := Except.error.inj hf
      cases hkind
  · have hfree : ∀ v ∈ values, v.1 ∉ ownNames := fun v hv hmem => hown (own_iff.mpr ⟨v, hv, hmem⟩)
    have hevaluate : ev.evaluate text values = ev.compile text (evaluationKey text values).2 >>= fun p =>
        p.call ev.environment ((values.mergeSort fun a b => a.1 ≤ b.1).map (·.2)) := by
      rw [evaluate, if_neg hown]
      rfl
    rw [hevaluate]
    cases hcompile : ev.compile text (evaluationKey text values).2 with
    | error f =>
        constructor
        · rintro ⟨-, h | ⟨p, -, hp, -⟩⟩
          · rw [hcompile] at h
            exact ⟨f, rfl, Except.error.inj h ▸ rfl⟩
          · rw [hcompile] at hp
            cases hp
        · rintro ⟨g, hg, hkind⟩
          obtain rfl := Except.error.inj hg
          rcases compile_error (nodup_evaluationKey hnames) hcompile with h | rfl
          · rw [hkind] at h
            cases h
          · exact ⟨hfree, Or.inl hcompile⟩
    | ok p =>
        have hproper := hkept.compile hcompile
        have hlength : ((values.mergeSort fun a b => a.1 ≤ b.1).map (·.2)).length = p.formula.args.length := by
          rw [hproper.args_eq, evaluationKey, List.length_map, List.length_map]
        refine Iff.trans ?_ (Prepared.call_escapes_iff hlength).symm
        constructor
        · rintro ⟨-, h | ⟨p', f, hp, hfault, hkind, hvariables⟩⟩
          · rw [hcompile] at h
            cases h
          · rw [hcompile] at hp
            obtain rfl := Except.ok.inj hp
            exact ⟨f, hfault, isEvaluation_eq_false hkind, hvariables⟩
        · rintro ⟨f, hfault, hkind, hvariables⟩
          exact ⟨hfree, Or.inr ⟨p, f, hcompile, hfault, (hproper.fault f hfault).cases hkind, hvariables⟩⟩

end Evaluator

/-! ## Labels -/

namespace Label

variable {ev : Evaluator} {values : Assignment} {l : Label}

theorem number_escapes_iff (hkept : ev.ProperlyKept) (hnames : values.names.Nodup) {text : String} :
    ev.Escapes values text ↔ ∃ f, number ev values text = .error f ∧ f.isEvaluation = false := by
  rw [Evaluator.escapes_iff hkept hnames, number]
  constructor
  · rintro ⟨f, hf, hkind⟩
    exact ⟨f, by rw [hf]; rfl, hkind⟩
  · rintro ⟨f, hf, hkind⟩
    rcases bind_eq_error.mp hf with hf | ⟨s, -, hsingle⟩
    · exact ⟨f, hf, hkind⟩
    · rw [single] at hsingle
      split at hsingle
      · cases hsingle
      · obtain rfl := Except.error.inj hsingle
        cases hkind

/-- The coordinate that is shown: the value of the text, or zero where it has
none that is finite. -/
def shownCoordinate (ev : Evaluator) (values : Assignment) (text : String) : Float :=
  match number ev values text with
  | .ok x => Field.finiteOr 0 x
  | .error _ => 0

theorem isFinite_shownCoordinate (ev : Evaluator) (values : Assignment) (text : String) :
    (shownCoordinate ev values text).isFinite = true := by
  have hzero : (0 : Float).isFinite = true := by decide +kernel
  rw [shownCoordinate]
  split
  · exact Field.isFinite_finiteOr hzero _
  · exact hzero

theorem coordinate_of_not_escapes (hkept : ev.ProperlyKept) (hnames : values.names.Nodup) {text : String}
    (h : ¬ ev.Escapes values text) : coordinate ev values text = .ok (shownCoordinate ev values text) := by
  rw [coordinate, shownCoordinate]
  cases hnumber : number ev values text with
  | ok x => rfl
  | error f =>
      cases hkind : f.isEvaluation with
      | true => exact if_pos hkind
      | false => exact absurd ((number_escapes_iff hkept hnames).mpr ⟨f, hnumber, hkind⟩) h

theorem coordinate_of_escapes (hkept : ev.ProperlyKept) (hnames : values.names.Nodup) {text : String}
    (h : ev.Escapes values text) : ∃ f, coordinate ev values text = .error f := by
  obtain ⟨f, hf, hkind⟩ := (number_escapes_iff hkept hnames).mp h
  refine ⟨f, ?_⟩
  rw [coordinate, hf]
  dsimp only
  rw [hkind, if_neg Bool.false_ne_true]

/-- The terms of a text, in the order in which they are evaluated. -/
def terms (text : String) : List (List Token) :=
  (splitTopLevel (tokenize text.toList) .plus).filter fun t => !t.isEmpty

/-- A term fails as the text does that is evaluated for it; a quoted text
does not fail. -/
theorem piece_eq_error {line : List Char} {term : List Token} {f : Failure} :
    piece ev values line term = .error f ↔
      ∃ source ∈ source? line term, number ev values source = .error f := by
  by_cases hquoted : ∃ quoted place, term = [⟨.string, quoted, place⟩]
  · obtain ⟨quoted, place, rfl⟩ := hquoted
    refine iff_of_false (fun h => (by cases h)) ?_
    rintro ⟨source, hsource, -⟩
    cases hsource
  · have hother : ∀ quoted place, term = [⟨.string, quoted, place⟩] → False :=
      fun quoted place heq => hquoted ⟨quoted, place, heq⟩
    have hbind : ∀ {source : String} {k : Float → Piece},
        (number ev values source >>= fun x => pure (k x)) = .error f ↔ number ev values source = .error f := by
      intro source k
      refine ⟨fun h => ?_, fun h => by rw [h]; rfl⟩
      rcases bind_eq_error.mp h with h | ⟨_, _, h⟩
      · exact h
      · cases h
    rw [piece.eq_2 ev values line term hother, source?.eq_2 line term hother]
    cases formatCall? line term with
    | none => exact hbind.trans (by simp)
    | some r => exact hbind.trans (by simp)

/-- The first term of the text that fails does so in a way that a label does
not fall back from. -/
structure TextEscapes (ev : Evaluator) (values : Assignment) (text : String) : Prop where
  own : ∀ v ∈ values, v.1 ∉ textNames
  term : ∃ before term after, terms text = before ++ term :: after ∧
    (∀ t ∈ before, ∃ q, piece ev values text.toList t = .ok q) ∧
      ∃ source ∈ source? text.toList term, ev.Escapes values source

theorem renderText_eq (ev : Evaluator) (text : String) (values : Assignment) :
    renderText ev text values =
      if values.any fun v => textNames.contains v.1 then .error .notApplicable
      else (terms text).mapM (piece ev values text.toList) >>= fun pieces =>
        match pieces with
        | [] => .ok ""
        | p :: ps => .ok (ps.foldl Piece.join p).render := by
  rw [renderText]
  split <;> rfl

theorem textNames_iff :
    (values.any fun v => textNames.contains v.1) = true ↔ ∃ v ∈ values, v.1 ∈ textNames := by
  simp

theorem textEscapes_iff (hkept : ev.ProperlyKept) (hnames : values.names.Nodup) {text : String} :
    TextEscapes ev values text ↔ ∃ f, renderText ev text values = .error f ∧ f.isEvaluation = false := by
  rw [renderText_eq]
  by_cases hown : (values.any fun v => textNames.contains v.1) = true
  · rw [if_pos hown]
    refine iff_of_false (fun h => ?_) ?_
    · obtain ⟨v, hv, hmem⟩ := textNames_iff.mp hown
      exact h.own v hv hmem
    · rintro ⟨f, hf, hkind⟩
      obtain rfl := Except.error.inj hf
      cases hkind
  · rw [if_neg hown]
    constructor
    · rintro ⟨-, before, term, after, hterms, hbefore, source, hsource, hescapes⟩
      obtain ⟨f, hf, hkind⟩ := (number_escapes_iff hkept hnames).mp hescapes
      refine ⟨f, bind_eq_error.mpr (Or.inl (mapM_eq_error.mpr ?_)), hkind⟩
      exact ⟨before, term, after, hterms, hbefore, piece_eq_error.mpr ⟨source, hsource, hf⟩⟩
    · rintro ⟨f, hf, hkind⟩
      rcases bind_eq_error.mp hf with hf | ⟨pieces, -, hpieces⟩
      · obtain ⟨before, term, after, hterms, hbefore, hpiece⟩ := mapM_eq_error.mp hf
        obtain ⟨source, hsource, hnumber⟩ := piece_eq_error.mp hpiece
        exact ⟨fun v hv hmem => hown (textNames_iff.mpr ⟨v, hv, hmem⟩), before, term, after, hterms, hbefore,
          source, hsource, (number_escapes_iff hkept hnames).mpr ⟨f, hnumber, hkind⟩⟩
      · split at hpieces <;> cases hpieces

/-- The text that is shown: what its terms add up to, or the text as it was
written. -/
def shownText (ev : Evaluator) (values : Assignment) (text : String) : String :=
  match renderText ev text values with
  | .ok shown => shown
  | .error _ => text

/-- A label is not shown: a value has a name that labels take for themselves,
or one of its expressions fails in a way that it does not fall back from. -/
inductive Escapes (ev : Evaluator) (values : Assignment) (l : Label) : Prop
  | own (v : String × Samples) (hv : v ∈ values) (hname : v.1 ∈ ownNames)
  | text (h : TextEscapes ev values l.text)
  | position (text : String) (hmem : text ∈ l.position) (h : ev.Escapes values text)

theorem ownNames_iff :
    (values.any fun v => ownNames.contains v.1) = true ↔ ∃ v ∈ values, v.1 ∈ ownNames := by
  simp

/-- Each of the four expressions is shown on its own. -/
theorem evaluate_of_not_escapes (hkept : ev.ProperlyKept) (hnames : values.names.Nodup)
    (h : ¬ l.Escapes ev values) : evaluate ev l values =
      .ok (shownText ev values l.text, l.position.map (shownCoordinate ev values)) := by
  have hown : ¬ (values.any fun v => ownNames.contains v.1) = true := by
    rw [ownNames_iff]
    exact fun ⟨v, hv, hname⟩ => h (.own v hv hname)
  have hposition : l.position.mapM (coordinate ev values) =
      .ok (l.position.map (shownCoordinate ev values)) :=
    mapM_eq_map fun text hmem => coordinate_of_not_escapes hkept hnames fun he => h (.position text hmem he)
  rw [evaluate, if_neg hown, hposition, shownText]
  cases htext : renderText ev l.text values with
  | ok shown => rfl
  | error f =>
      cases hkind : f.isEvaluation with
      | true =>
          dsimp only
          rw [hkind]
          rfl
      | false => exact absurd (.text ((textEscapes_iff hkept hnames).mpr ⟨f, htext, hkind⟩)) h

theorem evaluate_ok {r : String × List Float} (h : evaluate ev l values = .ok r) :
    ¬ (values.any fun v => ownNames.contains v.1) = true ∧
      (∀ f, renderText ev l.text values = .error f → f.isEvaluation = true) ∧
        ∃ position, l.position.mapM (coordinate ev values) = .ok position := by
  rw [evaluate] at h
  split at h
  · cases h
  · rename_i hown
    refine ⟨hown, ?_⟩
    cases htext : renderText ev l.text values with
    | ok shown =>
        rw [htext] at h
        obtain ⟨_, -, h⟩ := bind_eq_ok.mp h
        obtain ⟨position, hposition, -⟩ := bind_eq_ok.mp h
        exact ⟨fun f hf => (by cases hf), position, hposition⟩
    | error f =>
        rw [htext] at h
        dsimp only at h
        split at h
        · rename_i hkind
          obtain ⟨_, -, h⟩ := bind_eq_ok.mp h
          obtain ⟨position, hposition, -⟩ := bind_eq_ok.mp h
          exact ⟨fun g hg => Except.error.inj hg ▸ hkind, position, hposition⟩
        · cases h

theorem evaluate_of_escapes (hkept : ev.ProperlyKept) (hnames : values.names.Nodup)
    (h : l.Escapes ev values) : ∃ f, evaluate ev l values = .error f := by
  cases hr : evaluate ev l values with
  | error f => exact ⟨f, rfl⟩
  | ok r =>
      exfalso
      obtain ⟨hown, hshown, position, hposition⟩ := evaluate_ok hr
      cases h with
      | own v hv hname => exact hown (ownNames_iff.mpr ⟨v, hv, hname⟩)
      | text htext =>
          obtain ⟨f, hf, hkind⟩ := (textEscapes_iff hkept hnames).mp htext
          rw [hshown f hf] at hkind
          cases hkind
      | position text hmem hescapes =>
          obtain ⟨f, hf⟩ := coordinate_of_escapes hkept hnames hescapes
          obtain ⟨x, -, hx⟩ := (mem_of_mapM_ok hposition).1 text hmem
          rw [hf] at hx
          cases hx

end Label

namespace Program

variable {p : Program} {l : Label} {ds : Definitions} {order ws : List String} {environment : Assignment}
  {A : Algebra} {ev : Evaluator}

theorem nodup_names_frameValues (p : Program) (time : Option Float) : (p.frameValues time).names.Nodup := by
  rw [frameValues]
  split
  · exact List.nodup_nil
  · exact List.nodup_singleton _

/-- A label of a program, at any time, evaluated by any evaluator after any
requests. It is shown exactly if it does not escape, and then with a text,
the one that was written if it cannot be evaluated, and three finite
coordinates, zero where there is no value or none that is finite; each is a
function of its own expression. -/
theorem label_shown_iff {source : String} (hp : ofSource source = .ok p) (hl : l ∈ p.labels)
    (hev : Evaluator.ofOrder ds order environment A = .ok (ev, ws)) (rs : List Request)
    (time : Option Float) :
    let used := ev.serveAll rs
    let values := p.frameValues time
    (∃ text position, Label.evaluate used l values = .ok (text, position) ∧
      text = Label.shownText used values l.text ∧
        position = l.position.map (Label.shownCoordinate used values) ∧
          position.length = 3 ∧ ∀ x ∈ position, x.isFinite = true) ↔ ¬ l.Escapes used values := by
  intro used values
  have hprepared : ev.prepared = [] := (Evaluator.sameCallables_of_bindAll hev).2
  have hkept : used.ProperlyKept := (Evaluator.properlyKept_of_prepared hprepared).serveAll rs
  have hnames : values.names.Nodup := p.nodup_names_frameValues time
  constructor
  · rintro ⟨text, position, hshown, -⟩ hescapes
    obtain ⟨f, hf⟩ := Label.evaluate_of_escapes hkept hnames hescapes
    rw [hf] at hshown
    cases hshown
  · intro hescapes
    have hcomplete : l.Complete := (valid_of_ofSource hp).1.labels l hl
    refine ⟨_, _, Label.evaluate_of_not_escapes hkept hnames hescapes, rfl, rfl, ?_, fun x hx => ?_⟩
    · rw [List.length_map, hcomplete.2.1]
    · obtain ⟨text, -, rfl⟩ := List.mem_map.mp hx
      exact Label.isFinite_shownCoordinate used values text

/-- An undefined function in the text, and coordinates with a value, with none
that is finite, and with none at all. -/
theorem label_shown_iff_undefined :
    let source := "PLOT3D x\nANIMATE t FROM 0 TO 4 STEP 1\nLABEL \"t = \" + FNU(t) AT t, 1/u, x"
    ∃ p ev ws l, ofSource source = .ok p ∧ l ∈ p.labels ∧ p.evaluator = .ok (ev, ws) ∧
      let used := ev.serveAll [.evaluate "t" [("t", .scalar 1)], .set "u" 0]
      Label.evaluate used l (p.frameValues (some 3)) = .ok ("\"t = \" + FNU(t)", [3, 0, 0]) ∧
        l.position.map (Label.shownCoordinate used (p.frameValues (some 3))) = [3, 0, 0] := by
  intro source
  have hshown : ((ofSource source).toOption.bind fun p => p.evaluator.toOption.bind fun r =>
      p.labels.head?.bind fun l =>
        (Label.evaluate (r.1.serveAll [.evaluate "t" [("t", .scalar 1)], .set "u" 0]) l
          (p.frameValues (some 3))).toOption) = some ("\"t = \" + FNU(t)", [3, 0, 0]) := by
    decide +kernel
  obtain ⟨p, hp, hshown⟩ := Option.bind_eq_some_iff.mp hshown
  obtain ⟨⟨ev, ws⟩, hev, hshown⟩ := Option.bind_eq_some_iff.mp hshown
  obtain ⟨l, hl, hshown⟩ := Option.bind_eq_some_iff.mp hshown
  have hprogram := eq_ok_of_toOption hp
  have hbound := eq_ok_of_toOption hev
  have hmem := List.mem_of_head? hl
  have hlabel := eq_ok_of_toOption hshown
  have hiff := label_shown_iff hprogram hmem hbound [.evaluate "t" [("t", .scalar 1)], .set "u" 0] (some 3)
  have hkept := (Evaluator.properlyKept_of_prepared (Evaluator.sameCallables_of_bindAll hbound).2).serveAll
    [.evaluate "t" [("t", .scalar 1)], .set "u" 0]
  have hescapes : ¬ l.Escapes (ev.serveAll [.evaluate "t" [("t", .scalar 1)], .set "u" 0])
      (p.frameValues (some 3)) := by
    intro h
    obtain ⟨f, hf⟩ := Label.evaluate_of_escapes hkept (p.nodup_names_frameValues (some 3)) h
    rw [hf] at hlabel
    cases hlabel
  obtain ⟨text, position, hvalue, -, hposition, -⟩ := hiff.mpr hescapes
  rw [hlabel] at hvalue
  refine ⟨p, ev, ws, l, hprogram, hmem, hbound, hlabel, ?_⟩
  rw [← hposition]
  exact (Prod.mk.inj (Except.ok.inj hvalue)).2.symm

/-- Whether the program has one label, and showing it fails in this way. -/
def labelFails (kind : Failure → Bool) (p : Program) (ev : Evaluator) : Bool :=
  match p.labels with
  | [l] =>
    match Label.evaluate ev l (p.frameValues none) with
    | .error f => kind f
    | .ok _ => false
  | _ => false

theorem exists_of_labelFails {kind : Failure → Bool} {source : String}
    (h : ((ofSource source).toOption.bind fun p => p.evaluator.toOption.map fun r => p.labelFails kind r.1) =
      some true) :
    ∃ p ev ws l f, ofSource source = .ok p ∧ p.labels = [l] ∧ p.evaluator = .ok (ev, ws) ∧
      Label.evaluate ev l (p.frameValues none) = .error f ∧ kind f = true := by
  obtain ⟨p, hp, h⟩ := Option.bind_eq_some_iff.mp h
  obtain ⟨⟨ev, ws⟩, hev, h⟩ := Option.map_eq_some_iff.mp h
  rw [labelFails] at h
  split at h
  · rename_i l hl
    split at h
    · rename_i f hf
      exact ⟨p, ev, ws, l, f, eq_ok_of_toOption hp, hl, eq_ok_of_toOption hev, hf, h⟩
    · cases h
  · cases h

/-- No float is near to the number. -/
def isTooLarge : Failure → Bool
  | .tooLarge => true
  | _ => false

def isPole : Failure → Bool
  | .pole => true
  | _ => false

/-- Labels of programs that are not shown: a number that no float is near to,
and a coordinate with a pole. -/
theorem label_not_shown :
    (∃ p ev ws l, ofSource "PLOT3D x\nLABEL 10^400 AT 0, 0, 1" = .ok p ∧ p.labels = [l] ∧
      p.evaluator = .ok (ev, ws) ∧ Label.evaluate ev l (p.frameValues none) = .error .tooLarge) ∧
    ∃ p ev ws l, ofSource "PLOT3D x\nLABEL \"A\" AT 1/0, 0, 1" = .ok p ∧ p.labels = [l] ∧
      p.evaluator = .ok (ev, ws) ∧ Label.evaluate ev l (p.frameValues none) = .error .pole := by
  have hlarge : ((ofSource "PLOT3D x\nLABEL 10^400 AT 0, 0, 1").toOption.bind fun p =>
      p.evaluator.toOption.map fun r => p.labelFails isTooLarge r.1) = some true := by decide +kernel
  have hpole : ((ofSource "PLOT3D x\nLABEL \"A\" AT 1/0, 0, 1").toOption.bind fun p =>
      p.evaluator.toOption.map fun r => p.labelFails isPole r.1) = some true := by decide +kernel
  constructor
  · obtain ⟨p, ev, ws, l, f, hp, hl, hev, hf, hkind⟩ := exists_of_labelFails hlarge
    obtain rfl : f = .tooLarge := by
      unfold isTooLarge at hkind
      split at hkind
      · rfl
      · cases hkind
    exact ⟨p, ev, ws, l, hp, hl, hev, hf⟩
  · obtain ⟨p, ev, ws, l, f, hp, hl, hev, hf, hkind⟩ := exists_of_labelFails hpole
    obtain rfl : f = .pole := by
      unfold isPole at hkind
      split at hkind
      · rfl
      · cases hkind
    exact ⟨p, ev, ws, l, hp, hl, hev, hf⟩

end Program
end FieldScript
