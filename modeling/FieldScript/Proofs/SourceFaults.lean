import FieldScript.Proofs.DraftInvariant
import FieldScript.Proofs.EvaluatorFailures

/-!
# Faults of a source

A source that is no program is refused with a fault, and the fault names
one of its lines (`Program.Reported`). Two ways lead past this, and
`Program.reported_iff` says that there are no others:

- `EscapesReading`: a count is written in digits that no number is read
  from, in the first line that is no statement;
- `EscapesFolding`: the source is in order up to its animation, and a
  bound of the animation is no constant in a way that is not a failure of
  its evaluation (`Unfoldable`).

Either way the answer is a bare failure without a line.
-/

namespace FieldScript
namespace Program

open Statement

/-- The source is a program, or is refused with a fault on one of its
lines. -/
def Reported (source : String) : Prop :=
  (∃ p, ofSource source = .ok p) ∨
    ∃ n fault text, ofSource source = .error (.statement n fault text) ∧
      IsLine (Source.lineCount source.toList) n

/-- The first line that is no statement has an unreadable count. -/
def EscapesReading (source : String) : Prop :=
  ∃ before l after, logicalLines source.toList = before ++ l :: after ∧
    (∀ m ∈ before, ∃ s, parse m = .ok s) ∧ UnreadableCount l

/-- The text is no numeral, and either no evaluator can be made for it,
because a field definition does not fall into components, or evaluating
it ends with a failure that is none of an evaluation. -/
def Unfoldable (ds : Definitions) (order : List String) (text : String) : Prop :=
  readFloat? text = none ∧
    ((∃ fn ∈ ds, fn.Unsplit) ∨
      ∃ ev ws f, Evaluator.ofOrder ds order = .ok (ev, ws) ∧ ev.evaluate text [] = .error f ∧
        f.isEvaluation = false)

/-- The first of the bounds that has no value is unfoldable. -/
def StopsUnfoldable (ds : Definitions) (order : List String) (line : Nat) (bounds : List String) :
    Prop :=
  ∃ before t after, bounds = before ++ t :: after ∧
    (∀ u ∈ before, ∃ x, constantValue ds order line u = .ok x) ∧ Unfoldable ds order t

/-- All in the draft is in order but its animation. -/
def Draft.Escapes (d : Draft) : Prop :=
  ∃ order line parameter a b c, d.definitions.order = .ok order ∧
    (∀ q ∈ d.plots, checkPlot d.definitions q.1 q.2 = .ok ()) ∧ d.plots ≠ [] ∧
    d.animation = some (line, parameter, a, b, c) ∧
    StopsUnfoldable d.definitions order line [a, b, c]

/-- All lines are statements, and they make a draft that escapes. -/
def EscapesFolding (source : String) : Prop :=
  ∃ ss d, (logicalLines source.toList).mapM parse = .ok ss ∧ ss.foldlM Draft.add {} = .ok d ∧
    d.Escapes

/-- A failure that is a fault of this line. -/
def IsFault (line : Nat) (f : Failure) : Prop := ∃ fault, f = .statement line fault none

/-- A failure that is a fault of no line. -/
def Bare (f : Failure) : Prop := ∀ n, ¬ f.OnLine n

theorem bare_of_isConstantFailure {f : Failure} (h : Evaluator.IsConstantFailure f) : Bare f := by
  rintro n ⟨fault, text, rfl⟩
  rcases h with h | h | h | h | h <;> cases h

/-! ## The bounds of an animation -/

section Folding

variable {ds : Definitions} {order : List String} {line : Nat}

/-- The finite value of a bound. -/
def finiteValue (line : Nat) (text : String) (x : Float) : Except Failure Float :=
  if x.isFinite then pure x else failAt line (.notFinite text)

theorem constantValue_of_numeral {text : String} {x : Float} (h : readFloat? text = some x) :
    constantValue ds order line text = finiteValue line text x := by
  rw [constantValue, h]
  rfl

theorem constantValue_of_unbound {text : String} {f : Failure} (h : readFloat? text = none)
    (hev : Evaluator.ofOrder ds order = .error f) :
    constantValue ds order line text = .error f := by
  rw [constantValue, h, hev]
  rfl

theorem constantValue_of_evaluator {text : String} {ev : Evaluator} {ws : List String}
    (h : readFloat? text = none) (hev : Evaluator.ofOrder ds order = .ok (ev, ws)) :
    constantValue ds order line text = match ev.evaluate text [] with
      | .ok s => finiteValue line text s.first
      | .error f => if f.isEvaluation then failAt line (.notConstant text) else .error f := by
  rw [constantValue, h, hev]
  show (match ev.evaluate text [] with
    | .ok s => _
    | .error f => _) = _
  cases ev.evaluate text [] with
  | ok s => rfl
  | error f => cases hf : f.isEvaluation <;> simp [hf] <;> rfl

theorem finiteValue_cases (line : Nat) (text : String) (x : Float) :
    (∃ y, finiteValue line text x = .ok y) ∨
      ∃ f, finiteValue line text x = .error f ∧ IsFault line f := by
  unfold finiteValue
  split
  · exact Or.inl ⟨x, rfl⟩
  · exact Or.inr ⟨_, rfl, _, rfl⟩

/-- A bound has a value, puts a fault on the line, or is unfoldable. -/
theorem constantValue_cases (horder : order.Perm ds.names) (hnames : ds.names.Nodup)
    (hparams : ∀ fn ∈ ds, fn.params.Nodup) (line : Nat) (text : String) :
    (Unfoldable ds order text ∧ ∃ f, constantValue ds order line text = .error f ∧ Bare f) ∨
      (¬ Unfoldable ds order text ∧
        ((∃ x, constantValue ds order line text = .ok x) ∨
          ∃ f, constantValue ds order line text = .error f ∧ IsFault line f)) := by
  cases hread : readFloat? text with
  | some x =>
      rw [constantValue_of_numeral hread]
      refine Or.inr ⟨fun h => ?_, finiteValue_cases line text x⟩
      rw [h.1] at hread
      cases hread
  | none =>
      rcases Evaluator.ofOrder_cases horder hparams hnames with
        ⟨hunsplit, hev⟩ | ⟨hsplit, ev, ws, hev, hprepared⟩
      · rw [constantValue_of_unbound hread hev]
        exact Or.inl ⟨⟨hread, Or.inl hunsplit⟩, .outOfBounds, rfl, fun n ⟨_, _, h⟩ => by cases h⟩
      · have hunfoldable : Unfoldable ds order text →
            ∃ f, ev.evaluate text [] = .error f ∧ f.isEvaluation = false := by
          rintro ⟨-, ⟨fn, hfn, hunsplit⟩ | ⟨ev', ws', f, hev', hf⟩⟩
          · exact absurd hunsplit (hsplit fn hfn)
          · rw [hev] at hev'
            cases hev'
            exact ⟨f, hf⟩
        rw [constantValue_of_evaluator hread hev]
        cases heval : ev.evaluate text [] with
        | ok s =>
            refine Or.inr ⟨fun h => ?_, finiteValue_cases line text s.first⟩
            obtain ⟨f, hf, -⟩ := hunfoldable h
            rw [heval] at hf
            cases hf
        | error f =>
            have hfailure := Evaluator.evaluate_error hprepared heval
            cases hf : f.isEvaluation with
            | true =>
                refine Or.inr ⟨fun h => ?_, Or.inr ⟨_, if_pos hf, _, rfl⟩⟩
                obtain ⟨g, hg, hbare⟩ := hunfoldable h
                rw [heval] at hg
                obtain rfl := Except.error.inj hg
                rw [hf] at hbare
                cases hbare
            | false =>
                refine Or.inl ⟨⟨hread, Or.inr ⟨ev, ws, f, hev, heval, hf⟩⟩, f, ?_,
                  bare_of_isConstantFailure hfailure⟩
                exact if_neg (Bool.eq_false_iff.mp hf)

/-- An animation has the values of its bounds, or fails as the first of
them without a value does, or its step is at fault. -/
theorem animationOf_cases (ds : Definitions) (order : List String) (line : Nat)
    (parameter a b c : String) :
    (∃ f, [a, b, c].mapM (constantValue ds order line) = .error f ∧
        animationOf ds order (line, parameter, a, b, c) = .error f) ∨
      ((∃ xs, [a, b, c].mapM (constantValue ds order line) = .ok xs) ∧
        ((∃ m, animationOf ds order (line, parameter, a, b, c) = .ok m) ∨
          ∃ f, animationOf ds order (line, parameter, a, b, c) = .error f ∧ IsFault line f)) := by
  rw [List.mapM_cons, List.mapM_cons, List.mapM_cons, List.mapM_nil, animationOf]
  cases constantValue ds order line a with
  | error f => exact Or.inl ⟨f, rfl, rfl⟩
  | ok x =>
      cases constantValue ds order line b with
      | error f => exact Or.inl ⟨f, rfl, rfl⟩
      | ok y =>
          cases constantValue ds order line c with
          | error f => exact Or.inl ⟨f, rfl, rfl⟩
          | ok z =>
              refine Or.inr ⟨⟨[x, y, z], rfl⟩, ?_⟩
              by_cases hstep : z ≤ 0
              · exact Or.inr ⟨_, if_pos hstep, _, rfl⟩
              · exact Or.inl ⟨_, if_neg hstep⟩

end Folding

/-! ## Completing a draft -/

section Completing

variable {lines : Nat} {d : Draft}

/-- A fault on one of the lines. -/
def IsLineFault (lines : Nat) (f : Failure) : Prop := ∃ n, IsLine lines n ∧ f.OnLine n

/-- A cycle is reported on the line of a definition in it. -/
theorem orderOf_cases (hd : d.Sound lines) :
    (∃ order, d.definitions.order = .ok order ∧ orderOf d.definitions = .ok order) ∨
      ((∀ order, d.definitions.order ≠ .ok order) ∧
        ∃ f, orderOf d.definitions = .error f ∧ IsLineFault lines f) := by
  rw [orderOf]
  cases horder : d.definitions.order with
  | ok order => exact Or.inl ⟨order, rfl, rfl⟩
  | error f =>
      obtain ⟨n, cycle, rfl, hn⟩ := Definitions.order_error horder
      obtain ⟨g, hg, hget⟩ := Definitions.get?_of_mem_names hn
      refine Or.inr ⟨fun order h => (by cases h), _, rfl, g.line, (hd.definitions g hg).1, ?_⟩
      refine ⟨.circular (n :: cycle), none, ?_⟩
      rw [List.head?_cons, Option.bind_some, hget]
      rfl

theorem checkPlot_error {ds : Definitions} {line : Nat} {q : Plot} {f : Failure}
    (h : checkPlot ds line q = .error f) : f.OnLine line := by
  cases q with
  | surface => cases h
  | vectorField | tensorField =>
      rw [checkPlot] at h
      split at h
      · cases h
      · exact ⟨_, _, (Except.error.inj h).symm⟩

theorem withSurface_cases (lines : Nat) (plots : List Plot) :
    (plots ≠ [] ∧ ∃ plots', withSurface lines plots = .ok plots') ∨
      (plots = [] ∧ ∃ f, withSurface lines plots = .error f ∧ f.OnLine (max 1 lines)) := by
  cases plots with
  | nil => exact Or.inr ⟨rfl, _, rfl, _, _, rfl⟩
  | cons q rest =>
      refine Or.inl ⟨List.cons_ne_nil _ _, ?_⟩
      unfold withSurface
      split
      · exact ⟨_, rfl⟩
      · exact ⟨_, rfl⟩

/-- The animation of a sound draft: a bound stops it, it is complete, or
it is at fault. -/
theorem animationOf_sound (hd : d.Sound lines) {order : List String}
    (horder : d.definitions.order = .ok order) {line : Nat} {parameter a b c : String}
    (hanimation : d.animation = some (line, parameter, a, b, c)) :
    (StopsUnfoldable d.definitions order line [a, b, c] ∧
      ∃ f, animationOf d.definitions order (line, parameter, a, b, c) = .error f ∧ Bare f) ∨
    (¬ StopsUnfoldable d.definitions order line [a, b, c] ∧
      ((∃ m, animationOf d.definitions order (line, parameter, a, b, c) = .ok m) ∨
        ∃ f, animationOf d.definitions order (line, parameter, a, b, c) = .error f ∧
          IsLineFault lines f)) := by
  have hvalue := constantValue_cases (Definitions.order_ok horder).1 hd.names
    (fun fn hfn => (hd.definitions fn hfn).2) line
  have hline : IsLine lines line := hd.animation _ hanimation
  have hfault : ∀ {f}, IsFault line f → IsLineFault lines f :=
    fun ⟨fault, hf⟩ => ⟨line, hline, fault, none, hf⟩
  -- An unfoldable bound makes the values of the bounds fail, and not with a fault.
  have hescape : StopsUnfoldable d.definitions order line [a, b, c] →
      ∃ f, [a, b, c].mapM (constantValue d.definitions order line) = .error f ∧ Bare f := by
    rintro ⟨before, t, after, hsplit, hbefore, ht⟩
    rcases hvalue t with ⟨-, f, hf, hbare⟩ | ⟨hnot, -⟩
    · exact ⟨f, mapM_eq_error.mpr ⟨before, t, after, hsplit, hbefore, hf⟩, hbare⟩
    · exact absurd ht hnot
  rcases animationOf_cases d.definitions order line parameter a b c with
    ⟨f, hvalues, hfail⟩ | ⟨⟨xs, hvalues⟩, hdone⟩
  · obtain ⟨before, t, after, hsplit, hbefore, hf⟩ := mapM_eq_error.mp hvalues
    rcases hvalue t with ⟨ht, g, hg, hbare⟩ | ⟨hnot, ⟨x, hx⟩ | ⟨g, hg, hfg⟩⟩
    · rw [hf] at hg
      obtain rfl := Except.error.inj hg
      exact Or.inl ⟨⟨before, t, after, hsplit, hbefore, ht⟩, f, hfail, hbare⟩
    · rw [hf] at hx
      cases hx
    · rw [hf] at hg
      obtain rfl := Except.error.inj hg
      refine Or.inr ⟨fun h => ?_, Or.inr ⟨f, hfail, hfault hfg⟩⟩
      obtain ⟨g, hg, hbare⟩ := hescape h
      rw [hvalues] at hg
      obtain rfl := Except.error.inj hg
      obtain ⟨fault, rfl⟩ := hfg
      exact hbare line ⟨fault, none, rfl⟩
  · refine Or.inr ⟨fun h => ?_, ?_⟩
    · obtain ⟨g, hg, -⟩ := hescape h
      rw [hvalues] at hg
      cases hg
    · rcases hdone with hm | ⟨f, hf, hff⟩
      · exact Or.inl hm
      · exact Or.inr ⟨f, hf, hfault hff⟩

theorem not_escapes {order : List String} (horder : d.definitions.order = .ok order) {line : Nat}
    {parameter a b c : String} (hanimation : d.animation = some (line, parameter, a, b, c))
    (h : ¬ StopsUnfoldable d.definitions order line [a, b, c]) : ¬ d.Escapes := by
  rintro ⟨order', line', parameter', a', b', c', horder', -, -, hanimation', hstop⟩
  rw [horder] at horder'
  rw [hanimation] at hanimation'
  cases horder'
  cases hanimation'
  exact h hstop

/-- A sound draft escapes, is completed, or is at fault on a line. -/
theorem ofDraft_cases (hd : d.Sound lines) (hlines : 1 ≤ lines) :
    (d.Escapes ∧ ∃ f, ofDraft lines d = .error f ∧ Bare f) ∨
      (¬ d.Escapes ∧ ((∃ p, ofDraft lines d = .ok p) ∨
        ∃ f, ofDraft lines d = .error f ∧ IsLineFault lines f)) := by
  unfold ofDraft
  rcases orderOf_cases hd with ⟨order, horder, hof⟩ | ⟨hnone, f, hof, hfault⟩
  · rw [hof]
    simp only [bind, Except.bind]
    split
    · rename_i f hchecks
      obtain ⟨q, hq, hcheck⟩ := exists_of_forIn_eq_error hchecks
      refine Or.inr ⟨?_, Or.inr ⟨f, rfl, q.1, (hd.plots q hq).1, checkPlot_error hcheck⟩⟩
      rintro ⟨_, _, _, _, _, _, -, hall, -⟩
      rw [hall q hq] at hcheck
      cases hcheck
    · rename_i u hchecks
      have hall := forIn_eq_ok.mp hchecks
      rcases withSurface_cases lines (d.plots.map fun q => resolvePlot d.definitions q.2) with
        ⟨hne, plots, hplots⟩ | ⟨hnil, f, hplots, hf⟩
      · rw [hplots]
        dsimp only
        cases hanimation : d.animation with
        | none =>
            refine Or.inr ⟨?_, Or.inl ⟨_, rfl⟩⟩
            rintro ⟨_, _, _, _, _, _, -, -, -, hsome, -⟩
            rw [hanimation] at hsome
            cases hsome
        | some m =>
            obtain ⟨line, parameter, a, b, c⟩ := m
            dsimp only
            rcases animationOf_sound hd horder hanimation with
              ⟨hstop, f, hf, hbare⟩ | ⟨hgo, ⟨m, hm⟩ | ⟨f, hf, hfault⟩⟩
            · rw [hf]
              refine Or.inl ⟨?_, f, rfl, hbare⟩
              exact ⟨order, line, parameter, a, b, c, horder, hall, mt (congrArg _) hne, hanimation,
                hstop⟩
            · rw [hm]
              exact Or.inr ⟨not_escapes horder hanimation hgo, Or.inl ⟨_, rfl⟩⟩
            · rw [hf]
              exact Or.inr ⟨not_escapes horder hanimation hgo, Or.inr ⟨f, rfl, hfault⟩⟩
      · rw [hplots]
        refine Or.inr ⟨?_, Or.inr ⟨f, rfl, max 1 lines, ⟨by omega, by omega⟩, hf⟩⟩
        rintro ⟨_, _, _, _, _, _, -, -, hne, -⟩
        exact hne (List.map_eq_nil_iff.mp hnil)
  · rw [hof]
    refine Or.inr ⟨?_, Or.inr ⟨f, rfl, hfault⟩⟩
    rintro ⟨order, -, -, -, -, -, horder, -⟩
    exact hnone order horder

end Completing

/-! ## Sources -/

theorem ofSource_of_statements {source : String} {ss : List Statement}
    (h : (logicalLines source.toList).mapM parse = .ok ss) :
    ofSource source = ss.foldlM Draft.add {} >>= ofDraft (Source.lineCount source.toList) := by
  rw [ofSource]
  show ((logicalLines source.toList).mapM parse >>= _) = _
  rw [h]
  rfl

theorem ofSource_of_unread {source : String} {f : Failure}
    (h : (logicalLines source.toList).mapM parse = .error f) : ofSource source = .error f := by
  rw [ofSource]
  show ((logicalLines source.toList).mapM parse >>= _) = _
  rw [h]
  rfl

theorem mapM_of_escapesReading {source : String} (h : EscapesReading source) :
    (logicalLines source.toList).mapM parse = .error .invalidValue := by
  obtain ⟨before, l, after, hsplit, hbefore, hl⟩ := h
  exact mapM_eq_error.mpr ⟨before, l, after, hsplit, hbefore, parse_of_unreadableCount hl⟩

/-- A source escapes, is a program, or is at fault on a line. -/
theorem ofSource_cases (source : String) :
    ((EscapesReading source ∨ EscapesFolding source) ∧ ∃ f, ofSource source = .error f ∧ Bare f) ∨
      (¬ (EscapesReading source ∨ EscapesFolding source) ∧ ((∃ p, ofSource source = .ok p) ∨
        ∃ f, ofSource source = .error f ∧ IsLineFault (Source.lineCount source.toList) f)) := by
  have hlines := Source.one_le_lineCount source.toList
  cases hss : (logicalLines source.toList).mapM parse with
  | error f =>
      rw [ofSource_of_unread hss]
      obtain ⟨before, l, after, hsplit, hbefore, hl⟩ := mapM_eq_error.mp hss
      by_cases hcount : UnreadableCount l
      · rw [parse_of_unreadableCount hcount] at hl
        cases hl
        exact Or.inl ⟨Or.inl ⟨before, l, after, hsplit, hbefore, hcount⟩, _, rfl,
          fun n ⟨_, _, h⟩ => by cases h⟩
      · have hf := onLine_of_parse hl hcount
        have hline : IsLine (Source.lineCount source.toList) l.line :=
          logicalLines_line_bounds (hsplit ▸ List.mem_append_right _ List.mem_cons_self)
        refine Or.inr ⟨?_, Or.inr ⟨f, rfl, l.line, hline, hf⟩⟩
        rintro (hreading | ⟨ss, -, hok, -⟩)
        · rw [mapM_of_escapesReading hreading] at hss
          cases hss
          obtain ⟨_, _, h⟩ := hf
          cases h
        · rw [hss] at hok
          cases hok
  | ok ss =>
      rw [ofSource_of_statements hss]
      have hreading : ¬ EscapesReading source := by
        intro h
        rw [mapM_of_escapesReading h] at hss
        cases hss
      rcases (Draft.sound_empty _).foldlM (statements_valid hss) with
        ⟨d, hd, hsound⟩ | ⟨n, fault, hd, hn⟩
      · rw [hd]
        rcases ofDraft_cases hsound hlines with ⟨hescapes, hf⟩ | ⟨hescapes, hdone⟩
        · exact Or.inl ⟨Or.inr ⟨ss, d, hss, hd, hescapes⟩, hf⟩
        · refine Or.inr ⟨?_, hdone⟩
          rintro (h | ⟨ss', d', hss', hd', hescapes'⟩)
          · exact hreading h
          · rw [hss] at hss'
            cases hss'
            rw [hd] at hd'
            cases hd'
            exact hescapes hescapes'
      · rw [hd]
        refine Or.inr ⟨?_, Or.inr ⟨_, rfl, n, hn, fault, none, rfl⟩⟩
        rintro (h | ⟨ss', d', hss', hd', -⟩)
        · exact hreading h
        · rw [hss] at hss'
          cases hss'
          rw [hd] at hd'
          cases hd'

/-- Every source that is no program is refused with a fault on one of its
lines, unless it escapes while its lines are read or while the bounds of
its animation are evaluated; and a source that escapes never is. -/
theorem reported_iff (source : String) :
    Reported source ↔ ¬ (EscapesReading source ∨ EscapesFolding source) := by
  rcases ofSource_cases source with ⟨hescapes, f, hf, hbare⟩ | ⟨hescapes, hdone⟩
  · refine ⟨?_, fun h => absurd hescapes h⟩
    rintro (⟨p, hp⟩ | ⟨n, fault, text, hn, -⟩)
    · rw [hf] at hp
      cases hp
    · rw [hf] at hn
      exact absurd ⟨fault, text, Except.error.inj hn⟩ (hbare n)
  · refine ⟨fun _ => hescapes, fun _ => ?_⟩
    rcases hdone with hp | ⟨f, hf, n, hn, fault, text, rfl⟩
    · exact Or.inl hp
    · exact Or.inr ⟨n, fault, text, hf, hn⟩

/-- The superscript two is a digit in form only, and the count that it
writes is refused without a line. -/
theorem not_reported_superscript : ¬ Reported "PARTICLES ²" := by
  have hbare : (match ofSource "PARTICLES ²" with
      | .error .invalidValue => true
      | _ => false) = true := by decide +kernel
  rintro (⟨p, hp⟩ | ⟨n, fault, text, hn, -⟩)
  · rw [hp] at hbare
    cases hbare
  · rw [hn] at hbare
    cases hbare

end Program
end FieldScript
