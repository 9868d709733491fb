import FieldScript.Proofs.SurfaceInlining

/-!
# Safe potentials

A safe field has finite numbers at all coordinates, if it hides every
failure of the field below (`Field.Tame`). The potential of a program is
safe, but not all failures of its surface are hidden. Two ways lead past
the defaults, and `Session.plotted_finite_iff` says that there are no
others:

- the expression of the surface has no code at all, because of a pole or of
  an integer that is too long to be written;
- its calls come upon a function, or a span of numbers, where a number is
  needed.

Everything else reads as zero where it has no finite value: expressions
that make no sense, undefined variables, and failures of arithmetic.
-/

namespace FieldScript

namespace Samples

/-! ## Shapes -/

theorem joinReversed?_self (ns : List Nat) : joinReversed? ns ns = some ns := by
  induction ns with
  | nil => rfl
  | cons n ns ih => rw [joinReversed?, beq_self_eq_true, Bool.true_or, if_pos rfl, ih, Option.map_some]

theorem joinShapes?_self (shape : List Nat) : joinShapes? shape shape = some shape := by
  rw [joinShapes?, joinReversed?_self, Option.map_some, List.reverse_reverse]

theorem nil_joinShapes? (shape : List Nat) : joinShapes? [] shape = some shape := by
  rw [joinShapes?, List.reverse_nil, joinReversed?, Option.map_some, List.reverse_reverse]

theorem joinShapes?_nil (shape : List Nat) : joinShapes? shape [] = some shape := by
  rw [joinShapes?, List.reverse_nil]
  cases h : shape.reverse with
  | nil => rw [joinReversed?, Option.map_some, ← h, List.reverse_reverse]
  | cons n ns => rw [joinReversed?, Option.map_some, ← h, List.reverse_reverse]; simp

/-- Single numbers have no part in the common shape. -/
theorem commonShape?_pair {shape : List Nat} {rest : List (List Nat)} (h : ∀ r ∈ rest, r = []) :
    commonShape? (shape :: shape :: rest) = some shape := by
  have hrest : rest.foldlM joinShapes? shape = some shape := by
    induction rest with
    | nil => rfl
    | cons r rest ih =>
        obtain ⟨rfl, hrest⟩ := List.forall_mem_cons.mp h
        rw [List.foldlM_cons, joinShapes?_nil, Option.bind_eq_bind, Option.bind_some, ih hrest]
  rw [commonShape?, List.foldlM_cons, nil_joinShapes?, Option.bind_eq_bind, Option.bind_some,
    List.foldlM_cons, joinShapes?_self, Option.bind_eq_bind, Option.bind_some, hrest]

/-- A number for each place of a shape. -/
structure Fills (s : Samples) (shape : List Nat) : Prop where
  shape_eq : s.shape = shape
  size_eq : s.data.size = shapeSize shape

theorem eq_scalar_of_fills {s : Samples} (h : s.Fills []) : s = scalar s.first := by
  obtain ⟨shape, data⟩ := s
  obtain ⟨rfl, hsize⟩ := h
  obtain ⟨x, rfl⟩ := Array.size_eq_one_iff.mp hsize
  rfl

section Tables

variable {args : List Samples} {f : List Float → Except Failure Float} {s : Samples}
  {shape : List Nat}

theorem tabulate?_eq (hshape : commonShape? (args.map Samples.shape) = some shape) :
    tabulate? args f = (do
      let values ← (List.range (shapeSize shape)).mapM fun i => f (args.map fun s => s.reader shape i)
      return ⟨shape, values.toArray⟩) := by
  rw [tabulate?, hshape]
  simp only [List.map_map]
  rfl

theorem fills_of_tabulate? (hshape : commonShape? (args.map Samples.shape) = some shape)
    (h : tabulate? args f = .ok s) :
    s.Fills shape ∧ ∀ z ∈ s.data, ∃ i, f (args.map fun s => s.reader shape i) = .ok z := by
  rw [tabulate?_eq hshape] at h
  obtain ⟨values, hvalues, h⟩ := bind_eq_ok.mp h
  obtain rfl := Except.ok.inj h
  refine ⟨⟨rfl, ?_⟩, fun z hz => ?_⟩
  · rw [List.size_toArray, length_of_mapM_ok hvalues, List.length_range]
  · obtain ⟨i, -, hi⟩ := (mem_of_mapM_ok hvalues).2 z (List.mem_toArray.mp hz)
    exact ⟨i, hi⟩

/-- A table of values that are all found. -/
theorem exists_tabulate? {P : Float → Prop}
    (hshape : commonShape? (args.map Samples.shape) = some shape)
    (hf : ∀ i, ∃ z, f (args.map fun s => s.reader shape i) = .ok z ∧ P z) :
    ∃ s, tabulate? args f = .ok s ∧ s.Fills shape ∧ ∀ z ∈ s.data, P z := by
  cases h : tabulate? args f with
  | error e =>
      rw [tabulate?_eq hshape] at h
      rcases bind_eq_error.mp h with h | ⟨values, -, h⟩
      · obtain ⟨-, i, -, -, -, hi⟩ := mapM_eq_error.mp h
        obtain ⟨z, hz, -⟩ := hf i
        cases hz.symm.trans hi
      · cases h
  | ok s =>
      obtain ⟨hfills, hvalues⟩ := fills_of_tabulate? hshape h
      refine ⟨s, rfl, hfills, fun z hz => ?_⟩
      obtain ⟨i, hi⟩ := hvalues z hz
      obtain ⟨w, hw, hP⟩ := hf i
      exact Except.ok.inj (hw.symm.trans hi) ▸ hP

end Tables

end Samples

namespace Field

/-! ## Fields that hide their failures -/

/-- The field keeps the shape of its coordinates, and fails only in ways
that a safe field hides. -/
structure Tame (f : Field) : Prop where
  hidden : ∀ x y e, f x y = .error e → hides e = true
  fills : ∀ x y s, x.shape = y.shape → f x y = .ok s → s.Fills x.shape

theorem isFinite_finiteOr {fallback : Float} (h : fallback.isFinite = true) (x : Float) :
    (finiteOr fallback x).isFinite = true := by
  rw [finiteOr]
  split
  · assumption
  · exact h

variable {f : Field} {fallback : Float} {x y : Samples}

theorem Tame.safePoint (h : f.Tame) (hfallback : fallback.isFinite = true) (a b : Float) :
    ∃ z, safePoint fallback f a b = .ok z ∧ z.isFinite = true := by
  rw [Field.safePoint]
  cases hz : f (.scalar a) (.scalar b) with
  | ok s => exact ⟨_, rfl, isFinite_finiteOr hfallback _⟩
  | error e => exact ⟨fallback, if_pos (h.hidden _ _ e hz), hfallback⟩

/-- Made safe, such a field never fails and never gives what is not
finite. -/
theorem Tame.safe (h : f.Tame) (hfallback : fallback.isFinite = true) (hshape : x.shape = y.shape) :
    ∃ s, f.safe fallback x y = .ok s ∧ s.Fills x.shape ∧ ∀ z ∈ s.data, z.isFinite = true := by
  rw [Field.safe]
  cases hs : f x y with
  | ok s =>
      obtain ⟨hs, hsize⟩ := h.fills x y s hshape hs
      refine ⟨_, rfl, ⟨hs, (Array.size_map).trans hsize⟩, fun z hz => ?_⟩
      obtain ⟨w, -, rfl⟩ := Array.mem_map.mp hz
      exact isFinite_finiteOr hfallback w
  | error e =>
      dsimp only
      rw [h.hidden x y e hs]
      by_cases hscalar : x.isScalar && y.isScalar
      · rw [Bool.not_true, if_neg Bool.false_ne_true, if_pos hscalar]
        have hnil : x.shape = [] := List.isEmpty_iff.mp (Bool.and_eq_true_iff.mp hscalar).1
        refine ⟨_, rfl, ⟨hnil.symm, hnil ▸ rfl⟩, fun z hz => ?_⟩
        obtain rfl : z = fallback := by simpa [Samples.scalar] using hz
        exact hfallback
      · rw [Bool.not_true, if_neg Bool.false_ne_true, if_neg hscalar]
        -- Point by point no failure is left.
        have hcommon : Samples.commonShape? ([x, y].map Samples.shape) = some x.shape := by
          rw [List.map_cons, List.map_cons, List.map_nil, ← hshape]
          exact Samples.commonShape?_pair (List.forall_mem_nil _)
        exact Samples.exists_tabulate? hcommon fun i => h.safePoint hfallback _ _

theorem zero_finite (hshape : x.shape = y.shape) :
    ∃ s, zero x y = .ok s ∧ s.Fills x.shape ∧ ∀ z ∈ s.data, z.isFinite = true := by
  rw [zero, ← hshape, Samples.joinShapes?_self]
  refine ⟨_, rfl, ⟨rfl, Array.size_replicate⟩, fun z hz => ?_⟩
  obtain ⟨-, rfl⟩ := Array.mem_replicate.mp hz
  decide +kernel

end Field

/-! ## Calls of formulas -/

namespace Assignment

theorem lookup_isSome {a : Assignment} {n : String} : (a.lookup n).isSome = true ↔ n ∈ a.names := by
  rw [List.lookup_isSome_iff, names, List.mem_map]
  simp only [beq_iff_eq, @eq_comm _ n]

theorem shape_of_lookup {a : Assignment} (h : ∀ v ∈ a, v.2.shape = []) {n : String} {s : Samples}
    (hn : a.lookup n = some s) : s.shape = [] := by
  obtain ⟨before, after, rfl, -⟩ := List.lookup_eq_some_iff.mp hn
  exact h (n, s) (List.mem_append_right _ List.mem_cons_self)

end Assignment

namespace Prepared

variable {p : Prepared} {environment overrides : Assignment}

theorem freeValues_ok {find? : String → Option Samples} {values : List Samples}
    (h : p.freeValues find? = .ok values) : ∀ v ∈ values, ∃ n, find? n = some v := by
  intro v hv
  obtain ⟨n, -, hvalue⟩ := (mem_of_mapM_ok h).2 v hv
  split at hvalue
  · rename_i w hfind
    exact ⟨n, Except.ok.inj hvalue ▸ hfind⟩
  · cases hvalue

theorem exists_freeValues {find? : String → Option Samples}
    (h : ∀ n ∈ p.formula.free, (find? n).isSome = true) : ∃ values, p.freeValues find? = .ok values := by
  cases hvalues : p.freeValues find? with
  | ok values => exact ⟨values, rfl⟩
  | error f =>
      obtain ⟨before, n, after, hsplit, -, hn⟩ := mapM_eq_error.mp hvalues
      have hsome := h n (hsplit ▸ List.mem_append_right _ List.mem_cons_self)
      split at hn
      · cases hn
      · rename_i hnone
        rw [hnone] at hsome
        cases hsome

/-- Called with coordinates of one shape and with numbers for the other
variables, a formula fills the shape. -/
theorem fills_call (henvironment : ∀ v ∈ environment, v.2.shape = [])
    (hoverrides : ∀ v ∈ overrides, v.2.shape = []) {x y s : Samples} (hshape : x.shape = y.shape)
    (h : p.call environment [x, y] overrides = .ok s) : s.Fills x.shape := by
  unfold call at h
  dsimp only at h
  split at h
  · cases h
  · obtain ⟨inputs, hinputs, h⟩ := bind_eq_ok.mp h
    have hcommon : Samples.commonShape? (inputs.map Samples.shape) = some x.shape := by
      unfold Prepared.inputs at hinputs
      dsimp only at hinputs
      split at hinputs
      · cases hinputs
      · obtain ⟨free, hfree, hinputs⟩ := bind_eq_ok.mp hinputs
        split at hinputs
        · cases hinputs
        · obtain rfl := Except.ok.inj hinputs
          rw [List.map_append, List.map_cons, List.map_cons, List.map_nil, ← hshape]
          refine Samples.commonShape?_pair fun r hr => ?_
          obtain ⟨v, hv, rfl⟩ := List.mem_map.mp hr
          obtain ⟨n, hn⟩ := freeValues_ok hfree v hv
          rcases Option.or_eq_some_iff.mp hn with hn | ⟨-, hn⟩
          · exact Assignment.shape_of_lookup hoverrides hn
          · exact Assignment.shape_of_lookup henvironment hn
    exact (Samples.fills_of_tabulate? hcommon h).1

/-- Every variable has a value, and then the call comes upon a function, or
a span, where a number is needed. -/
structure Stuck (p : Prepared) (environment overrides : Assignment) : Prop where
  fault : p.fault = some .unresolvedName
  free : ∀ n ∈ p.formula.free, n ∈ overrides.names ∨ n ∈ environment.names
  own : "self" ∉ overrides.names

theorem own_iff : (overrides.any fun o => ownNames.contains o.1) = true ↔ "self" ∈ overrides.names := by
  rw [List.any_eq_true, Assignment.names, List.mem_map]
  simp only [ownNames, List.contains_iff_mem, List.mem_singleton]

theorem Stuck.call (h : p.Stuck environment overrides) {values : List Samples}
    (hvalues : values.length = p.formula.args.length) :
    p.call environment values overrides = .error .unresolvedName := by
  have hfind : ∀ n ∈ p.formula.free,
      ((overrides.lookup n).or (environment.lookup n)).isSome = true := by
    intro n hn
    rw [Option.isSome_or, Bool.or_eq_true, Assignment.lookup_isSome, Assignment.lookup_isSome]
    exact h.free n hn
  obtain ⟨free, hfree⟩ := exists_freeValues hfind
  unfold Prepared.call Prepared.inputs
  dsimp only
  rw [if_neg (mt own_iff.mp h.own), if_neg (by simpa using hvalues)]
  show (p.freeValues _ >>= _) >>= _ = _
  rw [hfree, h.fault]
  rfl

/-- A call that is not stuck fails in a way that is hidden, if it fails. -/
theorem hides_of_call (hfault : ∀ f, p.fault = some f → Evaluator.IsCallFailure f)
    (h : ¬ p.Stuck environment overrides) {values : List Samples} {f : Failure}
    (hcall : p.call environment values overrides = .error f) : Field.hides f = true := by
  have hevaluation : f.isEvaluation = true → Field.hides f = true :=
    fun hf => Bool.or_eq_true_iff.mpr (Or.inl hf)
  unfold Prepared.call at hcall
  dsimp only at hcall
  split at hcall
  · exact hevaluation (Except.error.inj hcall ▸ rfl)
  · rename_i hown
    rcases bind_eq_error.mp hcall with hinputs | ⟨inputs, -, hcall⟩
    · unfold Prepared.inputs at hinputs
      dsimp only at hinputs
      split at hinputs
      · exact hevaluation (Except.error.inj hinputs ▸ rfl)
      · rcases bind_eq_error.mp hinputs with hfree | ⟨free, hfree, hinputs⟩
        · exact hevaluation (Evaluator.freeValues_error hfree)
        · split at hinputs
          · rename_i g hg
            obtain rfl := Except.error.inj hinputs
            rcases hfault _ hg with hf | hf | rfl
            · exact hevaluation hf
            · exact Bool.or_eq_true_iff.mpr (Or.inr hf)
            · refine absurd ⟨hg, fun n hn => ?_, mt own_iff.mpr hown⟩ h
              obtain ⟨v, -, hv⟩ := (mem_of_mapM_ok hfree).1 n hn
              split at hv
              · rename_i w hw
                rw [← Assignment.lookup_isSome, ← Assignment.lookup_isSome, ← Bool.or_eq_true,
                  ← Option.isSome_or]
                exact Option.isSome_of_eq_some hw
              · cases hv
          · cases hinputs
    · exact hevaluation (Evaluator.tabulate?_error hcall)

/-- With numbers for the variables, what is not stuck is tame. -/
theorem tame_of_not_stuck (henvironment : ∀ v ∈ environment, v.2.shape = [])
    (hoverrides : ∀ v ∈ overrides, v.2.shape = [])
    (hfault : ∀ f, p.fault = some f → Evaluator.IsCallFailure f)
    (h : ¬ p.Stuck environment overrides) : (Field.ofPrepared p environment overrides).Tame where
  hidden _ _ _ hcall := hides_of_call hfault h hcall
  fills _ _ _ hshape hcall := fills_call henvironment hoverrides hshape hcall

end Prepared

/-! ## Potentials of programs -/

namespace Program

/-- The failures of a surface that its potential does not hide: nothing can
be compiled, or every variable has a value and all calls come upon a
function, or a span of numbers, where a number is needed. -/
inductive Escapes (p : Program) (environment : Assignment) (e : Expr) : Prop
  | uncompiled {f : Failure} (h : e.compileFault? = some f)
  | called (hfault : e.callFault? = some .unresolvedName)
      (hfree : ∀ n ∈ e.freeVars, n ∈ ["x", "y"] ∨ n ∈ (p.frameValues none).names ∨
        n ∈ environment.names)
      (hown : "self" ∉ (p.frameValues none).names)

/-- The time is a number for the same parameter. -/
theorem names_frameValues (p : Program) (time : Option Float) :
    (p.frameValues time).names = (p.frameValues none).names := by
  rw [frameValues, frameValues]
  cases p.animation <;> rfl

theorem shape_of_mem_frameValues {p : Program} {time : Option Float} :
    ∀ v ∈ p.frameValues time, v.2.shape = [] := by
  intro v hv
  rw [frameValues] at hv
  split at hv
  · cases hv
  · obtain rfl := List.mem_singleton.mp hv
    rfl

theorem compileFault?_cases {e : Expr} {f : Failure} (h : e.compileFault? = some f) :
    f = .pole ∨ f = .invalidValue := by
  unfold Expr.compileFault? at h
  split at h
  · exact Or.inl (Option.some.inj h).symm
  · split at h
    · exact Or.inr (Option.some.inj h).symm
    · cases h

theorem mem_free {text : String} {args : List String} {e : Expr} {n : String} :
    n ∈ (Formula.ofExpr text args e).free ↔ n ∈ e.freeVars ∧ n ∉ args := by
  rw [Formula.ofExpr, List.mem_mergeSort, List.mem_filter]
  simp

/-- A surface that compiles escapes if its calls are stuck, at any time. -/
theorem escapes_iff_stuck {p : Program} {environment : Assignment} {e : Expr} {q : Prepared}
    (hcompile : e.compileFault? = none) (hformula : q.formula = Formula.ofExpr p.surfaceExpr ["x", "y"] e)
    (hfault : q.fault = e.callFault?) (time : Option Float) :
    p.Escapes environment e ↔ q.Stuck environment (p.frameValues time) := by
  constructor
  · intro h
    cases h with
    | uncompiled h =>
        rw [hcompile] at h
        cases h
    | called hunresolved hfree hown =>
        refine ⟨hfault.trans hunresolved, fun n hn => ?_, ?_⟩
        · rw [hformula] at hn
          obtain ⟨hn, hargs⟩ := mem_free.mp hn
          rw [p.names_frameValues time]
          exact (hfree n hn).resolve_left hargs
        · rw [p.names_frameValues time]
          exact hown
  · intro h
    refine .called (hfault ▸ h.fault) (fun n hn => ?_) (p.names_frameValues time ▸ h.own)
    by_cases hargs : n ∈ ["x", "y"]
    · exact Or.inl hargs
    · rw [← p.names_frameValues time]
      exact Or.inr (h.free n (hformula ▸ mem_free.mpr ⟨hn, hargs⟩))

end Program

namespace Session

open Program

variable {p : Program} {environment : Assignment} {A : Algebra} {ev : Evaluator} {ws : List String}

theorem plotted_of_read {e : Expr} (hprepared : ev.prepared = [])
    (hread : ev.read p.surfaceExpr ["x", "y"] = .ok e) (warnings : List String)
    (time : Option Float) :
    plotted ⟨some p, some ev, warnings⟩ time = match e.compileFault? with
      | some f => .error f
      | none => .ok (Field.ofPrepared ⟨Formula.ofExpr p.surfaceExpr ["x", "y"] e,
          .ofFormula (Formula.ofExpr p.surfaceExpr ["x", "y"] e), e.callFault?⟩ ev.environment
            (p.frameValues time)).safe := by
  have hdistinct : Prepared.hasRepeated ["x", "y"] = false := by decide
  rw [plotted_eq, Evaluator.compile, hprepared, List.lookup_nil]
  dsimp only
  rw [hread]
  dsimp only
  rw [Prepared.ofExpr, hdistinct]
  cases hfault : e.compileFault? with
  | none => rfl
  | some f =>
      rcases compileFault?_cases hfault with rfl | rfl <;> rfl

/-- The potential of a program, at any time, has finite numbers at all
coordinates of one shape, unless its surface escapes; and then it has none
at any. -/
theorem plotted_finite_iff (henvironment : ∀ v ∈ environment, v.2.shape = [])
    (hev : Evaluator.ofOrder p.definitions p.order environment A = .ok (ev, ws))
    (warnings : List String) (time : Option Float) {x y : Samples} (hshape : x.shape = y.shape) :
    (∃ field s, plotted ⟨some p, some ev, warnings⟩ time = .ok field ∧ field x y = .ok s ∧
      s.Fills x.shape ∧ ∀ z ∈ s.data, z.isFinite = true) ↔
      ¬ ∃ e, ev.read p.surfaceExpr ["x", "y"] = .ok e ∧ p.Escapes environment e := by
  have hprepared : ev.prepared = [] := (Evaluator.sameCallables_of_bindAll hev).2
  have hkept : ev.environment = environment := Evaluator.environment_of_bindAll hev
  cases hread : ev.read p.surfaceExpr ["x", "y"] with
  | error f =>
      obtain ⟨s, hs⟩ := Field.zero_finite hshape
      refine iff_of_true ⟨Field.zero, s, ?_, hs⟩ (by rintro ⟨e, h, -⟩; cases h)
      rw [plotted_eq, Evaluator.compile, hprepared, List.lookup_nil]
      dsimp only
      rw [hread]
  | ok e =>
      rw [plotted_of_read hprepared hread, hkept]
      cases hcompile : e.compileFault? with
      | some f =>
          refine iff_of_false ?_ (not_not_intro ⟨e, rfl, .uncompiled hcompile⟩)
          rintro ⟨field, s, h, -⟩
          cases h
      | none =>
          dsimp only
          generalize hq : (⟨Formula.ofExpr p.surfaceExpr ["x", "y"] e,
            .ofFormula (Formula.ofExpr p.surfaceExpr ["x", "y"] e), e.callFault?⟩ : Prepared) = q
          have hformula : q.formula = Formula.ofExpr p.surfaceExpr ["x", "y"] e := hq ▸ rfl
          have hfault : q.fault = e.callFault? := hq ▸ rfl
          have hescapes := @escapes_iff_stuck p environment e q hcompile hformula hfault time
          by_cases hstuck : q.Stuck environment (p.frameValues time)
          · have hcall : Field.ofPrepared q environment (p.frameValues time) x y =
                .error .unresolvedName := hstuck.call (by rw [hformula]; rfl)
            refine iff_of_false ?_ (not_not_intro ⟨e, rfl, hescapes.mpr hstuck⟩)
            rintro ⟨field, s, hfield, hs, -⟩
            obtain rfl := Except.ok.inj hfield
            rw [Field.safe, hcall] at hs
            cases hs
          · have htame := Prepared.tame_of_not_stuck henvironment shape_of_mem_frameValues
              (fun f hf => Evaluator.callFault?_cases e (hfault ▸ hf)) hstuck
            obtain ⟨s, hs⟩ := htame.safe (show (0 : Float).isFinite = true by decide +kernel) hshape
            refine iff_of_true ⟨_, s, rfl, hs⟩ ?_
            rintro ⟨e', he', h⟩
            obtain rfl := Except.ok.inj he'
            exact hstuck (hescapes.mp h)

/-- A surface that is infinite at zero and no number below it, at a row of
points. -/
theorem plotted_finite_logarithm : ∃ p ev ws, ofSource "PLOT3D LOG(1/x)" = .ok p ∧
    p.evaluator = .ok (ev, ws) ∧ ∃ field s, plotted ⟨some p, some ev, ws⟩ none = .ok field ∧
      field ⟨[3], #[-1, 0, 1]⟩ ⟨[3], #[2, 2, 2]⟩ = .ok s ∧ s.Fills [3] ∧
        ∀ z ∈ s.data, z.isFinite = true := by
  have hread : ((ofSource "PLOT3D LOG(1/x)").toOption.bind fun p =>
      p.evaluator.toOption.map fun r => (r.1.read p.surfaceExpr ["x", "y"]).toOption.map
        fun e => (e.compileFault?.isNone, e.callFault?.isNone)) = some (some (true, true)) := by
    decide +kernel
  obtain ⟨p, hp, hread⟩ := Option.bind_eq_some_iff.mp hread
  obtain ⟨⟨ev, ws⟩, hev, hread⟩ := Option.map_eq_some_iff.mp hread
  obtain ⟨e, he, hfaults⟩ := Option.map_eq_some_iff.mp hread
  obtain ⟨hcompile, hcall⟩ := Prod.mk.inj hfaults
  have hfinite := plotted_finite_iff (List.forall_mem_nil _) (eq_ok_of_toOption hev) ws none
    (x := ⟨[3], #[-1, 0, 1]⟩) (y := ⟨[3], #[2, 2, 2]⟩) rfl
  refine ⟨p, ev, ws, eq_ok_of_toOption hp, eq_ok_of_toOption hev, hfinite.mpr ?_⟩
  rintro ⟨e', he', hescapes⟩
  obtain rfl := Except.ok.inj ((eq_ok_of_toOption he).symm.trans he')
  cases hescapes with
  | uncompiled h =>
      rw [h] at hcompile
      cases hcompile
  | called h =>
      rw [h] at hcall
      cases hcall

/-- A surface with a pole has no potential, and the potential of a surface
with a span of numbers has no heights. -/
theorem plotted_not_finite :
    (∃ p ev ws, ofSource "PLOT3D 1/0" = .ok p ∧ p.evaluator = .ok (ev, ws) ∧
      plotted ⟨some p, some ev, ws⟩ none = .error .pole) ∧
    ∃ p ev ws field, ofSource "PLOT3D SIN(ABS(1/0))" = .ok p ∧ p.evaluator = .ok (ev, ws) ∧
      plotted ⟨some p, some ev, ws⟩ none = .ok field ∧
        field (.scalar 0) (.scalar 1) = .error .unresolvedName := by
  constructor
  · have hpole : ((ofSource "PLOT3D 1/0").toOption.bind fun p => p.evaluator.toOption.map fun r =>
        match plotted ⟨some p, some r.1, r.2⟩ none with
        | .error .pole => true
        | _ => false) = some true := by decide +kernel
    obtain ⟨p, hp, hpole⟩ := Option.bind_eq_some_iff.mp hpole
    obtain ⟨⟨ev, ws⟩, hev, hpole⟩ := Option.map_eq_some_iff.mp hpole
    refine ⟨p, ev, ws, eq_ok_of_toOption hp, eq_ok_of_toOption hev, ?_⟩
    split at hpole
    · assumption
    · cases hpole
  · have hspan : ((ofSource "PLOT3D SIN(ABS(1/0))").toOption.bind fun p =>
        p.evaluator.toOption.bind fun r =>
          (plotted ⟨some p, some r.1, r.2⟩ none).toOption.map fun field =>
            match field (.scalar 0) (.scalar 1) with
            | .error .unresolvedName => true
            | _ => false) = some true := by decide +kernel
    obtain ⟨p, hp, hspan⟩ := Option.bind_eq_some_iff.mp hspan
    obtain ⟨⟨ev, ws⟩, hev, hspan⟩ := Option.bind_eq_some_iff.mp hspan
    obtain ⟨field, hfield, hspan⟩ := Option.map_eq_some_iff.mp hspan
    refine ⟨p, ev, ws, field, eq_ok_of_toOption hp, eq_ok_of_toOption hev,
      eq_ok_of_toOption hfield, ?_⟩
    split at hspan
    · assumption
    · cases hspan

end Session
end FieldScript
