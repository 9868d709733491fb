import FieldScript.Proofs.CallHistories
import FieldScript.Proofs.SourceFaults

/-!
# Line numbers

Statements, definitions and faults keep the number of a line, and that is
all they do with it. A `Renumbering` gives lines other numbers. Renumbered
logical lines are read as the same statements, renumbered; and renumbered
statements make the same program, renumbered, or are refused with the same
fault on the renumbered line (`Renumbering.agree_ofDraft`).

`Renumbering.Agree` compares two computations that differ in this way
only. It passes through binds, so that a reader is compared with itself
step by step.
-/

namespace FieldScript

namespace Evaluator

/-- Binding fails without a line. -/
theorem bare_of_bind {ev : Evaluator} {fn : NamedFunction} {f : Failure}
    (h : ev.bind fn = .error f) : Program.Bare f := by
  rintro n ⟨fault, text, rfl⟩
  rcases field_or_scalar fn with hfield | hscalar
  · rw [bind_field ev hfield] at h
    split at h
    · cases h
    · split at h <;> cases h
  · rw [bind_scalar ev hscalar] at h
    split at h
    · split at h <;> cases h
    · cases h

theorem bare_of_bindAll {ev : Evaluator} {order : List String} {f : Failure}
    (h : ev.bindAll order = .error f) : Program.Bare f := by
  induction order generalizing ev with
  | nil => cases h
  | cons n order ih =>
      rw [bindAll] at h
      split at h
      · rintro n ⟨fault, text, rfl⟩
        cases h
      · rcases bind_eq_error.mp h with h | ⟨_, -, h⟩
        · exact bare_of_bind h
        · rcases bind_eq_error.mp h with h | ⟨_, -, h⟩
          · exact ih h
          · cases h

end Evaluator

/-- Other numbers for the lines of a source, and how many lines it has
before and after. The number zero stands for no line. -/
structure Renumbering where
  line : Nat → Nat
  line_zero : line 0 = 0
  before : Nat
  after : Nat
  one_le_before : 1 ≤ before
  one_le_after : 1 ≤ after

namespace Renumbering

variable (r : Renumbering)

def logical (l : LogicalLine) : LogicalLine := { l with line := r.line l.line }

def statement (s : Statement) : Statement := { s with line := r.line s.line }

def function (f : NamedFunction) : NamedFunction := { f with line := r.line f.line }

def definitions (ds : Definitions) : Definitions := List.map r.function ds

def plot (q : Nat × Plot) : Nat × Plot := (r.line q.1, q.2)

def draft (d : Program.Draft) : Program.Draft :=
  { d with
    definitions := r.definitions d.definitions
    plots := d.plots.map r.plot
    animation := d.animation.map fun a => (r.line a.1, a.2) }

/-- Programs keep lines in their definitions only. -/
def program (p : Program) : Program := { p with definitions := r.definitions p.definitions }

/-- The same cause: a fault of a line is one of the renumbered line, the
fault of a source without plots is one of its last line, and other
failures are equal. -/
inductive SameCause : Failure → Failure → Prop
  | line {fault : StatementFault} (n : Nat) (text : Option String)
      (h : fault ≠ .nothingToRender) :
      SameCause (.statement n fault text) (.statement (r.line n) fault text)
  | nothing : SameCause (.statement r.before .nothingToRender none)
      (.statement r.after .nothingToRender none)
  | bare {f : Failure} (h : Program.Bare f) : SameCause f f

/-- The computations end with related values or with the same cause. -/
inductive Agree {α β : Type} (R : α → β → Prop) : Except Failure α → Except Failure β → Prop
  | value {a : α} {b : β} (h : R a b) : Agree R (.ok a) (.ok b)
  | failure {f g : Failure} (h : r.SameCause f g) : Agree R (.error f) (.error g)

variable {r}

section Agree

variable {α β γ δ : Type} {R : α → β → Prop} {l : LogicalLine} {fault : StatementFault}

theorem Agree.bind {a : Except Failure γ} {b : Except Failure δ} {S : γ → δ → Prop}
    {k : γ → Except Failure α} {k' : δ → Except Failure β} (h : r.Agree S a b)
    (hk : ∀ x y, S x y → r.Agree R (k x) (k' y)) : r.Agree R (a >>= k) (b >>= k') := by
  cases h with
  | value h => exact hk _ _ h
  | failure h => exact .failure h

/-- A step with equal values. -/
theorem Agree.step {a b : Except Failure γ} {k : γ → Except Failure α} {k' : γ → Except Failure β}
    (h : r.Agree Eq a b) (hk : ∀ x, r.Agree R (k x) (k' x)) : r.Agree R (a >>= k) (b >>= k') :=
  h.bind fun x _ hxy => hxy ▸ hk x

/-- A step with equal pairs. -/
theorem Agree.pair {a b : Except Failure (γ × δ)} {k : γ × δ → Except Failure α}
    {k' : γ × δ → Except Failure β} (h : r.Agree Eq a b)
    (hk : ∀ x y, r.Agree R (k (x, y)) (k' (x, y))) : r.Agree R (a >>= k) (b >>= k') :=
  h.step (Prod.rec hk)

theorem Agree.map {a b : Except Failure γ} {f : γ → α} {g : γ → β} (h : r.Agree Eq a b)
    (hfg : ∀ x, R (f x) (g x)) : r.Agree R (a.map f) (b.map g) := by
  cases h with
  | @value x _ h => exact .value (h ▸ hfg x)
  | failure h => exact .failure h

theorem agree_pure {a : α} {b : β} (h : R a b) : r.Agree R (pure a) (pure b) := .value h

theorem agree_fail (h : fault ≠ .nothingToRender) :
    r.Agree R (Statement.fail l fault) (Statement.fail (r.logical l) fault) :=
  .failure (.line _ _ h)

/-- A check that ends the reader when it fails. -/
theorem agree_unless {c : Prop} [Decidable c] {k : Unit → Except Failure α}
    {k' : Unit → Except Failure β} (h : fault ≠ .nothingToRender)
    (hk : r.Agree R (k ()) (k' ())) :
    r.Agree R (if c then Statement.fail l fault >>= k else k ())
      (if c then Statement.fail (r.logical l) fault >>= k' else k' ()) := by
  split
  · exact .failure (.line _ _ h)
  · exact hk

theorem agree_failAt {n : Nat} (h : fault ≠ .nothingToRender) :
    r.Agree R (Program.failAt n fault) (Program.failAt (r.line n) fault) :=
  .failure (.line _ _ h)

theorem agree_mapM {f : γ → Except Failure α} {g : δ → Except Failure β} {t : γ → δ} {u : α → β}
    (h : ∀ c, r.Agree (fun a b => u a = b) (f c) (g (t c))) (cs : List γ) :
    r.Agree (fun as bs => as.map u = bs) (cs.mapM f) ((cs.map t).mapM g) := by
  induction cs with
  | nil => exact .value rfl
  | cons c rest ih =>
      rw [List.mapM_cons, List.map_cons, List.mapM_cons]
      refine (h c).bind fun a b hab => ih.bind fun as bs has => agree_pure ?_
      rw [List.map_cons, hab, has]

/-- Loops of checks. -/
theorem agree_forIn {f : γ → Except Failure Unit} {g : δ → Except Failure Unit} {t : γ → δ}
    (h : ∀ c, r.Agree Eq (f c) (g (t c))) (cs : List γ) :
    r.Agree Eq
      (forIn cs PUnit.unit fun c _ => do
        f c
        pure (ForInStep.yield PUnit.unit))
      (forIn (cs.map t) PUnit.unit fun c _ => do
        g c
        pure (ForInStep.yield PUnit.unit)) := by
  induction cs with
  | nil => exact .value rfl
  | cons c rest ih =>
      rw [List.forIn_cons, List.map_cons, List.forIn_cons]
      exact ((h c).step fun _ => agree_pure rfl).step fun s => by
        cases s with
        | done => exact agree_pure rfl
        | yield => exact ih

end Agree

/-! ## The readers -/

section Readers

open Statement

variable {l : LogicalLine}

theorem agree_expect (kind : Kind) (wanted : String) (ts : List Token) :
    r.Agree Eq (expect l kind wanted ts) (expect (r.logical l) kind wanted ts) := by
  cases ts with
  | nil => exact agree_fail (by simp)
  | cons t rest =>
      rw [expect, expect]
      split
      · exact .value rfl
      · exact agree_fail (by simp)

theorem agree_expectWord (words : List String) (ts : List Token) :
    r.Agree Eq (expectWord l words ts) (expectWord (r.logical l) words ts) := by
  cases ts with
  | nil => exact agree_fail (by simp)
  | cons t rest =>
      rw [expectWord, expectWord]
      split
      · exact .value rfl
      · exact agree_fail (by simp)

theorem agree_expectEnd (ts : List Token) :
    r.Agree Eq (expectEnd l ts) (expectEnd (r.logical l) ts) := by
  cases ts with
  | nil => exact .value rfl
  | cons t rest => exact agree_fail (by simp)

theorem agree_number (context : String) (ts : List Token) :
    r.Agree Eq (number l context ts) (number (r.logical l) context ts) := by
  unfold number
  dsimp only
  split
  · split
    · exact .value rfl
    · exact agree_fail (by simp)
  · exact agree_fail (by simp)

/-- What is no count is no fault of a line. -/
theorem agree_wholeNumber (ts : List Token) : r.Agree Eq (wholeNumber ts) (wholeNumber ts) := by
  cases h : wholeNumber ts with
  | ok n? => exact .value rfl
  | error f =>
      obtain ⟨rfl, -⟩ := wholeNumber_error_iff.mp h
      exact .failure (.bare (by rintro n ⟨_, _, h⟩; cases h))

theorem agree_readRange (ts : List Token) :
    r.Agree Eq (readRange l ts) (readRange (r.logical l) ts) := by
  unfold readRange
  refine (agree_expectWord _ ts).step fun rest => ?_
  refine (agree_expectWord _ rest).step fun rest => ?_
  refine (agree_expect _ _ rest).pair fun name _ => ?_
  dsimp only
  split
  case h_4 => exact .failure (.line _ _ (by simp))
  -- Whatever the axis, the bounds are read in the same way.
  all_goals
    refine Agree.step (agree_pure rfl) fun axis => ?_
    split
    · exact agree_fail (by simp)
    · refine (agree_number _ _).step fun low => ?_
      refine (agree_number _ _).step fun high => ?_
      exact agree_unless (by simp) (agree_pure rfl)

theorem agree_readColorMap (ts : List Token) :
    r.Agree Eq (readColorMap l ts) (readColorMap (r.logical l) ts) := by
  unfold readColorMap
  refine (agree_expectWord _ ts).step fun rest => ?_
  refine (agree_expectWord _ rest).step fun rest => ?_
  refine (agree_expect _ _ rest).pair fun token rest => ?_
  refine (agree_expectEnd _).step fun _ => ?_
  exact agree_unless (by simp) (agree_pure rfl)

theorem agree_readParticles (ts : List Token) :
    r.Agree Eq (readParticles l ts) (readParticles (r.logical l) ts) := by
  unfold readParticles
  refine (agree_expectWord _ ts).step fun rest => ?_
  refine (agree_wholeNumber rest).step fun n? => ?_
  cases n? with
  | none => exact agree_fail (by simp)
  | some n => exact agree_unless (by simp) (agree_unless (by simp) (agree_pure rfl))

theorem agree_readContour (ts : List Token) :
    r.Agree Eq (readContour l ts) (readContour (r.logical l) ts) := by
  unfold readContour
  refine (agree_expectWord _ ts).step fun rest => ?_
  refine (agree_expectWord _ rest).step fun rest => ?_
  refine agree_unless (by simp) ?_
  have hlevels : ∀ groups : List (List Token), r.Agree Eq
      (groups.mapM (number l "CONTOUR LEVELS"))
      (groups.mapM (number (r.logical l) "CONTOUR LEVELS")) := by
    intro groups
    have hmap := agree_mapM (t := id) (u := id) (agree_number (r := r) (l := l) "CONTOUR LEVELS") groups
    simpa only [List.map_id_fun, id] using hmap
  exact (hlevels _).step fun _ => agree_pure rfl

theorem agree_readLabel (ts : List Token) :
    r.Agree Eq (readLabel l ts) (readLabel (r.logical l) ts) := by
  unfold readLabel
  refine (agree_expectWord _ _).step fun _ => ?_
  split
  · exact agree_fail (by simp)
  · refine agree_unless (by simp) ?_
    split
    · exact agree_unless (by simp) (agree_pure rfl)
    · exact agree_fail (by simp)

theorem agree_readParams (fuel : Nat) (ts : List Token) :
    r.Agree Eq (readParams l fuel ts) (readParams (r.logical l) fuel ts) := by
  induction fuel generalizing ts with
  | zero => exact .value rfl
  | succ n ih =>
      rw [readParams, readParams]
      refine (agree_expect _ _ ts).pair fun p rest => ?_
      dsimp only
      split
      · split
        · exact (ih _).step fun _ => agree_pure rfl
        · split
          · exact agree_pure rfl
          · exact agree_fail (by simp)
      · exact agree_fail (by simp)

theorem agree_readParamList (ts : List Token) :
    r.Agree Eq (readParamList l ts) (readParamList (r.logical l) ts) := by
  have hmap : ∀ fuel rest, r.Agree Eq ((readParams l fuel rest).map fun p => (some p.1, p.2))
      ((readParams (r.logical l) fuel rest).map fun p => (some p.1, p.2)) :=
    fun fuel rest => (agree_readParams fuel rest).map fun _ => rfl
  unfold readParamList
  split
  · split
    · split
      · split
        · exact .value rfl
        · exact hmap _ _
      · exact hmap _ _
    · exact .value rfl
  · exact .value rfl

theorem agree_checkVectorBody (ts : List Token) :
    r.Agree Eq (checkVectorBody l ts) (checkVectorBody (r.logical l) ts) := by
  unfold checkVectorBody
  refine agree_unless (by simp) (agree_unless (by simp) ?_)
  split
  · exact agree_fail (by simp)
  · exact agree_pure rfl

theorem agree_checkTensorBody (ts : List Token) :
    r.Agree Eq (checkTensorBody l ts) (checkTensorBody (r.logical l) ts) := by
  unfold checkTensorBody
  refine agree_unless (by simp) (agree_unless (by simp) ?_)
  refine Agree.step ?_ fun _ => agree_pure rfl
  generalize splitTopLevel (inner ts) = rows
  induction rows with
  | nil => exact agree_pure rfl
  | cons row rest ih =>
      rw [List.forIn_cons, List.forIn_cons]
      dsimp only
      split
      · exact .failure (.line _ _ (by simp))
      · exact ih

theorem agree_readDefinition (ts : List Token) :
    r.Agree Eq (readDefinition l ts) (readDefinition (r.logical l) ts) := by
  unfold readDefinition
  refine (agree_expectWord _ ts).step fun rest => ?_
  refine (agree_expect _ _ rest).pair fun token rest => ?_
  refine (agree_readParamList _).pair fun params? rest => ?_
  dsimp only
  split
  · exact .failure (.line _ _ (by simp))
  · refine (agree_expect _ _ _).pair fun _ bodyTokens => ?_
    dsimp only
    split
    -- With parameters and without, the body is checked in the same way.
    all_goals
      refine agree_unless (by simp) (agree_unless (by simp) ?_)
      split
      · exact (agree_checkVectorBody _).step fun _ => agree_pure rfl
      · split
        · exact (agree_checkTensorBody _).step fun _ => agree_pure rfl
        · exact agree_unless (by simp) (agree_pure rfl)

theorem agree_readSurface (ts : List Token) :
    r.Agree Eq (readSurface l ts) (readSurface (r.logical l) ts) := by
  unfold readSurface
  refine (agree_expectWord _ ts).step fun rest => ?_
  exact agree_unless (by simp) (agree_pure rfl)

theorem agree_readVectorField (ts : List Token) :
    r.Agree Eq (readVectorField l ts) (readVectorField (r.logical l) ts) := by
  unfold readVectorField
  refine (agree_expectWord _ ts).step fun rest => ?_
  refine (agree_expect _ _ rest).pair fun name rest => ?_
  refine agree_unless (by simp) ?_
  cases rest with
  | nil => exact agree_pure rfl
  | cons g more =>
      dsimp only
      split
      · refine (agree_wholeNumber more).step fun n? => ?_
        cases n? with
        | none => exact agree_fail (by simp)
        | some n => exact agree_unless (by simp) (agree_pure rfl)
      · exact agree_fail (by simp)

theorem agree_readTensorField (ts : List Token) :
    r.Agree Eq (readTensorField l ts) (readTensorField (r.logical l) ts) := by
  unfold readTensorField
  refine (agree_expectWord _ ts).step fun rest => ?_
  refine (agree_expect _ _ rest).pair fun token rest => ?_
  refine agree_unless (by simp) ?_
  refine (agree_expectWord _ _).step fun rest => ?_
  refine (agree_expectWord _ rest).step fun rest => ?_
  refine (agree_expect _ _ rest).pair fun quoted rest => ?_
  refine (agree_expectEnd _).step fun _ => ?_
  exact agree_unless (by simp) (agree_pure rfl)

theorem agree_readAnimation (ts : List Token) :
    r.Agree Eq (readAnimation l ts) (readAnimation (r.logical l) ts) := by
  unfold readAnimation
  refine (agree_expectWord _ ts).step fun rest => ?_
  refine (agree_expect _ _ rest).pair fun parameter _ => ?_
  dsimp only
  split
  · exact agree_unless (by simp) (agree_pure rfl)
  · exact agree_fail (by simp)

/-- A renumbered line is read as the renumbered statement. -/
theorem agree_parse (l : LogicalLine) :
    r.Agree (fun s t => r.statement s = t) (parse l) (parse (r.logical l)) := by
  have hmap : ∀ {a b}, r.Agree Eq a b →
      r.Agree (fun s t => r.statement s = t) (a.map (⟨l.line, ·⟩)) (b.map (⟨r.line l.line, ·⟩)) :=
    fun h => h.map fun _ => rfl
  unfold parse
  dsimp only [logical]
  split
  · rename_i read hread
    obtain ⟨t, -, hread⟩ := Option.bind_eq_some_iff.mp hread
    split at hread
    · refine hmap ?_
      unfold reader? at hread
      split at hread <;> cases hread
      · exact agree_readRange _
      · exact agree_readColorMap _
      · exact agree_readParticles _
      · exact agree_readContour _
      · exact agree_readLabel _
      · exact agree_readDefinition _
      · exact agree_readSurface _
      · exact agree_readVectorField _
      · exact agree_readTensorField _
      · exact agree_readAnimation _
    · cases hread
  · exact agree_fail (by simp)

end Readers

/-! ## Definitions -/

section Definitions

variable {ds : Definitions} (f : NamedFunction)

@[simp]
theorem function_name : (r.function f).name = f.name := rfl

@[simp]
theorem function_params : (r.function f).params = f.params := rfl

@[simp]
theorem function_body : (r.function f).body = f.body := rfl

theorem get?_definitions (n : String) :
    (r.definitions ds).get? n = (ds.get? n).map r.function :=
  List.find?_map

theorem contains_definitions (n : String) : (r.definitions ds).contains n = ds.contains n :=
  List.any_map

theorem names_definitions : (r.definitions ds).names = ds.names := List.map_map

/-- The lines have no part in the order. -/
theorem order_definitions : (r.definitions ds).order = ds.order := by
  have huses : ∀ f, (r.definitions ds).uses (r.function f) = ds.uses f := by
    intro f
    unfold Definitions.uses
    simp only [contains_definitions]
    rfl
  have hdependencies : (r.definitions ds).dependencies = ds.dependencies := by
    unfold Definitions.dependencies
    conv_lhs => rw [definitions, List.map_map]
    exact List.map_congr_left fun f _ => congrArg (Prod.mk f.name) (huses f)
  rw [Definitions.order, hdependencies, names_definitions, definitions, List.length_map]
  rfl

theorem agree_orderOf :
    r.Agree Eq (Program.orderOf ds) (Program.orderOf (r.definitions ds)) := by
  rw [Program.orderOf, Program.orderOf, order_definitions]
  cases horder : ds.order with
  | ok order => exact .value rfl
  | error f =>
      obtain ⟨n, cycle, rfl, hn⟩ := Definitions.order_error horder
      obtain ⟨g, -, hget⟩ := Definitions.get?_of_mem_names hn
      dsimp only
      rw [List.head?_cons, Option.bind_some, Option.bind_some, get?_definitions, hget]
      exact agree_failAt (by simp)

theorem agree_checkPlot (n : Nat) (q : Plot) :
    r.Agree Eq (Program.checkPlot ds n q)
      (Program.checkPlot (r.definitions ds) (r.line n) q) := by
  cases q with
  | surface => exact .value rfl
  | vectorField | tensorField =>
      rw [Program.checkPlot, Program.checkPlot, get?_definitions, Option.any_map]
      split
      · rename_i hkind
        exact (if_pos hkind) ▸ .value rfl
      · rename_i hkind
        exact (if_neg hkind) ▸ agree_failAt (by simp)

theorem resolvePlot_definitions (q : Plot) :
    Program.resolvePlot (r.definitions ds) q = Program.resolvePlot ds q := by
  have hinlined : ∀ source, Program.inlined (r.definitions ds) source = Program.inlined ds source := by
    intro source
    unfold Program.inlined
    split
    · split
      · rw [get?_definitions]
        cases ds.get? _ <;> rfl
      · rfl
    · rfl
  cases q with
  | surface => simp only [Program.resolvePlot, hinlined]
  | vectorField | tensorField => rfl

end Definitions

/-! ## Evaluators -/

section Evaluators

variable {ds : Definitions} {ev : Evaluator}

/-- The evaluator of the renumbered definitions. -/
def evaluator (r : Renumbering) (ev : Evaluator) : Evaluator :=
  { ev with definitions := r.definitions ev.definitions }

theorem readKept_evaluator (text : String) (params : List String) :
    (r.evaluator ev).readKept text params =
      ((ev.readKept text params).1, r.evaluator (ev.readKept text params).2) := by
  have hread : (r.evaluator ev).read text params = ev.read text params := rfl
  rw [Evaluator.readKept, Evaluator.readKept, hread]
  cases ev.read text params <;> rfl

theorem readAll_evaluator (params texts : List String) :
    (r.evaluator ev).readAll params texts =
      ((ev.readAll params texts).1, r.evaluator (ev.readAll params texts).2) := by
  induction texts generalizing ev with
  | nil => rfl
  | cons text texts ih =>
      rw [Evaluator.readAll, Evaluator.readAll, readKept_evaluator]
      obtain ⟨result, ev₁⟩ := ev.readKept text params
      cases result with
      | error f => rfl
      | ok e =>
          dsimp only
          rw [ih]
          obtain ⟨results, ev₂⟩ := ev₁.readAll params texts
          cases results <;> rfl

theorem bind_evaluator (fn : NamedFunction) :
    (r.evaluator ev).bind (r.function fn) =
      (ev.bind fn).map fun p => (r.evaluator p.1, p.2) := by
  have hkind : (r.function fn).kind = fn.kind := rfl
  rcases Evaluator.field_or_scalar fn with hfield | hscalar
  · rw [Evaluator.bind_field ev hfield, Evaluator.bind_field _ (hkind ▸ hfield)]
    rw [function_body]
    cases splitComponents? fn.body.toList with
    | none => rfl
    | some texts =>
        dsimp only
        rw [function_params, readAll_evaluator]
        obtain ⟨results, ev₁⟩ := ev.readAll fn.params texts
        cases results <;> rfl
  · rw [Evaluator.bind_scalar ev hscalar, Evaluator.bind_scalar _ (hkind ▸ hscalar)]
    rw [function_params, function_body, function_name, readKept_evaluator]
    obtain ⟨result, ev₁⟩ := ev.readKept fn.body fn.params
    cases result with
    | error f => rfl
    | ok e =>
        dsimp only
        split <;> rfl

theorem bindAll_evaluator (order : List String) :
    (r.evaluator ev).bindAll order =
      (ev.bindAll order).map fun p => (r.evaluator p.1, p.2) := by
  induction order generalizing ev with
  | nil => rfl
  | cons n order ih =>
      have hget : (r.evaluator ev).definitions.get? n = (ev.definitions.get? n).map r.function :=
        get?_definitions n
      rw [Evaluator.bindAll, Evaluator.bindAll, hget]
      cases ev.definitions.get? n with
      | none => rfl
      | some fn =>
          dsimp only [Option.map_some]
          rw [bind_evaluator]
          cases ev.bind fn with
          | error f => rfl
          | ok p =>
              show (r.evaluator p.1).bindAll order >>= _ = Except.map _ (p.1.bindAll order >>= _)
              rw [ih]
              cases p.1.bindAll order <;> rfl

theorem ofOrder_definitions (order : List String) :
    Evaluator.ofOrder (r.definitions ds) order =
      (Evaluator.ofOrder ds order).map fun p => (r.evaluator p.1, p.2) :=
  @bindAll_evaluator r ⟨ds, order, [], [], [], [], [], [], .standard⟩ order

end Evaluators

/-! ## Programs -/

section Programs

open Program

variable {ds : Definitions} {order : List String}

theorem agree_constantValue (n : Nat) (text : String) :
    r.Agree Eq (constantValue ds order n text)
      (constantValue (r.definitions ds) order (r.line n) text) := by
  have hfinite : ∀ x, r.Agree Eq (finiteValue n text x) (finiteValue (r.line n) text x) := by
    intro x
    unfold finiteValue
    split
    · exact agree_pure rfl
    · exact agree_failAt (by simp)
  cases hread : readFloat? text with
  | some x =>
      rw [constantValue_of_numeral hread, constantValue_of_numeral hread]
      exact hfinite x
  | none =>
      cases hev : Evaluator.ofOrder ds order with
      | error f =>
          have hev' : Evaluator.ofOrder (r.definitions ds) order = .error f := by
            rw [ofOrder_definitions, hev]
            rfl
          rw [constantValue_of_unbound hread hev, constantValue_of_unbound hread hev']
          exact .failure (.bare (Evaluator.bare_of_bindAll hev))
      | ok p =>
          have hev' : Evaluator.ofOrder (r.definitions ds) order = .ok (r.evaluator p.1, p.2) := by
            rw [ofOrder_definitions, hev]
            rfl
          have hprepared : p.1.prepared = [] := (Evaluator.sameCallables_of_bindAll hev).2
          have heval : (r.evaluator p.1).evaluate text [] = p.1.evaluate text [] := rfl
          rw [constantValue_of_evaluator hread hev, constantValue_of_evaluator hread hev', heval]
          cases hvalue : p.1.evaluate text [] with
          | ok s => exact hfinite s.first
          | error f =>
              dsimp only
              split
              · exact agree_failAt (by simp)
              · exact .failure (.bare
                  (bare_of_isConstantFailure (Evaluator.evaluate_error hprepared hvalue)))

theorem agree_animationOf (a : Nat × String × String × String × String) :
    r.Agree Eq (animationOf ds order a)
      (animationOf (r.definitions ds) order (r.line a.1, a.2)) := by
  obtain ⟨n, parameter, start, stop, step⟩ := a
  unfold animationOf
  dsimp only
  refine (agree_constantValue n start).step fun start => ?_
  refine (agree_constantValue n stop).step fun stop => ?_
  refine (agree_constantValue n step).step fun step => ?_
  split
  · exact agree_failAt (by simp)
  · exact agree_pure rfl

theorem agree_withSurface (plots : List Plot) :
    r.Agree Eq (withSurface r.before plots) (withSurface r.after plots) := by
  unfold withSurface
  split
  · exact .value rfl
  · split
    · rw [Nat.max_eq_right r.one_le_before, Nat.max_eq_right r.one_le_after]
      exact .failure .nothing
    · exact .value rfl

/-- A renumbered draft is completed to the renumbered program. -/
theorem agree_ofDraft (d : Draft) :
    r.Agree (fun p q => r.program p = q) (ofDraft r.before d) (ofDraft r.after (r.draft d)) := by
  have hresolve : (d.plots.map r.plot).map (fun q => resolvePlot (r.definitions d.definitions) q.2) =
      d.plots.map fun q => resolvePlot d.definitions q.2 := by
    rw [List.map_map]
    exact List.map_congr_left fun q _ => resolvePlot_definitions q.2
  unfold ofDraft
  refine agree_orderOf.step fun order => ?_
  refine (agree_forIn (fun q : Nat × Plot => agree_checkPlot q.1 q.2) d.plots).step fun _ => ?_
  dsimp only [draft]
  rw [hresolve]
  refine (agree_withSurface _).step fun plots => ?_
  cases d.animation with
  | none => exact agree_pure rfl
  | some a => exact (agree_animationOf a).step fun _ => agree_pure rfl

theorem agree_once {α : Type} (n : Nat) (what : String) (old : Option α) (new : α) :
    r.Agree Eq (once n what old new) (once (r.line n) what old new) := by
  cases old with
  | none => exact .value rfl
  | some _ => exact agree_failAt (by simp)

/-- A draft takes a renumbered statement as it takes the statement. -/
theorem agree_add (d : Draft) (s : Statement) :
    r.Agree (fun d d' => r.draft d = d') (d.add s) ((r.draft d).add (r.statement s)) := by
  obtain ⟨n, body⟩ := s
  cases body with
  | range axis low high =>
      show r.Agree _ (d.addRange axis low high) ((r.draft d).addRange axis low high)
      rw [Draft.addRange, Draft.addRange, Interval.ofBounds]
      split
      · cases axis <;> exact agree_pure rfl
      · exact .failure (.bare (by rintro n ⟨_, _, h⟩; cases h))
  | colorMap | particles | contour => exact (agree_once n _ _ _).step fun _ => agree_pure rfl
  | animate p a b c =>
      show r.Agree _ (once n "ANIMATE" d.animation (n, p, a, b, c) >>= _)
        (once (r.line n) "ANIMATE" (d.animation.map _) (r.line n, p, a, b, c) >>= _)
      cases d.animation with
      | none => exact agree_pure rfl
      | some _ => exact agree_failAt (by simp)
  | label text position => exact agree_pure rfl
  | define name params body =>
      show r.Agree _ (if d.definitions.contains name then _ else _)
        (if (r.definitions d.definitions).contains name then _ else _)
      rw [contains_definitions]
      split
      · exact agree_failAt (by simp)
      · refine agree_pure ?_
        simp only [draft, definitions, List.map_append, List.map_cons, List.map_nil]
        rfl
  | surface | vectorField | tensorField =>
      refine agree_pure ?_
      simp only [draft, List.map_append, List.map_cons, List.map_nil]
      rfl

theorem agree_foldlM_add (d : Draft) (ss : List Statement) :
    r.Agree (fun d d' => r.draft d = d') (ss.foldlM Draft.add d)
      ((ss.map r.statement).foldlM Draft.add (r.draft d)) := by
  induction ss generalizing d with
  | nil => exact .value rfl
  | cons s rest ih =>
      rw [List.foldlM_cons, List.map_cons, List.foldlM_cons]
      refine (agree_add d s).bind fun d₁ d₁' h => ?_
      exact h ▸ ih d₁

/-- Renumbered lines make the renumbered program, or are refused for the
same cause. -/
theorem agree_lines (ls : List LogicalLine) :
    r.Agree (fun p q => r.program p = q)
      (ls.mapM Statement.parse >>= ofStatements r.before)
      ((ls.map r.logical).mapM Statement.parse >>= ofStatements r.after) := by
  refine (agree_mapM agree_parse ls).bind fun ss ss' h => ?_
  subst h
  unfold ofStatements
  refine (agree_foldlM_add {} ss).bind fun d d' h => ?_
  subst h
  exact agree_ofDraft d

end Programs

end Renumbering
end FieldScript
