import FieldScript.Proofs.CallHistories
import FieldScript.Session.View

/-!
# Frames are apart from each other

The potential of a frame is called later, and reads the variables that the
evaluator has then. The parameter of the animation is bound in the frame
itself, and what is bound there counts before a variable. So a frame is a
function of the other variables (`Frame.field_congr`), and an operation
that sets and unsets the parameter alone leaves those as they are
(`agree_after`): whatever is asked of a session in the meantime, a frame
shows what it showed when it was made.
-/

namespace FieldScript

namespace Assignment

/-- The assignments agree on every name but this one. -/
def AgreeBeside (name : String) (a b : Assignment) : Prop := ∀ n, n ≠ name → b.lookup n = a.lookup n

variable {name : String} {a b c : Assignment}

theorem AgreeBeside.refl (name : String) (a : Assignment) : AgreeBeside name a a := fun _ _ => rfl

theorem AgreeBeside.trans (h : AgreeBeside name a b) (h' : AgreeBeside name b c) :
    AgreeBeside name a c := fun n hn => (h' n hn).trans (h n hn)

theorem agreeBeside_insert (name : String) (a : Assignment) (v : Samples) :
    AgreeBeside name a (a.insert name v) := by
  intro n hn
  have hmap : ∀ a : Assignment,
      List.lookup n (List.map (fun p => if p.1 == name then (name, v) else p) a) = a.lookup n := by
    intro a
    induction a with
    | nil => rfl
    | cons p a ih =>
        rw [List.map_cons, List.lookup_cons, List.lookup_cons, ih]
        by_cases hp : p.1 = name
        · have hother : (n == p.1) = false := beq_eq_false_iff_ne.mpr (hp ▸ hn)
          rw [if_pos (beq_iff_eq.mpr hp), hother, beq_eq_false_iff_ne.mpr hn]
        · rw [if_neg (by simpa using hp)]
  rw [insert]
  split
  · exact hmap a
  · induction a with
    | nil => rw [List.nil_append, List.lookup_cons, beq_eq_false_iff_ne.mpr hn]
    | cons p a ih => rw [List.cons_append, List.lookup_cons, List.lookup_cons, ih (by simp_all)]

theorem agreeBeside_erase (name : String) (a : Assignment) : AgreeBeside name a (a.erase name) := by
  intro n hn
  induction a with
  | nil => rfl
  | cons p a ih =>
      rw [erase] at ih ⊢
      by_cases hp : p.1 = name
      · have hother : (n == p.1) = false := beq_eq_false_iff_ne.mpr (hp ▸ hn)
        rw [List.filter_cons_of_neg (by simp [hp]), ih, List.lookup_cons, hother]
      · rw [List.filter_cons_of_pos (by simpa using hp), List.lookup_cons, List.lookup_cons, ih]

end Assignment

open Assignment (AgreeBeside)

/-- A call reads no variable that is bound for the call. -/
theorem Prepared.call_congr {name : String} {a b overrides : Assignment}
    (h : AgreeBeside name a b) (hbound : (overrides.lookup name).isSome) (p : Prepared)
    (values : List Samples) : p.call b values overrides = p.call a values overrides := by
  have hfind : (fun n => (overrides.lookup n).or (b.lookup n)) =
      fun n => (overrides.lookup n).or (a.lookup n) := by
    funext n
    by_cases hn : n = name
    · obtain ⟨v, hv⟩ := Option.isSome_iff_exists.mp hbound
      rw [hn, hv]
      rfl
    · rw [h n hn]
  rw [call, call, hfind]

namespace Evaluator

theorem function_environment (ev : Evaluator) (name : String) :
    (ev.function name).2.environment = ev.environment := by
  rw [function]
  split
  · rfl
  · split
    · rfl
    · exact keep_environment _ _ _

theorem componentCallables_environment (ev : Evaluator) (fn : NamedFunction) (index : Nat)
    (es : List Expr) : (ev.componentCallables fn index es).2.environment = ev.environment := by
  induction es generalizing ev index with
  | nil => rfl
  | cons e es ih =>
      have hkept := keep_environment ev (keyOf (fn.name ++ "[" ++ toString index ++ "]") fn.params)
        (Prepared.ofExpr (fn.name ++ "[" ++ toString index ++ "]") fn.params e)
      rw [componentCallables]
      split <;> rename_i heq <;> rw [heq] at hkept
      · exact hkept
      · have hrest := (ih _ (index + 1)).trans hkept
        split <;> rename_i heq' <;> rw [heq'] at hrest <;> exact hrest

theorem componentFunction_environment (ev : Evaluator) (name : String) (kind : DefinitionKind) :
    (ev.componentFunction name kind).2.environment = ev.environment := by
  rw [componentFunction]
  split
  · rfl
  · split
    · rfl
    · exact componentCallables_environment _ _ _ _

end Evaluator

namespace Session

/-- What a session with a program is asked while frames are in use. -/
inductive Operation where
  | potential (time : Option Float)
  | labels (time : Option Float)
  | request (r : Request)

namespace Operation

def perform : Operation → Action Unit
  | potential time => discard (frame time)
  | labels time => discard (Session.labels time)
  | request r => do keepEvaluator ((← currentEvaluator).serve r)

/-- The only variable that is set or unset is this one. -/
def SetsOnly (name : String) : Operation → Prop
  | request (.set n _) | request (.unset n) => n = name
  | _ => True

end Operation

/-- The session after an operation, whatever the answer was. -/
def after (s : Session) (op : Operation) : Session := (op.perform.run.run s).2

def afterAll (s : Session) (ops : List Operation) : Session := ops.foldl after s

/-- The variables of the evaluator. -/
def assignment (s : Session) : Assignment := (s.evaluator.map Evaluator.environment).getD []

variable {s s' : Session} {name : String}

/-- The session after a frame has the callable of the surface, and a
warning if there is none. -/
theorem run_frame (p : Program) (ev : Evaluator) (ws : List String) (time : Option Float) :
    (frame time).run.run ⟨some p, some ev, ws⟩ =
      let ev' := (ev.compileKept p.surfaceExpr ["x", "y"]).2
      match (ev.compileKept p.surfaceExpr ["x", "y"]).1 with
      | .ok f => (.ok ⟨some f, p.frameValues time⟩, ⟨some p, some ev', ws⟩)
      | .error (.expression e) => (.ok ⟨none, []⟩, ⟨some p, some ev', ws ++
          ["Surface expression '" ++ p.surfaceExpr ++ "' is not evaluable: " ++ e.message]⟩)
      | .error f => (.error f, ⟨some p, some ev', ws⟩) := by
  have hrun : (frame time).run.run ⟨some p, some ev, ws⟩ =
      (match (ev.compileKept p.surfaceExpr ["x", "y"]).1 with
      | .ok f => return ⟨some f, p.frameValues time⟩
      | .error (.expression e) => do
        warn ("Surface expression '" ++ p.surfaceExpr ++ "' is not evaluable: " ++ e.message)
        return ⟨none, []⟩
      | .error f => throw f : Action Frame).run.run
        ⟨some p, some (ev.compileKept p.surfaceExpr ["x", "y"]).2, ws⟩ := rfl
  rw [hrun]
  cases (ev.compileKept p.surfaceExpr ["x", "y"]).1 with
  | ok f => rfl
  | error f => cases f <;> rfl

/-- Making a frame sets no variable. -/
theorem assignment_frame (s : Session) (time : Option Float) :
    ((frame time).run.run s).2.assignment = s.assignment := by
  obtain ⟨program, evaluator, ws⟩ := s
  cases program with
  | none => rfl
  | some p =>
      cases evaluator with
      | none => rfl
      | some ev =>
          have hkept := Evaluator.compileKept_environment ev p.surfaceExpr ["x", "y"]
          rw [run_frame]
          dsimp only
          split <;> exact hkept

/-- An action goes on from the session that the one before it left. -/
theorem run_bind {β γ : Type} (x : Action β) (f : β → Action γ) (s : Session) :
    (x >>= f).run.run s = match x.run.run s with
      | (.ok b, s') => (f b).run.run s'
      | (.error e, s') => (.error e, s') := by
  have hbind : (x >>= f).run.run s = (ExceptT.bindCont f (x.run.run s).1).run (x.run.run s).2 := rfl
  rw [hbind]
  rcases x.run.run s with ⟨b | e, s'⟩ <;> rfl

/-- Actions that leave the session as it is do so one after the other. -/
theorem run_mapM_of_silent {β γ : Type} {f : β → Action γ}
    (h : ∀ b s, ((f b).run.run s).2 = s) (bs : List β) (s : Session) :
    ((bs.mapM f).run.run s).2 = s := by
  induction bs generalizing s with
  | nil => rfl
  | cons b bs ih =>
      rw [List.mapM_cons, run_bind]
      cases hb : (f b).run.run s with
      | mk r s' =>
          obtain rfl : s' = s := (congrArg Prod.snd hb).symm.trans (h b s)
          cases r with
          | error e => rfl
          | ok c =>
              dsimp only
              rw [run_bind]
              cases hbs : (bs.mapM f).run.run s' with
              | mk r s'' =>
                  obtain rfl : s'' = s' := (congrArg Prod.snd hbs).symm.trans (ih s')
                  cases r <;> rfl

/-- Labels are evaluated apart from the session. -/
theorem run_labels (s : Session) (time : Option Float) : ((labels time).run.run s).2 = s := by
  obtain ⟨program, evaluator, ws⟩ := s
  cases program with
  | none => rfl
  | some p =>
      refine run_mapM_of_silent (fun l s => ?_) p.labels ⟨some p, evaluator, ws⟩
      obtain ⟨program, evaluator, ws⟩ := s
      cases evaluator <;> rfl

/-- Discarding the result of an action leaves the same session. -/
theorem run_discard {β : Type} (x : Action β) (s : Session) :
    ((discard x).run.run s).2 = (x.run.run s).2 := by
  have hdiscard : discard x = x >>= fun _ => pure () := by
    rw [bind_pure_comp]
    rfl
  rw [hdiscard, run_bind]
  rcases x.run.run s with ⟨e | b, s'⟩ <;> rfl

end Session

/-! ## What an operation leaves behind -/

theorem Evaluator.agree_serve {name : String} (ev : Evaluator) {r : Request}
    (h : Session.Operation.SetsOnly name (.request r)) :
    AgreeBeside name ev.environment (ev.serve r).environment := by
  have hsame : ∀ {e : Assignment}, e = ev.environment → AgreeBeside name ev.environment e := by
    rintro _ rfl
    exact .refl name _
  cases r with
  | compile text args => exact hsame (compileKept_environment ev text args)
  | evaluate text values => exact hsame (evaluateKept_environment ev text values)
  | function n => exact hsame (function_environment ev n)
  | vectorFunction n | tensorFunction n => exact hsame (componentFunction_environment ev n _)
  | set n v =>
      obtain rfl : n = name := h
      exact Assignment.agreeBeside_insert n _ _
  | unset n =>
      obtain rfl : n = name := h
      exact Assignment.agreeBeside_erase n _

namespace Session

variable {s : Session} {name : String}

theorem agree_after {op : Operation} (h : op.SetsOnly name) (s : Session) :
    AgreeBeside name s.assignment (s.after op).assignment := by
  cases op with
  | potential time =>
      rw [after, Operation.perform, run_discard, assignment_frame]
      exact .refl name _
  | labels time =>
      rw [after, Operation.perform, run_discard, run_labels]
      exact .refl name _
  | request r =>
      obtain ⟨program, evaluator, ws⟩ := s
      cases evaluator with
      | none => exact .refl name _
      | some ev => exact ev.agree_serve h

theorem agree_afterAll {ops : List Operation} (h : ∀ op ∈ ops, op.SetsOnly name) (s : Session) :
    AgreeBeside name s.assignment (s.afterAll ops).assignment := by
  induction ops generalizing s with
  | nil => exact .refl name _
  | cons op ops ih =>
      obtain ⟨hop, hops⟩ := List.forall_mem_cons.mp h
      exact (agree_after hop s).trans (ih hops (s.after op))

/-! ## Frames -/

/-- What is bound in a frame is not looked up. -/
theorem Frame.field_congr {a b : Assignment} (h : AgreeBeside name a b) {fr : Frame}
    (hbound : fr.formula.isSome → (fr.values.lookup name).isSome) : fr.field b = fr.field a := by
  obtain ⟨formula, values⟩ := fr
  cases formula with
  | none => rfl
  | some p =>
      have hfield : Field.ofPrepared p b values = Field.ofPrepared p a values := by
        funext x y
        exact p.call_congr h (hbound rfl) [x, y]
      simp only [Frame.field, hfield]

/-- A frame with a formula binds the parameter of the animation. -/
theorem bound_of_frame {p : Program} {a : Animation Float} {time : Option Float} {fr : Frame}
    {s' : Session} (hprogram : s.program = some p) (ha : p.animation = some a)
    (h : (frame time).run.run s = (.ok fr, s')) :
    fr.formula.isSome → (fr.values.lookup a.parameter).isSome := by
  obtain ⟨program, evaluator, ws⟩ := s
  obtain rfl : program = some p := hprogram
  cases evaluator with
  | none => cases h
  | some ev =>
      rw [run_frame] at h
      dsimp only at h
      split at h
      · obtain rfl : _ = fr := Except.ok.inj (congrArg Prod.fst h)
        intro _
        simp only [Program.frameValues, ha, List.lookup_cons_self, Option.isSome_some]
      · obtain rfl : _ = fr := Except.ok.inj (congrArg Prod.fst h)
        intro hformula
        cases hformula
      · cases congrArg Prod.fst h

/-- Whatever a session is asked after a frame was made, if no variable is
set or unset but the parameter of the animation, the frame shows the same
at every point as when it was made. -/
theorem frame_unchanged {p : Program} {a : Animation Float} {time : Option Float} {fr : Frame}
    {s' : Session} (hprogram : s.program = some p) (ha : p.animation = some a)
    (hframe : (frame time).run.run s = (.ok fr, s')) {later : List Operation}
    (hlater : ∀ op ∈ later, op.SetsOnly a.parameter) (x y : Samples) :
    fr.field (s'.afterAll later).assignment x y = fr.field s'.assignment x y := by
  have hagree := agree_afterAll hlater s'
  rw [Frame.field_congr hagree (bound_of_frame hprogram ha hframe)]

/-- The frame at zero, while other frames are made, labels are placed, and
the parameter is set, read by a text, and unset again. -/
theorem frame_unchanged_byLaterTimes :
    let s := ((compile "ANIMATE t FROM 0 TO 5 STEP 1\nPLOT3D x^t\nLABEL STR(t) AT t, 0, 0").run.run
      empty).2
    let later : List Operation := [.potential (some 3), .request (.set "t" 4), .labels none,
      .request (.evaluate "x^t" [("x", .scalar 1)]), .potential none, .request (.unset "t")]
    ∃ fr s', (frame (some 0)).run.run s = (.ok fr, s') ∧ fr.formula.isSome ∧
      ∀ x y, fr.field (s'.afterAll later).assignment x y = fr.field s'.assignment x y := by
  intro s later
  have hanimated : (s.program.bind Program.animation).map Animation.parameter = some "t" := by
    decide +kernel
  obtain ⟨a, ha, hparameter⟩ := Option.map_eq_some_iff.mp hanimated
  obtain ⟨p, hp, hanimation⟩ := Option.bind_eq_some_iff.mp ha
  have hmade : (((frame (some 0)).run.run s).1.toOption.bind Frame.formula).isSome = true := by
    decide +kernel
  cases hframe : (frame (some 0)).run.run s with
  | mk r s' =>
      rw [hframe] at hmade
      cases r with
      | error f => cases hmade
      | ok fr =>
          refine ⟨fr, s', rfl, hmade, fun x y => ?_⟩
          refine frame_unchanged hp hanimation hframe (fun op hop => ?_) x y
          rw [hparameter]
          simp only [later, List.mem_cons, List.not_mem_nil, or_false] at hop
          rcases hop with rfl | rfl | rfl | rfl | rfl | rfl <;> simp [Operation.SetsOnly]

end Session
end FieldScript
