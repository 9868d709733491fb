import FieldScript.Proofs.EvaluatorFailures
import FieldScript.Proofs.ProgramValidity
import FieldScript.Session.Basic

/-!
# What compiling leaves behind

A session forgets its program before it reads another source. If the
source is refused, nothing is kept; if it is a program, the program is
kept before its definitions are bound and its frames are counted. Either
of these may fail: a field definition may not fall into components, and
an animation may have more frames than can be counted. Then compiling
has no answer, and the session keeps a program without an evaluator or
without an answer.

What is kept never depends on what the session held before.
-/

namespace FieldScript

open Binary64

namespace Animation

/-- The number of steps has no bound. -/
def Endless (a : Animation Float) : Prop :=
  ((a.stop - a.start).abs / a.step + tolerance).isFinite = false

/-- The frames are counted unless there is no end of them. -/
theorem frameCount_cases {a : Animation Float} (hstep : 0 < a.step) :
    (a.Endless ∧ ∃ f, a.frameCount = .error f) ∨ (¬ a.Endless ∧ ∃ n, a.frameCount = .ok n) := by
  have hnonzero : Scalar.equal a.step (Scalar.ofInt 0) = false := by
    obtain ⟨hzero, hnumber⟩ := isNumber_of_lt hstep
    rw [Bool.eq_false_iff]
    intro hequal
    have hplace := (beq_iff hnumber hzero).mp hequal
    have hless := (lt_iff hzero hnumber).mp hstep
    exact hless.ne hplace.symm
  have hsteps : Scalar.abs (a.stop - a.start) / a.step + tolerance =
      (a.stop - a.start).abs / a.step + tolerance := rfl
  rw [Endless, frameCount, stepCount, hnonzero, hsteps]
  cases hfinite : ((a.stop - a.start).abs / a.step + tolerance).isFinite with
  | true =>
      have hcounted : ∃ n, Scalar.floorInt? ((a.stop - a.start).abs / a.step + tolerance) = some n :=
        ⟨_, if_pos hfinite⟩
      obtain ⟨n, hn⟩ := hcounted
      refine Or.inr ⟨by simp, ?_⟩
      simp only [hn]
      exact ⟨n + 1, rfl⟩
  | false =>
      have huncounted : Scalar.floorInt? ((a.stop - a.start).abs / a.step + tolerance) = none :=
        if_neg (by simp [hfinite])
      refine Or.inl ⟨rfl, ?_⟩
      simp only [huncounted]
      exact ⟨_, rfl⟩

end Animation

namespace Session

/-- The answer to a source, if compiling has one, and the session after
it. -/
def compiling (s : Session) (source : String) : Except Failure Compilation × Session :=
  (compile source).run.run s

/-- The session after all these sources, whatever the answers were. -/
def compilingAll (s : Session) (sources : List String) : Session :=
  sources.foldl (fun s source => (s.compiling source).2) s

/-- The session holds the program of the source and its evaluator. -/
def Holds (s : Session) (source : String) : Prop :=
  ∃ p ev ws, Program.ofSource source = .ok p ∧ p.evaluator = .ok (ev, ws) ∧
    s.program = some p ∧ s.evaluator = some ev

/-- There is an answer, and the session holds the program if it was
compiled and nothing if it was refused. -/
def Clean (source : String) (r : Except Failure Compilation × Session) : Prop :=
  (∃ c, r.1 = .ok (.compiled c) ∧ r.2.Holds source) ∨
    ∃ f, r.1 = .ok (.rejected f) ∧ r.2.program = none ∧ r.2.evaluator = none

/-- There is no answer, but the session has the program already. -/
def HalfDone (source : String) (r : Except Failure Compilation × Session) : Prop :=
  ∃ f p, r.1 = .error f ∧ Program.ofSource source = .ok p ∧ r.2.program = some p ∧
    ((∀ fn ∈ p.definitions, ¬ fn.Unsplit) ↔ ∃ ev, r.2.evaluator = some ev)

/-- The source is a program with a field definition that does not fall
into components or with an animation without end. -/
def Overreaches (source : String) : Prop :=
  ∃ p, Program.ofSource source = .ok p ∧
    ((∃ fn ∈ p.definitions, fn.Unsplit) ∨ ∃ a, p.animation = some a ∧ a.Endless)

variable {s : Session} {source : String} {p : Program}

theorem compiling_of_error {f : Failure} (h : Program.ofSource source = .error f) :
    s.compiling source = (.ok (.rejected f), { s with program := none, evaluator := none }) := by
  unfold compiling compile
  rw [h]
  rfl

theorem compiling_of_unbound {f : Failure} (h : Program.ofSource source = .ok p)
    (hev : p.evaluator = .error f) :
    s.compiling source = (.error f, { s with program := some p, evaluator := none }) := by
  unfold compiling compile
  rw [h]
  dsimp only
  rw [hev]
  rfl

/-- How many frames there are; one if nothing moves. -/
def frameTotal (p : Program) : Except Failure Int :=
  match p.animation with
  | none => .ok 1
  | some a => a.frameCount

/-- Once the evaluator is kept, only the frames remain to be counted. -/
theorem compiling_of_bound {ev : Evaluator} {ws : List String} (h : Program.ofSource source = .ok p)
    (hev : p.evaluator = .ok (ev, ws)) :
    s.compiling source = ((frameTotal p).map fun n =>
        .compiled ⟨p.order, ev.unbound, p.plots.map Plot.typeName, n⟩,
      ⟨some p, some ev, s.warnings ++ ws⟩) := by
  unfold compiling compile frameTotal
  rw [h]
  dsimp only
  rw [hev]
  cases p.animation with
  | none => rfl
  | some a =>
      dsimp only
      cases a.frameCount with
      | ok n => rfl
      | error f => rfl

/-- An evaluator is made for an accepted program unless one of its fields
does not fall into components. -/
theorem evaluator_cases (h : Program.ofSource source = .ok p) :
    ((∃ fn ∈ p.definitions, fn.Unsplit) ∧ p.evaluator = .error .outOfBounds) ∨
      ((∀ fn ∈ p.definitions, ¬ fn.Unsplit) ∧ ∃ ev ws, p.evaluator = .ok (ev, ws)) := by
  obtain ⟨_, d, -, -, hsound, hcompletes⟩ := Program.completes_of_ofSource h
  have hvalid := hcompletes.valid hsound
  have hparams : ∀ fn ∈ p.definitions, fn.params.Nodup := by
    rw [hcompletes.definitions]
    exact fun fn hfn => (hsound.definitions fn hfn).2
  rcases Evaluator.ofOrder_cases hvalid.order hparams hvalid.names with
    hunsplit | ⟨hsplit, ev, ws, hev, -⟩
  · exact Or.inl hunsplit
  · exact Or.inr ⟨hsplit, ev, ws, hev⟩

/-- The frames of an accepted program are counted unless there is no end of
them. -/
theorem frameTotal_cases (h : Program.ofSource source = .ok p) :
    ((∃ a, p.animation = some a ∧ a.Endless) ∧ ∃ f, frameTotal p = .error f) ∨
      ((¬ ∃ a, p.animation = some a ∧ a.Endless) ∧ ∃ n, frameTotal p = .ok n) := by
  rw [frameTotal]
  cases hanimation : p.animation with
  | none =>
      refine Or.inr ⟨?_, 1, rfl⟩
      rintro ⟨a, ha, -⟩
      cases ha
  | some a =>
      have hstep := ((Program.valid_of_ofSource h).1.animation a hanimation).2.2.2
      rcases Animation.frameCount_cases hstep with ⟨hendless, hcount⟩ | ⟨hends, hcount⟩
      · exact Or.inl ⟨⟨a, rfl, hendless⟩, hcount⟩
      · refine Or.inr ⟨?_, hcount⟩
        rintro ⟨b, hb, hendless⟩
        cases hb
        exact hends hendless

theorem overreaches_iff (h : Program.ofSource source = .ok p) : Overreaches source ↔
    (∃ fn ∈ p.definitions, fn.Unsplit) ∨ ∃ a, p.animation = some a ∧ a.Endless := by
  constructor
  · rintro ⟨p', hp', hover⟩
    rw [h] at hp'
    cases hp'
    exact hover
  · exact fun hover => ⟨p, h, hover⟩

/-- Compiling a source that overreaches is half done, and any other source
leaves the session clean. -/
theorem compiling_cases (s : Session) (source : String) :
    (Overreaches source ∧ HalfDone source (s.compiling source)) ∨
      (¬ Overreaches source ∧ Clean source (s.compiling source)) := by
  cases hsource : Program.ofSource source with
  | error f =>
      rw [compiling_of_error hsource]
      refine Or.inr ⟨?_, Or.inr ⟨f, rfl, rfl, rfl⟩⟩
      rintro ⟨p, hp, -⟩
      rw [hsource] at hp
      cases hp
  | ok p =>
      rw [overreaches_iff hsource]
      rcases evaluator_cases hsource with ⟨hunsplit, hev⟩ | ⟨hsplit, ev, ws, hev⟩
      · rw [compiling_of_unbound hsource hev]
        refine Or.inl ⟨Or.inl hunsplit, _, p, rfl, hsource, rfl, ?_⟩
        obtain ⟨fn, hfn, hunsplit⟩ := hunsplit
        constructor
        · exact fun h => absurd hunsplit (h fn hfn)
        · rintro ⟨ev, hev⟩
          cases hev
      · rw [compiling_of_bound hsource hev]
        rcases frameTotal_cases hsource with ⟨hendless, f, htotal⟩ | ⟨hends, n, htotal⟩
        · rw [htotal]
          exact Or.inl ⟨Or.inr hendless, f, p, rfl, hsource, rfl, fun _ => ⟨ev, rfl⟩, fun _ => hsplit⟩
        · rw [htotal]
          refine Or.inr ⟨?_, Or.inl ⟨_, rfl, p, ev, ws, hsource, hev, rfl, rfl⟩⟩
          rintro (⟨fn, hfn, hunsplit⟩ | hendless)
          · exact hsplit fn hfn hunsplit
          · exact hends hendless

/-- After any sources, and whatever the session held before them, a source
has its answer and leaves nothing else behind exactly unless it
overreaches; then the session holds the program without an answer. -/
theorem clean_compiling_iff (s : Session) (earlier : List String) (source : String) :
    (Clean source ((s.compilingAll earlier).compiling source) ↔ ¬ Overreaches source) ∧
      (Overreaches source → HalfDone source ((s.compilingAll earlier).compiling source)) := by
  rcases compiling_cases (s.compilingAll earlier) source with ⟨hover, hhalf⟩ | ⟨hover, hclean⟩
  · refine ⟨⟨fun hclean => ?_, fun h => absurd hover h⟩, fun _ => hhalf⟩
    obtain ⟨f, -, hf, -⟩ := hhalf
    rcases hclean with ⟨c, hc, -⟩ | ⟨g, hg, -⟩
    · rw [hf] at hc
      cases hc
    · rw [hf] at hg
      cases hg
  · exact ⟨⟨fun _ => hover, fun _ => hclean⟩, fun h => absurd h hover⟩

/-- The first component has a bracket with nothing before its comma. No
vector has it for a component, so it is read as one, but it does not fall
into components again. -/
theorem not_clean_unsplit :
    ¬ Clean "DEF VEC_F(x)=[[,]+1,2,3]\nPLOT3D x"
      (empty.compiling "DEF VEC_F(x)=[[,]+1,2,3]\nPLOT3D x") := by
  have herror : (match (empty.compiling "DEF VEC_F(x)=[[,]+1,2,3]\nPLOT3D x").1 with
      | .error .outOfBounds => true
      | _ => false) = true := by decide +kernel
  rintro (⟨c, hc, -⟩ | ⟨f, hf, -⟩)
  · rw [hc] at herror
    cases herror
  · rw [hf] at herror
    cases herror

end Session
end FieldScript
