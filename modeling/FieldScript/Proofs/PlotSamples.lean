import FieldScript.Proofs.BoundBodies
import FieldScript.Proofs.SurfaceInlining

/-!
# Samples of plotted definitions

A session samples the definitions that are plotted one after the other, and
each time the evaluator keeps the callables of one more (`Evaluator.Extends`).
What a definition answered once it answers from then on
(`Evaluator.componentFunction_of_extends`), so that in the end all samples are
samples of one evaluator: the one that was asked for all of the definitions
(`Session.run_samples`). If a definition is plotted twice, the sample of the
last plot counts.
-/

namespace FieldScript

namespace Evaluator

variable {ev ev₁ ev₂ ev₃ : Evaluator}

/-! ## Callables that are kept -/

/-- The second evaluator is the first one with more callables and
readings. -/
structure Extends (ev ev' : Evaluator) : Prop where
  definitions : ev'.definitions = ev.definitions
  components : ev'.components = ev.components
  unbound : ev'.unbound = ev.unbound
  environment : ev'.environment = ev.environment
  kept : ∀ key p, ev.prepared.lookup key = some p → ev'.prepared.lookup key = some p

theorem Extends.refl (ev : Evaluator) : Extends ev ev := ⟨rfl, rfl, rfl, rfl, fun _ _ h => h⟩

theorem Extends.trans (h : Extends ev₁ ev₂) (h' : Extends ev₂ ev₃) : Extends ev₁ ev₃ :=
  ⟨h'.definitions.trans h.definitions, h'.components.trans h.components, h'.unbound.trans h.unbound,
    h'.environment.trans h.environment, fun key p hp => h'.kept key p (h.kept key p hp)⟩

theorem extends_keep (ev : Evaluator) (key : Reading) (make : Except Failure Prepared) :
    Extends ev (ev.keep key make).2 := by
  unfold keep
  split
  · exact .refl ev
  · rename_i hnone
    split
    · refine ⟨rfl, rfl, rfl, rfl, fun key' p' hp => ?_⟩
      rw [List.lookup_cons]
      split
      · -- the key is new
        rename_i heq
        rw [eq_of_beq heq, hnone] at hp
        cases hp
      · exact hp
    · exact .refl ev

theorem extends_compileKept (ev : Evaluator) (text : String) (args : List String) :
    Extends ev (ev.compileKept text args).2 := by
  have hread : Extends ev (ev.readKept text args).2 := by
    rw [readKept]
    split
    · exact ⟨rfl, rfl, rfl, rfl, fun _ _ h => h⟩
    · exact .refl ev
  rw [compileKept]
  split
  · exact .refl ev
  · split <;> rename_i heq <;> rw [heq] at hread
    · exact hread
    · exact hread.trans (extends_keep _ _ _)

theorem extends_componentCallables (ev : Evaluator) (fn : NamedFunction) (index : Nat) (es : List Expr) :
    Extends ev (ev.componentCallables fn index es).2 := by
  induction es generalizing ev index with
  | nil => exact .refl ev
  | cons e es ih =>
      have hkept := extends_keep ev (keyOf (fn.name ++ "[" ++ toString index ++ "]") fn.params)
        (Prepared.ofExpr (fn.name ++ "[" ++ toString index ++ "]") fn.params e)
      rw [componentCallables]
      split <;> rename_i heq <;> rw [heq] at hkept
      · exact hkept
      · have hrest := hkept.trans (ih _ (index + 1))
        split <;> rename_i heq' <;> rw [heq'] at hrest <;> exact hrest

theorem extends_componentFunction (ev : Evaluator) (name : String) (kind : DefinitionKind) :
    Extends ev (ev.componentFunction name kind).2 := by
  rw [componentFunction]
  split
  · exact .refl ev
  · split
    · exact .refl ev
    · exact extends_componentCallables ev _ 0 _

theorem lookup_keep {key : Reading} {make : Except Failure Prepared} {p : Prepared}
    (h : ev.keep key make = (.ok p, ev₁)) : ev₁.prepared.lookup key = some p := by
  unfold keep at h
  split at h
  · rename_i hlookup
    obtain ⟨hp, rfl⟩ := Prod.mk.inj h
    rw [hlookup, Except.ok.inj hp]
  · split at h
    · obtain ⟨hp, rfl⟩ := Prod.mk.inj h
      rw [List.lookup_cons_self, Except.ok.inj hp]
    · cases (Prod.mk.inj h).1

theorem keep_of_lookup {key : Reading} {p : Prepared} (h : ev.prepared.lookup key = some p)
    (make : Except Failure Prepared) : ev.keep key make = (.ok p, ev) := by
  unfold keep
  rw [h]

theorem componentCallables_of_extends {fn : NamedFunction} {index : Nat} {es : List Expr} {ps : List Prepared}
    (h : ev.componentCallables fn index es = (.ok ps, ev₁)) (hextends : Extends ev₁ ev₂) :
    ev₂.componentCallables fn index es = (.ok ps, ev₂) := by
  induction es generalizing ev index ps with
  | nil =>
      obtain ⟨hps, -⟩ := Prod.mk.inj h
      rw [componentCallables, ← hps]
  | cons e es ih =>
      rw [componentCallables] at h ⊢
      split at h
      · cases (Prod.mk.inj h).1
      · rename_i p ev' hkeep
        have hrest := extends_componentCallables ev' fn (index + 1) es
        split at h
        · cases (Prod.mk.inj h).1
        · rename_i ps' ev'' hes
          obtain ⟨hps, rfl⟩ := Prod.mk.inj h
          rw [hes] at hrest
          rw [keep_of_lookup ((hrest.trans hextends).kept _ p (lookup_keep hkeep))]
          dsimp only
          rw [ih hes]
          exact congrArg (·, ev₂) hps

theorem Extends.require (h : Extends ev ev₁) (name : String) (kinds : List DefinitionKind) :
    ev₁.require name kinds = ev.require name kinds := by
  rw [Evaluator.require, Evaluator.require, h.definitions, h.unbound]

/-- A definition that has answered gives the same answer from then on, and
the evaluator stays the same. -/
theorem componentFunction_of_extends {name : String} {kind : DefinitionKind} {ps : List Prepared}
    (h : ev.componentFunction name kind = (.ok ps, ev₁)) (hextends : Extends ev₁ ev₂) :
    ev₂.componentFunction name kind = (.ok ps, ev₂) := by
  have hfirst := extends_componentFunction ev name kind
  rw [h] at hfirst
  have hall := hfirst.trans hextends
  unfold componentFunction at h ⊢
  rw [hall.require, hall.components]
  split at h
  · cases (Prod.mk.inj h).1
  · split at h
    · cases (Prod.mk.inj h).1
    · exact componentCallables_of_extends h hextends

/-- The evaluator after it was asked for the definitions of these names. -/
def askedFor (kind : DefinitionKind) (ev : Evaluator) (names : List String) : Evaluator :=
  names.foldl (fun ev n => (ev.componentFunction n kind).2) ev

theorem extends_askedFor (kind : DefinitionKind) (ev : Evaluator) (names : List String) :
    Extends ev (ev.askedFor kind names) := by
  induction names generalizing ev with
  | nil => exact .refl ev
  | cons n names ih => exact (extends_componentFunction ev n kind).trans (ih _)

theorem askedFor_cons (kind : DefinitionKind) (ev : Evaluator) (n : String) (names : List String) :
    ev.askedFor kind (n :: names) = (ev.componentFunction n kind).2.askedFor kind names :=
  rfl

/-- What is not bound has no callables to keep. -/
theorem componentFunction_of_unbound {name reason : String} {kind : DefinitionKind}
    (h : ev.unbound.lookup name = some reason) : (ev.componentFunction name kind).2 = ev := by
  have hrequire : ∀ fn, ev.require name [kind] ≠ .ok fn := by
    intro fn hfn
    unfold require at hfn
    rw [h] at hfn
    split at hfn
    · cases hfn
    · split at hfn <;> cases hfn
  unfold componentFunction
  split
  · rfl
  · rename_i fn hfn
    exact absurd hfn (hrequire fn)

theorem callAll_of_extends (h : Extends ev ev₁) (ps : List Prepared) (values : List Samples)
    (overrides : Assignment) : ev₁.callAll ps values overrides = ev.callAll ps values overrides := by
  rw [callAll, callAll, h.environment]

end Evaluator

namespace Session

/-! ## Samples -/

section Samples

variable {β : Type} {what : String} {p : Program} {kind : DefinitionKind} {time : Option Float} {surface : Field}
  {sample : VectorField → Interval Float → Interval Float → Int → Option Field → Except Failure (β × List String)}
  {ev ev' : Evaluator} {ws : List String}

/-- What an evaluator gives for a plotted definition. -/
def sampleOf (p : Program) (kind : DefinitionKind) (time : Option Float) (surface : Field)
    (sample : VectorField → Interval Float → Interval Float → Int → Option Field → Except Failure (β × List String))
    (ev : Evaluator) (name : String) (gridSize : Int) : Except Failure (β × List String) := do
  let components ← (ev.componentFunction name kind).1
  sample (fun x y => ev.callAll components [x, y] (p.frameValues time)) p.xRange p.yRange gridSize (some surface)

/-- A sample that was taken is the sample of any evaluator after that. -/
theorem sampleOf_of_extends {name : String} {gridSize : Int} {r : β × List String}
    (h : sampleOf p kind time surface sample ev name gridSize = .ok r)
    (hextends : Evaluator.Extends (ev.componentFunction name kind).2 ev') :
    sampleOf p kind time surface sample ev' name gridSize = .ok r := by
  have hfirst := Evaluator.extends_componentFunction ev name kind
  unfold sampleOf at h ⊢
  cases hanswer : ev.componentFunction name kind with
  | mk answer ev₁ =>
      rw [hanswer] at h hextends hfirst
      cases answer with
      | error f => cases h
      | ok ps =>
          rw [Evaluator.componentFunction_of_extends hanswer hextends]
          have hcall : (fun x y => ev'.callAll ps [x, y] (p.frameValues time)) =
              fun x y => ev.callAll ps [x, y] (p.frameValues time) :=
            funext fun x => funext fun y => Evaluator.callAll_of_extends (hfirst.trans hextends) ps [x, y] _
          show sample (fun x y => ev'.callAll ps [x, y] (p.frameValues time)) _ _ _ _ = _
          rw [hcall]
          exact h

/-- One more plot is sampled. -/
def sampleStep (what : String) (p : Program) (kind : DefinitionKind) (time : Option Float) (surface : Field)
    (sample : VectorField → Interval Float → Interval Float → Int → Option Field → Except Failure (β × List String))
    (done : List (String × β)) (plot : String × Int) : Action (List (String × β)) := do
  let ev ← currentEvaluator
  match ev.unbound.lookup plot.1 with
  | some reason =>
    warn ("Skipping " ++ what ++ " field " ++ plot.1 ++ ": " ++ reason)
    return done
  | none =>
    let (components, ev) := ev.componentFunction plot.1 kind
    keepEvaluator ev
    let components ← lift components
    let values := p.frameValues time
    let (s, ws) ← lift (sample (fun x y => ev.callAll components [x, y] values) p.xRange p.yRange
      plot.2 (some surface))
    warnAll ws
    return Evaluator.put done plot.1 s

theorem run_sampleStep (program : Option Program) (done : List (String × β)) (name : String) (gridSize : Int) :
    (sampleStep what p kind time surface sample done (name, gridSize)).run.run ⟨program, some ev, ws⟩ =
      match ev.unbound.lookup name with
      | some reason => (.ok done, ⟨program, some ev,
          ws ++ ["Skipping " ++ what ++ " field " ++ name ++ ": " ++ reason]⟩)
      | none =>
        match sampleOf p kind time surface sample ev name gridSize with
        | .ok (s, ws') => (.ok (Evaluator.put done name s),
            ⟨program, some (ev.componentFunction name kind).2, ws ++ ws'⟩)
        | .error f => (.error f, ⟨program, some (ev.componentFunction name kind).2, ws⟩) := by
  have hfirst := Evaluator.extends_componentFunction ev name kind
  rw [sampleStep, run_bind, show currentEvaluator.run.run ⟨program, some ev, ws⟩ =
    (.ok ev, ⟨program, some ev, ws⟩) from rfl]
  dsimp only
  cases ev.unbound.lookup name with
  | some reason => rfl
  | none =>
      unfold sampleOf
      dsimp only
      cases hanswer : ev.componentFunction name kind with
      | mk answer ev₁ =>
          rw [hanswer] at hfirst
          cases answer with
          | error f => rfl
          | ok ps =>
              have hcall : (fun x y => ev.callAll ps [x, y] (p.frameValues time)) =
                  fun x y => ev₁.callAll ps [x, y] (p.frameValues time) :=
                funext fun x => funext fun y => (Evaluator.callAll_of_extends hfirst ps [x, y] _).symm
              show (do
                  let r ← lift (sample (fun x y => ev₁.callAll ps [x, y] (p.frameValues time)) p.xRange p.yRange
                    gridSize (some surface))
                  warnAll r.2
                  return Evaluator.put done name r.1 : Action (List (String × β))).run.run
                    ⟨program, some ev₁, ws⟩ =
                match sample (fun x y => ev.callAll ps [x, y] (p.frameValues time)) p.xRange p.yRange gridSize
                  (some surface) with
                | .ok (s, ws') => (.ok (Evaluator.put done name s), ⟨program, some ev₁, ws ++ ws'⟩)
                | .error f => (.error f, ⟨program, some ev₁, ws⟩)
              rw [hcall]
              cases sample (fun x y => ev₁.callAll ps [x, y] (p.frameValues time)) p.xRange p.yRange gridSize
                (some surface) <;> rfl

/-- What holds of each member of a list and of those before it. -/
theorem forall_turns_cons {α : Type} {P : List α → α → Prop} {a : α} {as : List α} :
    (∀ before b after, a :: as = before ++ b :: after → P before b) ↔
      P [] a ∧ ∀ before b after, as = before ++ b :: after → P (a :: before) b := by
  constructor
  · exact fun h => ⟨h [] a as rfl, fun before b after heq => h (a :: before) b after (congrArg _ heq)⟩
  · rintro ⟨ha, has⟩ before b after heq
    cases before with
    | nil =>
        obtain ⟨rfl, -⟩ := List.cons.inj heq
        exact ha
    | cons c before =>
        obtain ⟨rfl, htail⟩ := List.cons.inj heq
        exact has before b after htail

/-- All plots have their samples, if each of them has one when it is its
turn. -/
theorem exists_run_samples_iff (program : Option Program) (plots : List (String × Int))
    (done : List (String × β)) (ev : Evaluator) (ws : List String) :
    (∃ samples s', (plots.foldlM (sampleStep what p kind time surface sample) done).run.run
        ⟨program, some ev, ws⟩ = (.ok samples, s')) ↔
      ∀ before plot after, plots = before ++ plot :: after → ev.unbound.lookup plot.1 = none →
        ∃ r, sampleOf p kind time surface sample (ev.askedFor kind (before.map (·.1))) plot.1 plot.2 = .ok r := by
  induction plots generalizing done ev ws with
  | nil =>
      refine iff_of_true ⟨done, _, rfl⟩ fun before plot after h => ?_
      cases before <;> cases h
  | cons plot rest ih =>
      have hfirst := Evaluator.extends_componentFunction ev plot.1 kind
      rw [List.foldlM_cons, run_bind, run_sampleStep, forall_turns_cons]
      simp only [List.map_cons, Evaluator.askedFor_cons]
      cases hunbound : ev.unbound.lookup plot.1 with
      | some reason =>
          dsimp only
          rw [ih, Evaluator.componentFunction_of_unbound hunbound]
          exact (and_iff_right fun h => by cases h).symm
      | none =>
          dsimp only
          cases hsample : sampleOf p kind time surface sample ev plot.1 plot.2 with
          | error f =>
              refine iff_of_false ?_ fun h => ?_
              · rintro ⟨samples, s', h⟩
                cases congrArg Prod.fst h
              · obtain ⟨r, hr⟩ := h.1 rfl
                cases hsample.symm.trans hr
          | ok r =>
              dsimp only
              rw [ih, hfirst.unbound]
              exact (and_iff_right fun _ => ⟨r, hsample⟩).symm

/-- Of several plots of one definition the last one counts. -/
theorem lookup_last_cons {β : Type} (plot : String × β) (rest : List (String × β)) (name : String) :
    (plot :: rest).reverse.lookup name =
      (rest.reverse.lookup name).or (if name = plot.1 then some plot.2 else none) := by
  rw [List.reverse_cons, List.lookup_append, List.lookup_cons, List.lookup_nil]
  by_cases h : name = plot.1
  · rw [if_pos h, h, beq_self_eq_true]
  · rw [if_neg h, beq_eq_false_iff_ne.mpr h]

theorem lookup_last_cons_none {β : Type} {plot : String × β} {rest : List (String × β)} {name : String} :
    (plot :: rest).reverse.lookup name = none ↔ rest.reverse.lookup name = none ∧ name ≠ plot.1 := by
  rw [lookup_last_cons, Option.or_eq_none_iff, ite_eq_right_iff]
  simp

theorem lookup_last_cons_some {β : Type} {plot : String × β} {rest : List (String × β)} {name : String} {g : β} :
    (plot :: rest).reverse.lookup name = some g ↔ rest.reverse.lookup name = some g ∨
      rest.reverse.lookup name = none ∧ name = plot.1 ∧ plot.2 = g := by
  rw [lookup_last_cons, Option.or_eq_some_iff]
  simp

/-- Then all samples are those of the evaluator in the end, for the last of
several plots of one definition. -/
theorem run_samples {program : Option Program} {plots : List (String × Int)} {done samples : List (String × β)}
    {s' : Session} (h : (plots.foldlM (sampleStep what p kind time surface sample) done).run.run
      ⟨program, some ev, ws⟩ = (.ok samples, s')) :
    s'.evaluator = some (ev.askedFor kind (plots.map (·.1))) ∧ ∀ name,
      (plots.reverse.lookup name = none → samples.lookup name = done.lookup name) ∧
      ∀ gridSize, plots.reverse.lookup name = some gridSize → ev.unbound.lookup name = none →
        ∃ r, sampleOf p kind time surface sample (ev.askedFor kind (plots.map (·.1))) name gridSize = .ok r ∧
          samples.lookup name = some r.1 := by
  induction plots generalizing done ev ws with
  | nil =>
      obtain ⟨hsamples, rfl⟩ := Prod.mk.inj h
      obtain rfl := Except.ok.inj hsamples
      exact ⟨rfl, fun name => ⟨fun _ => rfl, fun gridSize hlast => by cases hlast⟩⟩
  | cons plot rest ih =>
      obtain ⟨n, g⟩ := plot
      have hfirst := Evaluator.extends_componentFunction ev n kind
      rw [List.foldlM_cons, run_bind, run_sampleStep] at h
      rw [List.map_cons, Evaluator.askedFor_cons]
      cases hunbound : ev.unbound.lookup n with
      | some reason =>
          rw [hunbound] at h
          obtain ⟨hev, hsamples⟩ := ih h
          rw [Evaluator.componentFunction_of_unbound hunbound]
          refine ⟨hev, fun name => ⟨fun hnone => ?_, fun gridSize hlast hname => ?_⟩⟩
          · exact (hsamples name).1 (lookup_last_cons_none.mp hnone).1
          · rcases lookup_last_cons_some.mp hlast with hrest | ⟨-, rfl, -⟩
            · exact (hsamples name).2 gridSize hrest hname
            · cases hunbound.symm.trans hname
      | none =>
          rw [hunbound] at h
          dsimp only at h
          cases hsample : sampleOf p kind time surface sample ev n g with
          | error f =>
              rw [hsample] at h
              cases congrArg Prod.fst h
          | ok r =>
              rw [hsample] at h
              obtain ⟨hev, hsamples⟩ := ih h
              have hput := Evaluator.lookup_put done n r.1
              refine ⟨hev, fun name => ⟨fun hnone => ?_, fun gridSize hlast hname => ?_⟩⟩
              · obtain ⟨hrest, hne⟩ := lookup_last_cons_none.mp hnone
                exact ((hsamples name).1 hrest).trans ((hput name).trans (if_neg hne))
              · rcases lookup_last_cons_some.mp hlast with hrest | ⟨hrest, rfl, rfl⟩
                · exact (hsamples name).2 gridSize hrest (hfirst.unbound ▸ hname)
                · exact ⟨r, sampleOf_of_extends hsample (Evaluator.extends_askedFor kind _ _),
                    ((hsamples _).1 hrest).trans ((hput _).trans (if_pos rfl))⟩

end Samples

end Session
end FieldScript
