import FieldScript.Proofs.CallHistories
import FieldScript.Proofs.CurrentBindings
import FieldScript.Proofs.DefinitionCalls
import FieldScript.Proofs.FrameIndependence
import FieldScript.Proofs.ProgramValidity

/-!
# Functions plotted with their own parameter names

A surface that calls a function with the names of its parameters is given
the body in the place of the call. The body was bound under the names of
the parameters and is now read under those of the coordinates. If the
parameters are names that mean nothing else, and if none of these names is
called, the body writes the same under both (`Evaluator.Current.writes?_free`),
and so does the call (`Evaluator.Current.writes?_call`): the program plots
one potential with the call and with the body (`Program.potential_asWritten`).

A parameter with the name of a library function hides it from the body,
but not where the body is plotted: `potential_shadowed` is a function that
cannot be bound and is plotted all the same.
-/

namespace FieldScript

/-! ## Free names -/

namespace Definitions

variable {ds : Definitions} {n : String}

/-- A free name is no word, no definition and no name of the library. -/
theorem of_referent_free (h : ds.referent [] n = .free) :
    n ∉ Scope.words ∧ n ∉ ds.names ∧ Referent.library n = .free := by
  rcases ds.referent_cases [] n with ⟨-, hr⟩ | ⟨-, -, hr⟩ | ⟨-, -, -, hr⟩ | ⟨hword, -, hn, hr⟩
  · cases hr.symm.trans h
  · cases hr.symm.trans h
  · cases hr.symm.trans h
  · exact ⟨by simpa using hword, hn, hr.symm.trans h⟩

/-- No definition has the name of a coordinate. -/
theorem Legal.referent_coordinate (h : ds.Legal) (hn : n ∈ ["x", "y"]) :
    ds.referent [] n = .free := by
  have htaken : ∀ m ∈ ["x", "y"], m ∈ takenNames := by decide
  have htables : ∀ m ∈ ["x", "y"], Scope.words.contains m = false ∧
      m ∉ ["PI", "pi", "E", "e"] ∧ Builtin.ofName? m = none ∧
        Builtin.fallback.lookup m = none := by decide +kernel
  obtain ⟨hwords, hconstant, hname, hfallback⟩ := htables n hn
  rcases ds.referent_cases [] n with ⟨hword, -⟩ | ⟨-, hparam, -⟩ | ⟨-, -, hname, -⟩ | ⟨-, -, -, hr⟩
  · rw [hwords] at hword
    cases hword
  · cases hparam
  · exact absurd rfl ((h n hname).ne_of_mem (htaken n hn))
  · exact hr.trans (Referent.library_eq_free hconstant hname hfallback)

end Definitions

namespace Scope

variable {s : Scope} {n : String}

theorem meaning_of_params (hword : n ∉ words) (hparam : n ∈ s.params) (called : Bool) :
    s.meaning n called = .expr (.var n) := by
  have hcontains : s.params.contains n = true := by simpa using hparam
  unfold Scope.meaning
  split
  · exact absurd (by decide) hword
  · exact absurd (by decide) hword
  · exact absurd (by decide) hword
  · rw [Scope.find?, if_pos hcontains]

/-- A name that the library does not have means its binding. Without one
it is a variable, or a function without definition where it is called. -/
theorem meaning_of_free (hword : n ∉ words) (hparam : n ∉ s.params)
    (hlibrary : Referent.library n = .free) (called : Bool) :
    s.meaning n called = match s.bindings.lookup n with
      | some b => if b.params.isEmpty then .expr b.body else .definition b.params b.body
      | none => if called then .unknownFunction n else .expr (.var n) := by
  have hcontains : s.params.contains n ≠ true := by simpa using hparam
  unfold Referent.library at hlibrary
  repeat' split at hlibrary
  all_goals cases hlibrary
  rename_i hpi he _ hname hfallback
  unfold Scope.meaning
  split
  · exact absurd (by decide) hword
  · exact absurd (by decide) hword
  · exact absurd (by decide) hword
  · rw [Scope.find?, if_neg hcontains, if_neg hpi, if_neg he, hname,
      Option.not_isSome_iff_eq_none.mp hfallback]
    cases s.bindings.lookup n <;> rfl

/-- The parameters tell only about their own names. -/
theorem find?_of_notMem {s s' : Scope} (hbindings : s.bindings = s'.bindings) (hs : n ∉ s.params)
    (hs' : n ∉ s'.params) : s.find? n = s'.find? n := by
  have hs : s.params.contains n ≠ true := by simpa using hs
  have hs' : s'.params.contains n ≠ true := by simpa using hs'
  rw [Scope.find?, Scope.find?, if_neg hs, if_neg hs', hbindings]

end Scope

namespace Evaluator

variable {ev : Evaluator} {done params args : List String} {text : String} {fn : NamedFunction}

/-- A free name is a variable under any parameters. -/
theorem Current.meaning_of_free (h : ev.Current done)
    (hdone : ∀ n ∈ done, n ∈ ev.definitions.names) {n : String}
    (hn : ev.definitions.referent [] n = .free) (params : List String) :
    (ev.scope params).meaning n false = .expr (.var n) := by
  obtain ⟨hword, hname, hlibrary⟩ := Definitions.of_referent_free hn
  by_cases hparam : n ∈ params
  · exact Scope.meaning_of_params hword hparam false
  · rw [Scope.meaning_of_free hword hparam hlibrary]
    rw [show (ev.scope params).bindings = ev.bindings from rfl, h.fresh n (mt (hdone n) hname)]
    rfl

/-- Which free names are parameters does not matter to a text that calls
none of them. -/
theorem Current.writes?_free (h : ev.Current done)
    (hdone : ∀ n ∈ done, n ∈ ev.definitions.names)
    (hfree : ∀ n ∈ args ++ params, ev.definitions.referent [] n = .free ∧ n ≠ "I")
    (huncalled : Uncalled (args ++ params) text) :
    ev.writes? text args = ev.writes? text params := by
  have hfind : ∀ n, n ∉ args ++ params →
      (ev.scope args).find? n = (ev.scope params).find? n := by
    intro n hn
    obtain ⟨hargs, hparams⟩ := not_or.mp (mt List.mem_append.mpr hn)
    exact Scope.find?_of_notMem rfl hargs hparams
  refine Expr.ofText_congr rfl ?_ huncalled (fun n _ hn => hfind n hn) (fun n _ hn => ?_) ?_
  · exact hfind "I" fun hunit => (hfree _ hunit).2 rfl
  · rw [h.meaning_of_free hdone (hfree n hn).1, h.meaning_of_free hdone (hfree n hn).1]
  · intro hfactorial
    have hlibrary := (Definitions.of_referent_free (hfree _ hfactorial).1).2.2
    unfold Referent.library at hlibrary
    repeat' split at hlibrary
    all_goals cases hlibrary
    rename_i hfallback
    exact hfallback rfl

/-! ## Calls -/

end Evaluator

namespace NamedFunction

/-- The text is read as a call of the function with the names of its
parameters. -/
def CalledIn (fn : NamedFunction) (text : String) : Prop :=
  Term.ofBody? text = some (.call (.name fn.name true) (fn.params.map (.name · false)))

/-- The parameters mean nothing else, and the body calls neither them nor
the coordinates. -/
structure Plain (ds : Definitions) (fn : NamedFunction) : Prop where
  free : ∀ n ∈ fn.params, ds.referent [] n = .free ∧ n ≠ "I"
  uncalled : Uncalled (["x", "y"] ++ fn.params) fn.body

end NamedFunction

theorem Term.meanings?_names {s : Scope} {ns : List String}
    (h : ∀ n ∈ ns, s.meaning n false = .expr (.var n)) :
    Term.meanings? s (ns.map (.name · false)) = some ((ns.map .var).map .expr) := by
  induction ns with
  | nil => rfl
  | cons n ns ih =>
      obtain ⟨hn, hns⟩ := List.forall_mem_cons.mp h
      rw [List.map_cons, Term.meanings?, ih hns, Term.meaning?, hn]
      rfl

/-- A function of its own parameters is its body. -/
theorem Meaning.call?_own {A : Algebra} {params : List String} {e : Expr} (he : e.Built A) :
    Meaning.call? A (.definition params e) ((params.map .var).map .expr) = some (.expr e) := by
  unfold Meaning.call?
  dsimp only
  rw [if_neg (by simp)]
  split
  · rename_i p a q hargs
    obtain rfl := (List.cons.inj hargs).1
    split
    · rename_i hpq
      rw [eq_of_beq hpq]
    · rfl
  · rw [Meaning.mapM_argument?, Option.bind_eq_bind, Option.bind_some, Expr.substitute?_self _ he]
    rfl

/-- A call of nothing writes nothing. -/
theorem Meaning.written?_unknownCall (n : String) (es : List Expr) :
    (Meaning.expr (.node (.call n) es)).written? = none := by
  have hmem : n ∈ Expr.insertName (Expr.calledNamesList es) n := by
    rw [Expr.insertName]
    split
    · rename_i hn
      simpa using hn
    · simp
  rw [Meaning.written?, Expr.calledNames, if_neg]
  intro hempty
  rw [List.isEmpty_iff.mp hempty] at hmem
  cases hmem

theorem Meaning.written?_expr {m : Meaning} {e : Expr} (h : m.written? = some e) :
    (Meaning.expr e).written? = some e := by
  unfold Meaning.written? at h
  split at h
  · cases h
    rfl
  · split at h
    · rename_i hnames
      cases h
      rw [Meaning.written?, if_pos hnames]
    · cases h
  · cases h

namespace Evaluator

variable {ev : Evaluator} {done args : List String} {text : String} {fn : NamedFunction}

/-- A function of its own parameters writes what its body writes; both
write nothing if it could not be bound. -/
theorem Current.writes?_call (h : ev.Current done)
    (hdone : ∀ n ∈ done, n ∈ ev.definitions.names) (hA : ev.algebra.Reproduces)
    (hget : ev.definitions.get? fn.name = some fn) (hmem : fn.name ∈ done)
    (hlegal : LegalName fn.name) (hkind : fn.kind = .scalar)
    (hfree : ∀ n ∈ fn.params, ev.definitions.referent [] n = .free) (hcalled : fn.CalledIn text)
    (hargs : fn.name ∉ args) : ev.writes? text args = ev.writes? fn.body fn.params := by
  have hbinding := (h.binding fn hget hmem (Or.inl hkind)).2
  have hparams : fn.params.isEmpty = false := by
    unfold NamedFunction.kind at hkind
    dsimp only at hkind
    repeat' split at hkind
    all_goals first
      | (cases hkind; done)
      | simpa using ‹¬ fn.params.isEmpty = true›
  have hmeanings := Term.meanings?_names (s := ev.scope args) fun n hn =>
    h.meaning_of_free hdone (hfree n hn) args
  have hmeaning : textMeaning? (ev.scope args) text =
      Meaning.call? ev.algebra ((ev.scope args).meaning fn.name true)
        ((fn.params.map .var).map .expr) := by
    rw [textMeaning?_eq hcalled, Term.meaning?, Term.meaning?, hmeanings]
    rfl
  have hword : fn.name ∉ Scope.words := fun hword =>
    hlegal.ne_of_mem (List.mem_append_left _ hword) rfl
  rw [writes?, Expr.toOption_ofText, hmeaning, Scope.meaning_of_free hword hargs hlegal.library_eq]
  rw [show (ev.scope args).bindings = ev.bindings from rfl, hbinding]
  cases hwrites : ev.writes? fn.body fn.params with
  | none =>
      dsimp only [Option.map_none]
      rw [if_pos rfl, Meaning.call?, Meaning.mapM_argument?, Option.map_some, Option.bind_some]
      exact Meaning.written?_unknownCall _ _
  | some e =>
      dsimp only [Option.map_some]
      rw [hparams, if_neg Bool.false_ne_true, Meaning.call?_own (h.built_writes? hA hwrites),
        Option.bind_some]
      rw [writes?, Expr.toOption_ofText] at hwrites
      obtain ⟨m, -, hm⟩ := Option.bind_eq_some_iff.mp hwrites
      exact Meaning.written?_expr hm

end Evaluator

/-! ## Fields of texts that write the same -/

namespace Field

section Alike

variable {α β : Type} {r r' : Except Failure α}

/-- The results are the same, or a safe field hides both. -/
def Alike (r r' : Except Failure α) : Prop :=
  r = r' ∨ ∃ f f', r = .error f ∧ r' = .error f' ∧ hides f = true ∧ hides f' = true

theorem Alike.refl (r : Except Failure α) : Alike r r := Or.inl rfl

theorem Alike.bind {k k' : α → Except Failure β} (hr : Alike r r') (hk : ∀ a, Alike (k a) (k' a)) :
    Alike (r >>= k) (r' >>= k') := by
  rcases hr with rfl | ⟨f, f', rfl, rfl, hf, hf'⟩
  · cases r with
    | error f => exact .refl _
    | ok a => exact hk a
  · exact Or.inr ⟨f, f', rfl, rfl, hf, hf'⟩

theorem Alike.mapM {f f' : α → Except Failure β} (h : ∀ a, Alike (f a) (f' a)) (as : List α) :
    Alike (as.mapM f) (as.mapM f') := by
  induction as with
  | nil => exact .refl _
  | cons a as ih =>
      rw [List.mapM_cons, List.mapM_cons]
      exact (h a).bind fun b => ih.bind fun bs => .refl _

end Alike

/-- A safe field depends only on what it does not hide. -/
theorem safe_congr {f g : Field} (h : ∀ x y, Alike (f x y) (g x y)) : f.safe = g.safe := by
  have hpoint : ∀ a b, safePoint 0 f a b = safePoint 0 g a b := by
    intro a b
    rw [safePoint, safePoint]
    rcases h (.scalar a) (.scalar b) with heq | ⟨e, e', hf, hg, he, he'⟩
    · rw [heq]
    · rw [hf, hg]
      dsimp only
      rw [if_pos he, if_pos he']
  funext x y
  rw [safe, safe, funext₂ hpoint]
  rcases h x y with heq | ⟨e, e', hf, hg, he, he'⟩
  · rw [heq]
  · rw [hf, hg]
    dsimp only
    rw [he, he']
    rfl

end Field

namespace Prepared

/-- The callable under another text. -/
def withText (p : Prepared) (text : String) : Prepared :=
  { p with formula := { p.formula with text } }

/-- The code of an expression has nothing of the text. -/
theorem ofExpr_withText (text text' : String) (args : List String) (e : Expr) :
    ofExpr text' args e = (ofExpr text args e).map (·.withText text') := by
  unfold ofExpr
  split
  · rfl
  · split <;> rfl

/-- The text stands in faults only, which a safe field hides. -/
theorem alike_call_withText (p : Prepared) (text : String) (environment : Assignment)
    (values : List Samples) (overrides : Assignment) :
    Field.Alike (p.call environment values overrides)
      ((p.withText text).call environment values overrides) := by
  have hinputs : ∀ find? : String → Option Samples,
      Field.Alike (p.inputs find? values) ((p.withText text).inputs find? values) := by
    intro find?
    have hfree : Field.Alike (p.freeValues find?) ((p.withText text).freeValues find?) := by
      refine Field.Alike.mapM (fun n => ?_) _
      cases find? n with
      | some v => exact .refl _
      | none => exact Or.inr ⟨_, _, rfl, rfl, rfl, rfl⟩
    unfold Prepared.inputs
    rw [show (p.withText text).formula.args = p.formula.args from rfl]
    dsimp only
    split
    · exact Or.inr ⟨_, _, rfl, rfl, rfl, rfl⟩
    · exact hfree.bind fun free => .refl _
  unfold Prepared.call
  dsimp only
  split
  · exact .refl _
  · exact (hinputs _).bind fun inputs => .refl _

end Prepared

namespace Session

/-- The field that the session plots at this time. -/
def plotted (s : Session) (time : Option Float) : Except Failure Field :=
  ((potential time).run.run s).1

/-- A text without meaning is plotted flat. -/
theorem plotted_eq (p : Program) (ev : Evaluator) (ws : List String) (time : Option Float) :
    plotted ⟨some p, some ev, ws⟩ time =
      match ev.compile p.surfaceExpr ["x", "y"] with
      | .ok f => .ok (Field.ofPrepared f ev.environment (p.frameValues time)).safe
      | .error (.expression _) => .ok Field.zero
      | .error f => .error f := by
  have hkept : (ev.compileKept p.surfaceExpr ["x", "y"]).2.environment = ev.environment :=
    Evaluator.compileKept_environment ev p.surfaceExpr ["x", "y"]
  rw [plotted, potential, run_bind, run_frame, Evaluator.compileKept_answer]
  cases ev.compile p.surfaceExpr ["x", "y"] with
  | ok f =>
      rw [← hkept]
      rfl
  | error f => cases f <;> rfl

/-- Texts that are read as the same expression are plotted alike. -/
theorem plotted_congr {p q : Program} {ev : Evaluator} (hprepared : ev.prepared = [])
    (hanimation : q.animation = p.animation)
    (hread : (ev.read p.surfaceExpr ["x", "y"]).toOption =
      (ev.read q.surfaceExpr ["x", "y"]).toOption) (ws : List String) (time : Option Float) :
    plotted ⟨some p, some ev, ws⟩ time = plotted ⟨some q, some ev, ws⟩ time := by
  have hvalues : q.frameValues time = p.frameValues time := by
    rw [Program.frameValues, Program.frameValues, hanimation]
  rw [plotted_eq, plotted_eq, Evaluator.compile, Evaluator.compile, hprepared, hvalues]
  dsimp only [List.lookup_nil]
  cases hr : ev.read p.surfaceExpr ["x", "y"] with
  | error f =>
      cases hr' : ev.read q.surfaceExpr ["x", "y"] with
      | error f' => rfl
      | ok e =>
          rw [hr, hr'] at hread
          cases hread
  | ok e =>
      rw [hr] at hread
      rw [eq_ok_of_toOption hread.symm]
      dsimp only
      rw [Prepared.ofExpr_withText p.surfaceExpr q.surfaceExpr]
      cases Prepared.ofExpr p.surfaceExpr ["x", "y"] e with
      | error f => rfl
      | ok f =>
          refine congrArg Except.ok (Field.safe_congr fun x y => ?_)
          exact f.alike_call_withText _ _ _ _

end Session

/-! ## Plots as they are written -/

/-- The plot with the text that was written in the place of the one that is
evaluated. -/
def Plot.asWritten : Plot → Plot
  | .surface e source implicit => .surface (if implicit then e else source) source implicit
  | q => q

namespace Program

/-- The program with its calls in the place of the bodies. -/
def asWritten (p : Program) : Program := { p with plots := p.plots.map Plot.asWritten }

/-- The text calls a function with the names of its parameters, and its
body is plotted. -/
def OwnCall (ds : Definitions) (fn : NamedFunction) (text : String) : Prop :=
  ∃ name opening rest, tokenizeText text = name :: opening :: rest ∧
    (name.kind = .ident ∧ opening.kind = .lparen ∧ rest.getLast?.map Token.kind = some .rparen) ∧
      ds.get? name.value = some fn ∧ fn.kind = .scalar ∧
        plainArguments? rest.dropLast = some fn.params

/-- Only own calls are replaced. -/
theorem inlined_cases (ds : Definitions) (text : String) :
    inlined ds text = text ∨ ∃ fn, OwnCall ds fn text ∧ inlined ds text = fn.body := by
  unfold inlined
  split
  · rename_i name opening rest htokens
    split
    · rename_i hform
      split
      · rename_i fn hget
        split
        · rename_i hown
          simp only [Bool.and_eq_true, beq_iff_eq] at hform hown
          exact Or.inr ⟨fn, ⟨name, opening, rest, htokens, ⟨hform.1.1, hform.1.2, hform.2⟩,
            hget, hown.1, hown.2⟩, rfl⟩
        · exact Or.inl rfl
      · exact Or.inl rfl
    · exact Or.inl rfl
  · exact Or.inl rfl

/-- What is plotted of an accepted program was written, but for the flat
surface in front of fields. -/
theorem surface_of_ofSource {source : String} {p : Program} (h : ofSource source = .ok p)
    {e text : String} (hmem : .surface e text false ∈ p.plots) :
    e = inlined p.definitions text := by
  obtain ⟨_, d, -, -, hsound, hcompletes⟩ := completes_of_ofSource h
  obtain ⟨written, -, -, hfrom, hplots⟩ := hcompletes.plots_cases hsound
  have hwritten : .surface e text false ∈ written := by
    rcases hplots with ⟨hp, -⟩ | ⟨hp, -⟩
    · exact hp ▸ hmem
    · rw [hp] at hmem
      rcases List.mem_cons.mp hmem with heq | hmem
      · cases heq
      · exact hmem
  obtain ⟨⟨line, q⟩, -, hq⟩ := hfrom _ hwritten
  cases q with
  | surface e' text' implicit =>
      obtain ⟨rfl, rfl, rfl⟩ := Plot.surface.inj hq
      rw [hcompletes.definitions]
  | vectorField => cases hq
  | tensorField => cases hq

/-- The surface that is evaluated, with the text that was written for
it. -/
theorem surfaceExpr_cases (p : Program) : p.asWritten.surfaceExpr = p.surfaceExpr ∨
    .surface p.surfaceExpr p.asWritten.surfaceExpr false ∈ p.plots := by
  obtain ⟨_, _, _, _, _, plots, _, _, _, _, _⟩ := p
  induction plots with
  | nil => exact Or.inl rfl
  | cons q plots ih =>
      cases q with
      | surface e text implicit =>
          cases implicit with
          | true => exact Or.inl rfl
          | false => exact Or.inr List.mem_cons_self
      | vectorField | tensorField => exact ih.imp id (List.mem_cons_of_mem _)

/-- Every function that is plotted by an own call is read as it is called,
and its parameters mean nothing else. -/
def PlainCalls (p : Program) : Prop :=
  ∀ e text, .surface e text false ∈ p.plots → ∀ fn, OwnCall p.definitions fn text →
    fn.CalledIn text ∧ fn.Plain p.definitions

/-- In a program whose own calls are plain, a body writes what its call
writes, and the program plots the same field with the calls as they were
written, at any time and for any values of the variables. -/
theorem potential_asWritten {source : String} {p : Program} {environment : Assignment} {A : Algebra}
    {ev : Evaluator} {ws : List String} (hsource : ofSource source = .ok p) (hA : A.Reproduces)
    (hdiscernible : p.definitions.Discernible) (hcalls : p.PlainCalls)
    (hev : Evaluator.ofOrder p.definitions p.order environment A = .ok (ev, ws)) :
    ev.writes? p.surfaceExpr ["x", "y"] = ev.writes? p.asWritten.surfaceExpr ["x", "y"] ∧
      ∀ warnings time, Session.plotted ⟨some p, some ev, warnings⟩ time =
        Session.plotted ⟨some p.asWritten, some ev, warnings⟩ time := by
  have hvalid := (valid_of_ofSource hsource).1
  have hlegal := legal_of_ofSource hsource
  obtain ⟨hcurrent, hdefinitions, halgebra⟩ :=
    Evaluator.current_of_ofOrder hlegal hvalid.names hvalid.order hvalid.follows hdiscernible hev
  rw [← hdefinitions] at hlegal
  have hdone : ∀ n ∈ p.order, n ∈ ev.definitions.names :=
    fun n hn => hdefinitions ▸ hvalid.order.mem_iff.mp hn
  have hwrites : ev.writes? p.surfaceExpr ["x", "y"] =
      ev.writes? p.asWritten.surfaceExpr ["x", "y"] := by
    rcases p.surfaceExpr_cases with heq | hmem
    · rw [heq]
    · have hinlined := surface_of_ofSource hsource hmem
      rcases inlined_cases p.definitions p.asWritten.surfaceExpr with heq | ⟨fn, hown, hbody⟩
      · rw [hinlined, heq]
      · obtain ⟨hcalled, hfree, huncalled⟩ := hcalls _ _ hmem fn hown
        obtain ⟨name, _, _, _, _, hget, hkind, _⟩ := hown
        rw [← Definitions.name_of_get? hget, ← hdefinitions] at hget
        rw [← hdefinitions] at hfree
        have hname := Definitions.mem_names_of_get? hget
        have hcoordinates : ∀ n ∈ ["x", "y"] ++ fn.params,
            ev.definitions.referent [] n = .free ∧ n ≠ "I" := by
          intro n hn
          rcases List.mem_append.mp hn with hn | hn
          · refine ⟨hlegal.referent_coordinate hn, ?_⟩
            rintro rfl
            revert hn
            decide
          · exact hfree n hn
        have hargs : fn.name ∉ ["x", "y"] := fun hmem =>
          (Definitions.of_referent_free (hlegal.referent_coordinate hmem)).2.1 hname
        rw [hinlined, hbody, hcurrent.writes?_free hdone hcoordinates huncalled]
        rw [hcurrent.writes?_call hdone (halgebra ▸ hA) hget
          (hvalid.order.mem_iff.mpr (hdefinitions ▸ hname)) (hlegal _ hname) hkind
          (fun n hn => (hfree n hn).1) hcalled hargs]
  refine ⟨hwrites, fun warnings time => ?_⟩
  refine Session.plotted_congr (p := p) (q := p.asWritten) hcurrent.prepared rfl ?_ warnings time
  rw [hcurrent.toOption_read, hcurrent.toOption_read, hwrites]

end Program

/-- Operations that are kept as they are written come out of building as
they were. -/
theorem Algebra.literal_reproduces : literal.Reproduces := by
  have hbuilt : ∀ {h : Head} {as : List Expr}, Expr.leavesLine h as = false →
      (∀ a ∈ as, a.Built literal) → (Expr.node h as).Built literal :=
    fun hline has => Expr.built_node (if_neg (by rw [hline]; exact Bool.false_ne_true)) has
  have hquotient : ∀ {a b : Expr}, a.Built literal → b.Built literal →
      (Expr.mul [a, .pow b (.ofInt (-1))]).Built literal := by
    intro a b ha hb
    have hline : Expr.leavesLine .pow [b, .ofInt (-1)] = false := by
      cases b with
      | num n => exact Bool.and_false _
      | _ => rfl
    have hpower : (Expr.pow b (.ofInt (-1))).Built literal :=
      hbuilt hline (by simpa using ⟨hb, Expr.built_ofInt (-1)⟩)
    exact hbuilt rfl (by simpa using ⟨ha, hpower⟩)
  have hlog : ∀ {a : Expr}, a.Built literal → (Expr.node (.fn .log) [a]).Built literal :=
    fun ha => hbuilt rfl (by simpa using ha)
  refine ⟨fun hbuild has => ?_, hquotient, fun ha hb => hquotient (hlog ha) (hlog hb), ?_⟩
  · simp only [literal] at hbuild
    split at hbuild
    · cases hbuild
    · rename_i hline
      obtain rfl := Option.some.inj hbuild
      exact hbuilt (Bool.not_eq_true _ ▸ hline) has
  · exact fun n as => rfl

namespace Program

deriving instance DecidableEq for Plot

/-- A parameter is the parameter of the animation, and the other one a
coordinate. -/
theorem potential_asWritten_moving : ∃ p ev ws, ofSource ("DEF FNF(x, t) = SIN(x)^t\n"
      ++ "PLOT3D FNF(x, t)\nANIMATE t FROM 0 TO 1 STEP 1") = .ok p ∧
    p.surfaceExpr = "SIN(x)^t" ∧ p.asWritten.surfaceExpr = "FNF(x, t)" ∧
    Evaluator.ofOrder p.definitions p.order [] .literal = .ok (ev, ws) ∧
    (ev.writes? p.surfaceExpr ["x", "y"] = ev.writes? p.asWritten.surfaceExpr ["x", "y"] ∧
      ∀ warnings time, Session.plotted ⟨some p, some ev, warnings⟩ time =
        Session.plotted ⟨some p.asWritten, some ev, warnings⟩ time) := by
  have hok : ((ofSource ("DEF FNF(x, t) = SIN(x)^t\n"
      ++ "PLOT3D FNF(x, t)\nANIMATE t FROM 0 TO 1 STEP 1")).toOption.map
        fun p => (p.definitions, p.order, p.plots)) =
      some ([⟨"FNF", ["x", "t"], "SIN(x)^t", 1⟩], ["FNF"],
        [.surface "SIN(x)^t" "FNF(x, t)" false]) := by decide +kernel
  obtain ⟨p, hp, hparts⟩ := Option.map_eq_some_iff.mp hok
  obtain ⟨hdefinitions, hparts⟩ := Prod.mk.inj hparts
  obtain ⟨horder, hplots⟩ := Prod.mk.inj hparts
  have hbound : (Evaluator.ofOrder p.definitions p.order [] .literal).toOption.isSome = true := by
    rw [hdefinitions, horder]
    decide +kernel
  obtain ⟨⟨ev, ws⟩, hev⟩ := Option.isSome_iff_exists.mp hbound
  have hev := eq_ok_of_toOption hev
  have hdiscernible : p.definitions.Discernible := by
    rw [hdefinitions]
    decide +kernel
  have hcalls : p.PlainCalls := by
    intro e text hmem fn ⟨name, _, _, _, _, hget, _⟩
    rw [hplots] at hmem
    obtain ⟨rfl, rfl, -⟩ := Plot.surface.inj (List.mem_singleton.mp hmem)
    rw [hdefinitions] at hget ⊢
    obtain rfl := List.mem_singleton.mp (List.mem_of_find?_eq_some hget)
    have htables : ∀ n ∈ ["x", "t"], n ∉ ["PI", "pi", "E", "e"] ∧ Builtin.ofName? n = none ∧
        Builtin.fallback.lookup n = none ∧ n ≠ "I" := by decide +kernel
    refine ⟨by rw [NamedFunction.CalledIn]; cbv, fun n hn => ?_, by decide +kernel⟩
    obtain ⟨hconstant, hname, hfallback, hunit⟩ := htables n hn
    rw [← Referent.library_eq_free hconstant hname hfallback]
    refine ⟨?_, hunit⟩
    fin_cases hn <;> rfl
  refine ⟨p, ev, ws, eq_ok_of_toOption hp, ?_, ?_, hev,
    potential_asWritten (eq_ok_of_toOption hp) Algebra.literal_reproduces hdiscernible hcalls hev⟩
  · rw [surfaceExpr, hplots]
    rfl
  · rw [surfaceExpr, asWritten, hplots]
    rfl

/-- The function cannot be bound, because its parameter hides the absolute
value. Its call reads as zero, but its body is plotted with the absolute
value in it. -/
theorem potential_shadowed : ∃ p ev ws,
    ofSource "DEF FNF(ABS, y) = ABS(y)\nPLOT3D FNF(ABS, y)" = .ok p ∧ p.evaluator = .ok (ev, ws) ∧
      ((Session.plotted ⟨some p, some ev, ws⟩ none).bind (·.potential 0 1)).toOption = some 1 ∧
      ((Session.plotted ⟨some p.asWritten, some ev, ws⟩ none).bind
        (·.potential 0 1)).toOption = some 0 := by
  have hheights : ((ofSource "DEF FNF(ABS, y) = ABS(y)\nPLOT3D FNF(ABS, y)").toOption.bind fun p =>
      p.evaluator.toOption.map fun r =>
        (((Session.plotted ⟨some p, some r.1, r.2⟩ none).bind (·.potential 0 1)).toOption,
          ((Session.plotted ⟨some p.asWritten, some r.1, r.2⟩ none).bind
            (·.potential 0 1)).toOption)) = some (some 1, some 0) := by decide +kernel
  obtain ⟨p, hp, hheights⟩ := Option.bind_eq_some_iff.mp hheights
  obtain ⟨⟨ev, ws⟩, hev, hheights⟩ := Option.map_eq_some_iff.mp hheights
  obtain ⟨hinlined, hwritten⟩ := Prod.mk.inj hheights
  exact ⟨p, ev, ws, eq_ok_of_toOption hp, eq_ok_of_toOption hev, hinlined, hwritten⟩

end Program

end FieldScript
