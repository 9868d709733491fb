import FieldScript.Proofs.DefinitionOrder
import FieldScript.Proofs.TermValue

/-!
# Values of definitions

Definitions by call-by-value evaluation of their bodies, with two rules
for a name that a body leaves free. In lexical scope it is a variable of
the evaluator; in dynamic scope it is what the callers make of it, the
parameter of the nearest caller that has one of this name.

Evaluation takes the depth of calls as fuel. A definition that could not
be bound has no value, and neither has what uses it.

Both rules agree where no name that is free in a definition is a
parameter of a caller (`Definitions.value?_dynamic`).
-/

namespace FieldScript

/-! ## Terms of bodies -/

def Lexeme.isFactorial : Lexeme → Bool
  | .op s => s == "!"
  | _ => false

/-- The term of the text of a definition. A factorial sign is rewritten
before there are terms, and a nameless function is none. -/
def Term.ofBody? (text : String) : Option Term := do
  let cs := trim text.toList
  let ls ← Lexeme.scan? (cs.length + 1) 0 cs
  if ls.any Lexeme.isFactorial || (splitAbstraction? ls).isSome then none else Term.ofLexemes? ls

theorem expandFactorials?_eq {known : String → Bool} {done ls : List Lexeme}
    (h : ls.any Lexeme.isFactorial = false) :
    Lexeme.expandFactorials? known done ls = some (done.reverse ++ ls) := by
  induction ls generalizing done with
  | nil => rw [Lexeme.expandFactorials?, List.append_nil]
  | cons l ls ih =>
      rw [List.any_cons, Bool.or_eq_false_iff] at h
      have hstep : Lexeme.expandFactorials? known done (l :: ls)
          = Lexeme.expandFactorials? known (l :: done) ls := by
        rw [Lexeme.expandFactorials?.eq_def]
        split
        · rename_i heq
          cases heq
        · rename_i heq
          obtain ⟨rfl, -⟩ := List.cons.inj heq
          cases h.1
        · rename_i heq
          obtain ⟨rfl, -⟩ := List.cons.inj heq
          cases h.1
        · rename_i heq
          obtain ⟨rfl, rfl⟩ := List.cons.inj heq
          rfl
      rw [hstep, ih h.2, List.reverse_cons, List.append_assoc]
      rfl

/-- A text means what its term means. -/
theorem textMeaning?_eq {s : Scope} {text : String} {t : Term} (h : Term.ofBody? text = some t) :
    textMeaning? s text = t.meaning? s := by
  obtain ⟨ls, hls, h⟩ := Option.bind_eq_some_iff.mp h
  split at h
  · cases h
  · rename_i hplain
    rw [Bool.not_eq_true, Bool.or_eq_false_iff, Option.isSome_eq_false_iff,
      Option.isNone_iff_eq_none] at hplain
    have hread : Lexeme.ofText? s.knows (trim text.toList) = some ls := by
      refine Option.bind_eq_some_iff.mpr ⟨ls, hls, ?_⟩
      exact expandFactorials?_eq hplain.1
    unfold textMeaning?
    rw [hread, Option.bind_eq_bind, Option.bind_some, hplain.2]
    exact congrArg (·.bind (Term.meaning? s)) h

/-! ## Evaluation -/

/-- What a name that a body leaves free refers to. -/
inductive ScopeRule where
  /-- A variable of the evaluator. -/
  | lexical
  /-- What it refers to where the definition is called. -/
  | dynamic

/-- The variables around a body; `V` are those of the evaluator, `σ` those
of the caller. -/
def ScopeRule.around (rule : ScopeRule) (V σ : Valuation) : Valuation :=
  match rule with
  | .lexical => V
  | .dynamic => σ

/-- What a name in a body refers to. -/
inductive Referent where
  /-- Nothing that has a value. -/
  | word
  | parameter
  | definition
  | constant (e : Expr)
  | function (b : Builtin)
  /-- A variable. -/
  | free

/-- What a name of the library refers to, and any other name that is
neither a parameter nor a definition. -/
def Referent.library (n : String) : Referent :=
  if n == "PI" || n == "pi" then .constant .pi
  else if n == "E" || n == "e" then .constant .euler
  else
    match Builtin.ofName? n with
    | some b => .function b
    | none => if (Builtin.fallback.lookup n).isSome then .word else .free

namespace Definitions

/-- Parameters count before definitions, and definitions before the
library. -/
def referent (ds : Definitions) (params : List String) (n : String) : Referent :=
  if Scope.words.contains n then .word
  else if params.contains n then .parameter
  else if ds.contains n then .definition
  else .library n

/-- What names and calls in a body are worth. A constant is no function
and a function is no number. -/
noncomputable def interpretation (ds : Definitions) (params : List String) (τ : Valuation)
    (call? : String → List Value → Option Value) : Interpretation where
  name? n :=
    match ds.referent params n with
    | .parameter | .free => τ n
    | .definition => call? n []
    | .constant e => e.value? fun _ => none
    | .word | .function _ => none
  call? n vs :=
    match ds.referent params n with
    | .definition => if vs.isEmpty then none else call? n vs
    | .function b => b.value? vs
    | _ => none

section

variable {ds : Definitions} {params : List String} {τ : Valuation}
  {call? : String → List Value → Option Value} {n : String}

theorem name?_parameter (h : ds.referent params n = .parameter) :
    (ds.interpretation params τ call?).name? n = τ n := by
  simp only [interpretation, h]

theorem name?_free (h : ds.referent params n = .free) :
    (ds.interpretation params τ call?).name? n = τ n := by
  simp only [interpretation, h]

theorem call?_definition (h : ds.referent params n = .definition) {v : Value} {vs : List Value} :
    (ds.interpretation params τ call?).call? n (v :: vs) = call? n (v :: vs) := by
  simp only [interpretation, h]
  rfl

end

/-- The value of a definition for these arguments, called where `σ` tells
the variables; `V` tells those of the evaluator. -/
noncomputable def value? (ds : Definitions) (bound : String → Bool) (V : Valuation)
    (rule : ScopeRule) : Nat → Valuation → String → List Value → Option Value
  | 0, _, _, _ => none
  | depth + 1, σ, f, vs => do
    let fn ← ds.get? f
    let t ← Term.ofBody? fn.body
    if bound f && fn.params.length == vs.length then
      let τ := (rule.around V σ).withArgs fn.params vs
      t.value? (ds.interpretation fn.params τ (value? ds bound V rule depth τ))
    else none

section

variable {ds : Definitions} {bound : String → Bool} {V : Valuation} {rule : ScopeRule} {depth : Nat}

/-- A value is that of the body, with the arguments for the parameters. -/
theorem value?_eq_some {σ : Valuation} {f : String} {vs : List Value} {v : Value} :
    ds.value? bound V rule (depth + 1) σ f vs = some v ↔
      ∃ fn t, ds.get? f = some fn ∧ Term.ofBody? fn.body = some t ∧ bound f = true ∧
        fn.params.length = vs.length ∧
        t.value? (ds.interpretation fn.params ((rule.around V σ).withArgs fn.params vs)
          (ds.value? bound V rule depth ((rule.around V σ).withArgs fn.params vs))) = some v := by
  rw [value?]
  refine Option.bind_eq_some_iff.trans (exists_congr fun fn => ?_)
  rw [exists_and_left]
  refine and_congr_right fun _ => Option.bind_eq_some_iff.trans (exists_congr fun t => ?_)
  refine and_congr_right fun _ => ?_
  cases bound f with
  | false => simp
  | true => by_cases hlength : fn.params.length = vs.length <;> simp [hlength]

end

/-! ## Where the rules agree -/

def paramsOf (ds : Definitions) (f : String) : List String :=
  ((ds.get? f).map (·.params)).getD []

/-- The body of a definition has a name that refers to this. -/
def Names (ds : Definitions) (f n : String) (r : Referent) : Prop :=
  ∃ fn t, ds.get? f = some fn ∧ Term.ofBody? fn.body = some t ∧ n ∈ t.names ∧
    ds.referent fn.params n = r

/-- The body of a definition uses another one. -/
def Uses (ds : Definitions) (f h : String) : Prop := ds.Names f h .definition

/-- A variable that a definition reads, itself or through others, and that
none of their parameters stands for. -/
inductive Free (ds : Definitions) : String → String → Prop
  | own {f n : String} (hnames : ds.Names f n .free) : Free ds f n
  | through {f h n : String} (huses : ds.Uses f h) (hfree : Free ds h n)
      (hparam : n ∉ ds.paramsOf f) : Free ds f n

/-- No parameter of a caller has the name of a variable that is free in
what it calls, wherever evaluation of the definition leads. -/
def Scoped (ds : Definitions) (g : String) : Prop :=
  ∀ f, Relation.ReflTransGen ds.Uses g f → ∀ h, ds.Uses f h → ∀ n, ds.Free h n → n ∉ ds.paramsOf f

variable {ds : Definitions} {bound : String → Bool} {V : Valuation}

theorem Scoped.uses {g h : String} (hg : ds.Scoped g) (hh : ds.Uses g h) : ds.Scoped h :=
  fun f hf => hg f (hf.head hh)

theorem paramsOf_eq {f : String} {fn : NamedFunction} (h : ds.get? f = some fn) :
    ds.paramsOf f = fn.params := by
  rw [paramsOf, h]
  rfl

theorem lookup_zip_of_mem {β : Type} {ns : List String} {bs : List β} {n : String}
    (hlength : ns.length = bs.length) (h : n ∈ ns) : ∃ b, (ns.zip bs).lookup n = some b := by
  rw [← Option.isSome_iff_exists, List.lookup_isSome_iff]
  rw [← List.map_fst_zip hlength.le] at h
  obtain ⟨p, hp, rfl⟩ := List.mem_map.mp h
  exact ⟨p, hp, beq_self_eq_true _⟩

theorem lookup_zip_of_notMem {β : Type} {ns : List String} {bs : List β} {n : String}
    (h : n ∉ ns) : (ns.zip bs).lookup n = none := by
  rw [List.lookup_eq_none_iff]
  intro p hp
  have hmem := (List.of_mem_zip hp).1
  rw [bne_iff_ne]
  rintro rfl
  exact h hmem

/-- What is no parameter is worth the same inside a call. -/
theorem withArgs_of_notMem {σ : Valuation} {params : List String} {vs : List Value} {n : String}
    (h : n ∉ params) : σ.withArgs params vs n = σ n := by
  rw [Valuation.withArgs, lookup_zip_of_notMem h, Option.none_or]

/-- A parameter has an argument, whatever is around the call. -/
theorem withArgs_of_mem {σ τ : Valuation} {params : List String} {vs : List Value} {n : String}
    (hlength : params.length = vs.length) (h : n ∈ params) :
    σ.withArgs params vs n = τ.withArgs params vs n := by
  obtain ⟨v, hv⟩ := lookup_zip_of_mem hlength h
  rw [Valuation.withArgs, Valuation.withArgs, hv, Option.some_or, Option.some_or]

/-- Which names refer to what. -/
theorem referent_cases (ds : Definitions) (params : List String) (n : String) :
    (Scope.words.contains n = true ∧ ds.referent params n = .word) ∨
    (Scope.words.contains n = false ∧ n ∈ params ∧ ds.referent params n = .parameter) ∨
    (Scope.words.contains n = false ∧ n ∉ params ∧ n ∈ ds.names ∧
      ds.referent params n = .definition) ∨
    (Scope.words.contains n = false ∧ n ∉ params ∧ n ∉ ds.names ∧
      ds.referent params n = .library n) := by
  unfold referent
  rw [← contains_iff, ← List.contains_iff_mem]
  cases Scope.words.contains n with
  | true => simp
  | false =>
      cases params.contains n with
      | true => simp
      | false => cases ds.contains n <;> simp

theorem library_ne (n : String) :
    Referent.library n ≠ .parameter ∧ Referent.library n ≠ .definition := by
  unfold Referent.library
  refine ⟨?_, ?_⟩ <;> (repeat' split) <;> simp

theorem mem_of_referent_parameter {params : List String} {n : String}
    (h : ds.referent params n = .parameter) : n ∈ params := by
  rcases ds.referent_cases params n with ⟨-, hr⟩ | ⟨-, hn, -⟩ | ⟨-, -, -, hr⟩ | ⟨-, -, -, hr⟩
  · cases hr.symm.trans h
  · exact hn
  · cases hr.symm.trans h
  · exact absurd (hr.symm.trans h) (library_ne n).1

theorem notMem_of_referent_free {params : List String} {n : String}
    (h : ds.referent params n = .free) : n ∉ params := by
  rcases ds.referent_cases params n with ⟨-, hr⟩ | ⟨-, -, hr⟩ | ⟨-, hn, -⟩ | ⟨-, hn, -⟩
  · cases hr.symm.trans h
  · cases hr.symm.trans h
  · exact hn
  · exact hn

theorem of_referent_definition {params : List String} {n : String}
    (h : ds.referent params n = .definition) : n ∉ params ∧ n ∈ ds.names := by
  rcases ds.referent_cases params n with ⟨-, hr⟩ | ⟨-, -, hr⟩ | ⟨-, hparam, hn, -⟩ | ⟨-, -, -, hr⟩
  · cases hr.symm.trans h
  · cases hr.symm.trans h
  · exact ⟨hparam, hn⟩
  · exact absurd (hr.symm.trans h) (library_ne n).2

theorem referent_of_mem_names {params : List String} {n : String} (hn : n ∈ ds.names)
    (hparam : ds.referent params n ≠ .parameter) (hword : ds.referent params n ≠ .word) :
    ds.referent params n = .definition := by
  rcases ds.referent_cases params n with ⟨-, hr⟩ | ⟨-, -, hr⟩ | ⟨-, -, -, hr⟩ | ⟨-, -, hnot, -⟩
  · exact absurd hr hword
  · exact absurd hr hparam
  · exact hr
  · exact absurd hn hnot

/-- Interpretations agree on a name if they agree on what it refers to. -/
theorem interpretation_congr {params : List String} {τ τ' : Valuation}
    {call? call?' : String → List Value → Option Value} {n : String}
    (hparameter : ds.referent params n = .parameter → τ n = τ' n)
    (hfree : ds.referent params n = .free → τ n = τ' n)
    (hdefinition : ds.referent params n = .definition → call? n = call?' n) :
    (ds.interpretation params τ call?).name? n = (ds.interpretation params τ' call?').name? n ∧
      (ds.interpretation params τ call?).call? n = (ds.interpretation params τ' call?').call? n := by
  simp only [interpretation]
  cases href : ds.referent params n with
  | parameter => exact ⟨hparameter href, rfl⟩
  | free => exact ⟨hfree href, rfl⟩
  | definition => exact ⟨by rw [hdefinition href], by rw [hdefinition href]⟩
  | _ => exact ⟨rfl, rfl⟩

/-- Both rules give a definition the same value if no free name is
captured. -/
theorem value?_dynamic {depth : Nat} {σ σ' : Valuation} {g : String} {vs : List Value}
    (hg : ds.Scoped g) (hσ : ∀ n, ds.Free g n → σ n = V n) :
    ds.value? bound V .dynamic depth σ g vs = ds.value? bound V .lexical depth σ' g vs := by
  induction depth generalizing g vs σ σ' with
  | zero => rfl
  | succ depth ih =>
      refine Option.ext fun v => value?_eq_some.trans (Iff.trans ?_ value?_eq_some.symm)
      refine exists_congr fun fn => exists_congr fun t => ?_
      refine and_congr_right fun hget => and_congr_right fun ht => ?_
      refine and_congr_right fun _ => and_congr_right fun hlength => ?_
      rw [Term.value?_congr fun n hn => ?_]
      refine interpretation_congr (fun href => ?_) (fun href => ?_) (fun href => funext fun ws => ?_)
      · exact withArgs_of_mem hlength (mem_of_referent_parameter href)
      · have hparam := notMem_of_referent_free href
        rw [withArgs_of_notMem hparam, withArgs_of_notMem hparam]
        exact hσ n (.own ⟨fn, t, hget, ht, hn, href⟩)
      · have huses : ds.Uses g n := ⟨fn, t, hget, ht, hn, href⟩
        refine ih (hg.uses huses) fun m hm => ?_
        have hm' := hg g .refl n huses m hm
        rw [withArgs_of_notMem (paramsOf_eq hget ▸ hm')]
        exact hσ m (.through huses hm hm')

end Definitions
end FieldScript
