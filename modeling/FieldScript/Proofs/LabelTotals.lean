import FieldScript.Proofs.DefinitionCalls
import FieldScript.Proofs.LabelFallbacks
import FieldScript.Proofs.SumReadings

/-!
# Totals of labels

The text of a label is cut at every plus outside brackets, and what the parts
are worth is added up. That is what the whole text is worth if it is read as
the sum of what its parts are read as (`Label.AddsUp`): the operators that are
looser than a sum stand in brackets, and a plus is a sign only in front of a
part. Minus signs, powers and brackets do not matter. The addends must have
values, since the parts may separate addends that cancel.

Other texts are the totals of their parts as well, whatever the text means as
a whole (`Label.renderText_total`).
-/

namespace FieldScript

/-- What names and calls are worth in a scope: a definition is worth its
body. -/
noncomputable def Scope.interpretation (s : Scope) (σ : Valuation) : Interpretation where
  name? n :=
    match s.meaning n false with
    | .expr e => e.value? σ
    | _ => none
  call? n vs :=
    match s.meaning n true with
    | .builtin b => b.value? vs
    | .definition params body => body.value? (σ.withArgs params vs)
    | _ => none

theorem Scope.agrees_interpretation (s : Scope) (σ : Valuation) (n : String) :
    s.Agrees (s.interpretation σ) σ n := by
  refine ⟨fun hv => ?_, fun hv => ?_⟩
  · rw [interpretation] at hv
    dsimp only at hv
    split at hv
    · exact ⟨_, by assumption, hv⟩
    · cases hv
  · rw [interpretation] at hv
    dsimp only at hv
    split at hv
    · exact .inl ⟨_, by assumption, hv⟩
    · exact .inr ⟨_, _, by assumption, hv⟩
    · cases hv

/-! ## Pluses in front of terms -/

namespace Meaning

variable {A : Algebra} {m m' r : Meaning}

/-- The meaning with a plus in front of it is the same, but for truth values,
which are counted. -/
def Counted (m m' : Meaning) : Prop :=
  m' = m ∨ ∃ b : Bool, m = .truth b ∧ m' = .count (if b then 1 else 0)

theorem counted_plus (h : unary? A .plus m = some m') : Counted m m' := by
  cases m with
  | truth b => exact .inr ⟨b, rfl, (Option.some.inj h).symm⟩
  | definition ps body => exact .inl (Option.some.inj h).symm
  | count n => exact .inl (Option.some.inj h).symm
  | expr e =>
      obtain ⟨e', he, rfl⟩ := Option.map_eq_some_iff.mp h
      rw [operand?] at he
      split at he
      · cases he
      · obtain rfl := Option.some.inj he
        exact .inl rfl
  | _ => cases h

theorem Counted.trans {m'' : Meaning} (h : Counted m m') (h' : Counted m' m'') : Counted m m'' := by
  rcases h with rfl | ⟨b, rfl, rfl⟩
  · exact h'
  · rcases h' with rfl | ⟨b', heq, -⟩
    · exact .inr ⟨b, rfl, rfl⟩
    · cases heq

theorem eq_ofInt_of_toInt? {n : Num} {k : Int} (h : n.toInt? = some k) : n = .ofInt k := by
  cases n with
  | rounded r bits => cases h
  | exact r =>
      rw [Num.toInt?] at h
      split at h
      · rename_i hden
        obtain rfl := Option.some.inj h
        exact congrArg Num.exact ((Rat.den_eq_one_iff r).mp (eq_of_beq hden)).symm
      · cases h

/-- Of truth values, only texts and groups make sequences. -/
theorem sequenceOp?_truth {op : BinaryOp} {b : Bool} (htext : ∀ s, m ≠ .text s) (hgroup : ∀ ms, m ≠ .group ms) :
    sequenceOp? op (.truth b) m = none := by
  unfold sequenceOp?
  dsimp only
  split <;> simp_all

/-- A truth value is a factor like its count. -/
theorem binary?_counted {op : BinaryOp} (hop : Term.isFactorOp op = true) {b : Bool}
    (h : binary? A op (.truth b) m = some r) : binary? A op (.count (if b then 1 else 0)) m = some r := by
  have hbits : isShiftOrBits op = false := by cases op <;> first | rfl | exact absurd hop (by decide)
  rw [binary?, hbits] at h ⊢
  cases m with
  | truth _ | count _ => exact h
  | expr e =>
      cases hn : exactInt? (.expr e) with
      | none =>
          rw [hn] at h
          cases (sequenceOp?_truth (by simp) (by simp)).symm.trans h
      | some k =>
          rw [hn] at h
          cases e with
          | num n =>
              -- the other factor is read as an integer, which it is
              have h : (if isRing op then (exprOp? A op (.ofInt (if b then 1 else 0)) (.ofInt k)).map expr else none) =
                some r := h
              show (exprOp? A op (.ofInt (if b then 1 else 0)) (.num n)).map expr = some r
              rw [eq_ofInt_of_toInt? hn]
              split at h
              · exact h
              · cases h
          | _ => cases hn
  | text s =>
      have h : sequenceOp? op (.truth b) (.text s) = some r := h
      show sequenceOp? op (.count (if b then 1 else 0)) (.text s) = some r
      cases op with
      | mul => exact h
      | _ => cases h
  | group ms =>
      have h : sequenceOp? op (.truth b) (.group ms) = some r := h
      show sequenceOp? op (.count (if b then 1 else 0)) (.group ms) = some r
      cases op with
      | mul => exact h
      | _ => cases h
  | _ => cases (sequenceOp?_truth (by simp) (by simp)).symm.trans h

end Meaning

namespace Term

variable {s : Scope} {σ : Valuation} {t : Term}

/-- Pluses in front of a term, or of its first factor, do not change what it
means unless they count a truth value. -/
theorem counted_unsigned {m m' : Meaning} (hm : t.unsigned.meaning? s = some m) (hm' : t.meaning? s = some m') :
    Meaning.Counted m m' := by
  induction t using unsigned.induct generalizing m m' with
  | case1 a ih =>
      obtain ⟨ma, hma, hplus⟩ := Option.bind_eq_some_iff.mp hm'
      exact (ih hm hma).trans (Meaning.counted_plus hplus)
  | case2 op a b hop ih =>
      rw [unsigned, if_pos hop] at hm
      obtain ⟨ma, hma, hm⟩ := Option.bind_eq_some_iff.mp hm
      obtain ⟨mb, hmb, hm⟩ := Option.bind_eq_some_iff.mp hm
      obtain ⟨ma', hma', hm'⟩ := Option.bind_eq_some_iff.mp hm'
      obtain ⟨mb', hmb', hm'⟩ := Option.bind_eq_some_iff.mp hm'
      obtain rfl := Option.some.inj (hmb.symm.trans hmb')
      rcases ih hma hma' with rfl | ⟨c, rfl, rfl⟩
      · exact .inl (Option.some.inj (hm'.symm.trans hm))
      · exact .inl (Option.some.inj (hm'.symm.trans (Meaning.binary?_counted hop hm)))
  | case3 op a b hop =>
      rw [unsigned, if_neg hop] at hm
      exact .inl (Option.some.inj (hm'.symm.trans hm))
  | case4 t hplus hbinary =>
      rw [unsigned.eq_3 t hplus hbinary] at hm
      exact .inl (Option.some.inj (hm'.symm.trans hm))

/-! ## Numbers of terms -/

/-- The number that a term is worth as an expression. -/
noncomputable def number? (s : Scope) (σ : Valuation) (t : Term) : Option ℝ :=
  match t.meaning? s with
  | some (.expr e) => (e.value? σ).bind Value.number?
  | _ => none

/-- The number that an addend adds. -/
noncomputable def addend? (s : Scope) (σ : Valuation) (a : Bool × Term) : Option ℝ :=
  (a.2.number? s σ).map fun x => if a.1 then -x else x

theorem number?_eq_some {x : ℝ} :
    t.number? s σ = some x ↔ ∃ e, t.meaning? s = some (.expr e) ∧ e.value? σ = some (.number x) := by
  rw [number?]
  constructor
  · intro h
    split at h
    · rename_i e he
      obtain ⟨v, hv, h⟩ := Option.bind_eq_some_iff.mp h
      cases v with
      | number y =>
          obtain rfl := Option.some.inj h
          exact ⟨e, he, hv⟩
      | truth b => cases h
    · cases h
  · rintro ⟨e, he, hv⟩
    rw [he]
    dsimp only
    rw [hv]
    rfl

/-- What a term is worth as it is written, it is worth as an expression. -/
theorem number?_of_value? (hA : s.algebra.Preserves) {m : Meaning} {x : ℝ} (hm : t.meaning? s = some m)
    (hx : t.value? (s.interpretation σ) = some (.number x)) : t.number? s σ = some x := by
  obtain ⟨e, rfl, he⟩ := value?_meaning? hA hm hx fun n _ => s.agrees_interpretation σ n
  exact number?_eq_some.mpr ⟨e, hm, he⟩

theorem number?_of_unsigned {m : Meaning} {x : ℝ} (hm : t.meaning? s = some m)
    (h : t.unsigned.number? s σ = some x) : t.number? s σ = some x := by
  obtain ⟨e, he, hv⟩ := number?_eq_some.mp h
  rcases counted_unsigned he hm with rfl | ⟨b, heq, -⟩
  · exact number?_eq_some.mpr ⟨e, hm, hv⟩
  · cases heq

theorem exists_addends {as : List (Bool × Term)} (h : ∀ a ∈ as, ∃ x, a.2.number? s σ = some x) :
    ∃ xs, as.mapM (addend? s σ) = some xs := by
  induction as with
  | nil => exact ⟨[], rfl⟩
  | cons a as ih =>
      obtain ⟨⟨x, hx⟩, has⟩ := List.forall_mem_cons.mp h
      obtain ⟨xs, hxs⟩ := ih has
      exact ⟨_, mapM_cons_eq_some.mpr ⟨_, xs, Option.map_eq_some_iff.mpr ⟨x, hx, rfl⟩, hxs, rfl⟩⟩

/-- A term that has a meaning is worth the sum of its addends. -/
theorem number?_of_addends (hA : s.algebra.Preserves) {m : Meaning} {xs : List ℝ} (hm : t.meaning? s = some m)
    (h : t.addends.mapM (addend? s σ) = some xs) : t.number? s σ = some xs.sum := by
  induction t using addends.induct generalizing m xs with
  | case1 a ih =>
      rw [addends] at h
      obtain ⟨ma, hma, hm'⟩ := Option.bind_eq_some_iff.mp hm
      obtain ⟨e, he, hv⟩ := number?_eq_some.mp (ih hma h)
      obtain rfl := Option.some.inj (hma.symm.trans he)
      obtain ⟨e', rfl, hv'⟩ := Meaning.unary?_value hA hm' hv rfl
      exact number?_eq_some.mpr ⟨e', hm, hv'⟩
  | case2 a b iha ihb =>
      rw [addends] at h
      obtain ⟨xs, ys, hxs, hys, rfl⟩ := mapM_append_eq_some.mp h
      obtain ⟨ma, hma, hm'⟩ := Option.bind_eq_some_iff.mp hm
      obtain ⟨mb, hmb, hm'⟩ := Option.bind_eq_some_iff.mp hm'
      obtain ⟨e, he, hv⟩ := number?_eq_some.mp (iha hma hxs)
      obtain ⟨f, hf, hw⟩ := number?_eq_some.mp (ihb hmb hys)
      obtain rfl := Option.some.inj (hma.symm.trans he)
      obtain rfl := Option.some.inj (hmb.symm.trans hf)
      obtain ⟨e', rfl, hv'⟩ := Meaning.binary?_value hA hm' hv hw rfl
      rw [List.sum_append]
      exact number?_eq_some.mpr ⟨e', hm, hv'⟩
  | case3 a b iha =>
      rw [addends] at h
      obtain ⟨xs, ys, hxs, hys, rfl⟩ := mapM_append_eq_some.mp h
      obtain ⟨y, hy, rfl⟩ := exists_of_mapM_singleton hys
      obtain ⟨z, hz, rfl⟩ := Option.map_eq_some_iff.mp hy
      obtain ⟨ma, hma, hm'⟩ := Option.bind_eq_some_iff.mp hm
      obtain ⟨mb, hmb, hm'⟩ := Option.bind_eq_some_iff.mp hm'
      obtain ⟨e, he, hv⟩ := number?_eq_some.mp (iha hma hxs)
      obtain ⟨f, hf, hw⟩ := number?_eq_some.mp hz
      obtain rfl := Option.some.inj (hma.symm.trans he)
      obtain rfl := Option.some.inj (hmb.symm.trans hf)
      obtain ⟨e', rfl, hv'⟩ := Meaning.binary?_value hA hm' hv hw rfl
      rw [List.sum_append, List.sum_singleton, if_pos rfl, ← sub_eq_add_neg]
      exact number?_eq_some.mpr ⟨e', hm, hv'⟩
  | case4 t hplus hadd hsub =>
      rw [addends.eq_4 t hplus hadd hsub] at h
      obtain ⟨y, hy, rfl⟩ := exists_of_mapM_singleton h
      obtain ⟨z, hz, rfl⟩ := Option.map_eq_some_iff.mp hy
      rw [List.sum_singleton]
      exact number?_of_unsigned hm hz

end Term

/-! ## Evaluation in exact arithmetic -/

/-- What an evaluation in exact arithmetic depends on: the values of the
variables and those that are given by name; `plane` makes a scalar of a point
in the plane. -/
structure ExactInputs where
  plane : Float → Float → Exact
  environment : String → Option ℝ
  given : List (String × ℝ)

namespace ExactInputs

/-- The given values in the order of their names. -/
noncomputable def sorted (i : ExactInputs) : List (String × ℝ) := i.given.mergeSort fun a b => a.1 ≤ b.1

noncomputable def names (i : ExactInputs) : List String := i.sorted.map (·.1)

noncomputable def values (i : ExactInputs) : List ℝ := i.sorted.map (·.2)

/-- The given values count before the variables. -/
noncomputable def valuation (i : ExactInputs) : Valuation :=
  (Valuation.ofReals i.environment).withArgs i.names (i.values.map .number)

theorem length_names (i : ExactInputs) : i.names.length = i.values.length := by
  rw [names, values, List.length_map, List.length_map]

end ExactInputs

namespace Prepared

variable {p p' : Prepared} {text text' : String} {params : List String} {e : Expr}

section CallExact

variable {plane : Float → Float → Exact} {V : String → Option ℝ} {xs : List ℝ} {v w : Exact}

theorem fault_of_callExact (h : p.callExact plane V xs = .ok v) : p.fault = none := by
  obtain ⟨inputs, hinputs, -⟩ := bind_eq_ok.mp h
  exact (inputs_eq_ok hinputs).2.1

/-- What an expression is worth does not depend on the text it was read from. -/
theorem callExact_text (hp : ofExpr text params e = .ok p) (hp' : ofExpr text' params e = .ok p')
    (h : p.callExact plane V xs = .ok v) (h' : p'.callExact plane V xs = .ok w) : w = v := by
  obtain ⟨inputs, hinputs, hv⟩ := bind_eq_ok.mp h
  obtain ⟨inputs', hinputs', hw⟩ := bind_eq_ok.mp h'
  obtain ⟨-, -, free, hfree, rfl⟩ := inputs_eq_ok hinputs
  obtain ⟨-, -, free', hfree', rfl⟩ := inputs_eq_ok hinputs'
  have hfree := freeValues_eq_ok hfree
  have hfree' := freeValues_eq_ok hfree'
  rw [(Evaluator.ofExpr_eq_ok hp).1] at hfree hv
  rw [(Evaluator.ofExpr_eq_ok hp').1] at hfree' hw
  obtain rfl := List.map_injective_iff.mpr (Option.some_injective _) (hfree.symm.trans hfree')
  exact Except.ok.inj (hw.symm.trans hv)

end CallExact

end Prepared

/-! ## What a text is worth -/

/-- The lexemes of a text in which all names are known. -/
def Lexeme.ofKnown? (text : String) : Option (List Lexeme) := ofText? (fun _ => true) (trim text.toList)

theorem Meaning.eq_of_written? {e e' : Expr} (h : (Meaning.expr e').written? = some e) : e' = e := by
  rw [Meaning.written?] at h
  split at h
  · exact Option.some.inj h
  · cases h

namespace Evaluator

variable {ev : Evaluator} {done params : List String} {text : String} {i : ExactInputs} {v : Exact}

/-- The value of a text in exact arithmetic. -/
noncomputable def evaluateExact (ev : Evaluator) (i : ExactInputs) (text : String) : Except Failure Exact := do
  if i.given.any fun v => ownNames.contains v.1 then throw .notApplicable
  let p ← ev.compile text i.names
  p.callExact i.plane i.environment i.values

/-- What is written by a text is what its term means. -/
theorem exists_term_of_writes? {e : Expr} (h : ev.writes? text params = some e) :
    ∃ ls t m, Lexeme.ofKnown? text = some ls ∧ Term.ofLexemes? ls = some t ∧
      t.meaning? (ev.scope params) = some m ∧ m.written? = some e := by
  rw [writes?, Expr.toOption_ofText_eq] at h
  obtain ⟨ls, hls, h⟩ := Option.bind_eq_some_iff.mp h
  obtain ⟨t, ht, h⟩ := Option.bind_eq_some_iff.mp h
  obtain ⟨m, hm, h⟩ := Option.bind_eq_some_iff.mp h
  rw [Term.ofPlain?] at ht
  split at ht
  · cases ht
  · exact ⟨ls, t, m, Lexeme.ofText?_of_known hls, ht, hm, h⟩

theorem Current.evaluateExact_eq_ok (h : ev.Current done) (hv : ev.evaluateExact i text = .ok v) :
    ∃ e p, ev.writes? text i.names = some e ∧ Prepared.ofExpr text i.names e = .ok p ∧
      p.callExact i.plane i.environment i.values = .ok v := by
  rw [evaluateExact] at hv
  split at hv
  · cases hv
  · obtain ⟨p, hp, hv⟩ := bind_eq_ok.mp hv
    rw [Evaluator.compile, h.prepared, List.lookup_nil] at hp
    dsimp only at hp
    have hread := h.toOption_read text i.names
    split at hp
    · rename_i e he
      rw [he] at hread
      exact ⟨e, p, hread.symm, hp, hv⟩
    · cases hp

/-- A text whose term is worth a number is worth this number. -/
theorem Current.evaluateExact_number (h : ev.Current done) (hv : ev.evaluateExact i text = .ok v) {ls : List Lexeme}
    {t : Term} {x : ℝ} (hls : Lexeme.ofKnown? text = some ls) (ht : Term.ofLexemes? ls = some t)
    (hx : t.number? (ev.scope i.names) i.valuation = some x) : v = .number x := by
  obtain ⟨e, p, he, hp, hcall⟩ := h.evaluateExact_eq_ok hv
  obtain ⟨ls', t', m, hls', ht', hm, hwritten⟩ := exists_term_of_writes? he
  obtain rfl := Option.some.inj (hls.symm.trans hls')
  obtain rfl := Option.some.inj (ht.symm.trans ht')
  obtain ⟨e', he', hvalue⟩ := Term.number?_eq_some.mp hx
  obtain rfl := Option.some.inj (hm.symm.trans he')
  obtain rfl := Meaning.eq_of_written? hwritten
  have hfault : e'.callFault? = none := by
    rw [← (Evaluator.ofExpr_eq_ok hp).2]
    exact Prepared.fault_of_callExact hcall
  exact Except.ok.inj (hcall.symm.trans (Prepared.callExact_ofExpr i.plane hp hfault i.length_names hvalue))

/-- A text that makes sense is worth what its term is worth as it is written. -/
theorem Current.evaluateExact_of_value? (h : ev.Current done) (hA : ev.algebra.Preserves)
    (hown : ∀ g ∈ i.given, g.1 ∉ ownNames) (hdistinct : Prepared.hasRepeated i.names = false) {e : Expr}
    (he : ev.writes? text i.names = some e) (hfaults : e.compileFault? = none ∧ e.callFault? = none) {t : Term}
    {x : ℝ} (ht : (Lexeme.ofKnown? text).bind Term.ofLexemes? = some t)
    (hx : t.value? ((ev.scope i.names).interpretation i.valuation) = some (.number x)) :
    ev.evaluateExact i text = .ok (.number x) := by
  obtain ⟨ls, t', m, hls, ht', hm, hwritten⟩ := exists_term_of_writes? he
  rw [hls, Option.bind_some] at ht
  obtain rfl := Option.some.inj (ht'.symm.trans ht)
  obtain ⟨e', he', hvalue⟩ := Term.number?_eq_some.mp (Term.number?_of_value? hA hm hx)
  obtain rfl := Option.some.inj (hm.symm.trans he')
  obtain rfl := Meaning.eq_of_written? hwritten
  have hread := h.toOption_read text i.names
  rw [he] at hread
  obtain ⟨p, hp⟩ : ∃ p, Prepared.ofExpr text i.names e' = .ok p := by
    rw [Prepared.ofExpr, hfaults.1, hdistinct]
    exact ⟨_, rfl⟩
  have hcompile : ev.compile text i.names = .ok p := by
    rw [Evaluator.compile, h.prepared, List.lookup_nil, eq_ok_of_toOption hread]
    exact hp
  rw [evaluateExact, if_neg (by simpa using hown), hcompile]
  exact Prepared.callExact_ofExpr i.plane hp hfaults.2 i.length_names hvalue

/-- Texts of the same lexemes are worth the same. -/
theorem Current.evaluateExact_lexemes (h : ev.Current done) {source : String} {w : Exact}
    (hsame : Lexeme.ofKnown? source = Lexeme.ofKnown? text) (hv : ev.evaluateExact i text = .ok v)
    (hw : ev.evaluateExact i source = .ok w) : w = v := by
  obtain ⟨e, p, he, hp, hcall⟩ := h.evaluateExact_eq_ok hv
  obtain ⟨e', p', he', hp', hcall'⟩ := h.evaluateExact_eq_ok hw
  obtain ⟨ls, t, m, hls, ht, hm, hwritten⟩ := exists_term_of_writes? he
  obtain ⟨ls', t', m', hls', ht', hm', hwritten'⟩ := exists_term_of_writes? he'
  rw [hls, hls'] at hsame
  obtain rfl := Option.some.inj hsame
  obtain rfl := Option.some.inj (ht.symm.trans ht')
  obtain rfl := Option.some.inj (hm.symm.trans hm')
  obtain rfl := Option.some.inj (hwritten.symm.trans hwritten')
  exact Prepared.callExact_text hp hp' hcall hcall'

end Evaluator

/-! ## Parts of labels -/

namespace Label

/-- The texts between the pluses that stand outside brackets. -/
def parts (text : String) : List String :=
  (terms text).map fun t => String.ofList (rawSlice text.toList t)

/-- No part of the text is a quoted text or the call of a format. -/
def Numeric (text : String) : Prop :=
  ∀ t ∈ terms text, t.map Token.kind ≠ [.string] ∧ (formatCall? text.toList t).isNone = true

instance (text : String) : Decidable (Numeric text) :=
  inferInstanceAs (Decidable (∀ t ∈ terms text, _))

/-- The numbers of the parts, added up from the left. -/
def total? {α : Type} [Add α] (number : String → Except Failure α) (text : String) : Except Failure (Option α) :=
  (parts text).mapM number >>= fun xs =>
    match xs with
    | [] => .ok none
    | x :: xs => .ok (some (xs.foldl (· + ·) x))

/-- The text of a number that may be missing. -/
def shownTotal (x : Option Float) : String := (x.map formatNumber).getD ""

section Render

variable {ev : Evaluator} {values : Assignment} {text : String}

theorem piece_of_numeric {term : List Token} (h : term.map Token.kind ≠ [.string] ∧
    (formatCall? text.toList term).isNone = true) : piece ev values text.toList term =
      (number ev values (String.ofList (rawSlice text.toList term))).map .number := by
  have hother : ∀ quoted place, term = [⟨.string, quoted, place⟩] → False := by
    rintro quoted place rfl
    exact h.1 rfl
  rw [piece.eq_2 ev values _ term hother, Option.isNone_iff_eq_none.mp h.2]
  rfl

theorem foldl_join (xs : List Float) (x : Float) :
    (xs.map Piece.number).foldl Piece.join (.number x) = .number (xs.foldl (· + ·) x) := by
  induction xs generalizing x with
  | nil => rfl
  | cons y xs ih => exact ih (x + y)

/-- The text of a label without quoted texts and formats is that of the total
of its parts. -/
theorem renderText_of_numeric (h : Numeric text) (ev : Evaluator) (values : Assignment) :
    renderText ev text values =
      if values.any fun v => textNames.contains v.1 then .error .notApplicable
      else (total? (number ev values) text).map shownTotal := by
  have hpieces : (terms text).mapM (piece ev values text.toList) =
      ((parts text).mapM (number ev values)).map fun xs => xs.map Piece.number := by
    rw [parts, List.mapM_map]
    exact mapM_congr_map fun t ht => piece_of_numeric (h t ht)
  rw [renderText_eq, hpieces, total?]
  congr 1
  cases (parts text).mapM (number ev values) with
  | error f => rfl
  | ok xs =>
      cases xs with
      | nil => rfl
      | cons x xs => exact congrArg (fun p => Except.ok (Piece.render p)) (foldl_join xs x)

end Render

/-- The text is read as the sum of what its parts are read as: there is one
part with the lexemes of the text, or the lexemes of the text are a sum of
those of the parts, which are read as sums whose addends have values. -/
inductive AddsUp (s : Scope) (σ : Valuation) (text : String) : Prop
  | whole {source : String} (hparts : parts text = [source])
      (hlexemes : Lexeme.ofKnown? source = Lexeme.ofKnown? text)
  | sum {os : List (List Lexeme)} {ls : List Lexeme} (hlexemes : Lexeme.ofKnown? text = some ls)
      (hparts : (parts text).map Lexeme.ofKnown? = os.map some) (hsum : Term.SumOf os ls)
      (hreads : ∀ o ∈ os, ∃ t, Term.Reads .sum o t [] ∧ ∀ a ∈ t.addends, ∃ x, a.2.number? s σ = some x)

end Label

namespace Evaluator

variable {ev : Evaluator} {done : List String} {text : String} {i : ExactInputs} {v : Exact}

/-- Texts that are read as sums are worth what their addends add up to. -/
theorem Current.exists_totals (h : ev.Current done) (hA : ev.algebra.Preserves) {sources : List String}
    {os : List (List Lexeme)} (hsources : sources.map Lexeme.ofKnown? = os.map some)
    (hreads : ∀ o ∈ os, ∃ t, Term.Reads .sum o t [] ∧
      ∀ a ∈ t.addends, ∃ x, a.2.number? (ev.scope i.names) i.valuation = some x)
    (hvalues : ∀ source ∈ sources, ∃ w, ev.evaluateExact i source = .ok w) :
    ∃ (ts : List Term) (xss : List (List ℝ)), List.Forall₂ (fun o t => Term.Reads .sum o t []) os ts ∧
      (ts.flatMap Term.addends).mapM (Term.addend? (ev.scope i.names) i.valuation) = some xss.flatten ∧
        sources.mapM (ev.evaluateExact i) = .ok (xss.map fun xs => .number xs.sum) := by
  induction sources generalizing os with
  | nil =>
      obtain rfl := List.map_eq_nil_iff.mp hsources.symm
      exact ⟨[], [], .nil, rfl, rfl⟩
  | cons source sources ih =>
      obtain ⟨o, os, rfl, ho, hos⟩ := List.map_eq_cons_iff.mp hsources.symm
      obtain ⟨hread, hreads⟩ := List.forall_mem_cons.mp hreads
      obtain ⟨hvalue, hvalues⟩ := List.forall_mem_cons.mp hvalues
      obtain ⟨ts, xss, hts, haddends, htotals⟩ := ih hos.symm hreads hvalues
      obtain ⟨t, ht, hnumbers⟩ := hread
      obtain ⟨w, hw⟩ := hvalue
      obtain ⟨xs, hxs⟩ := Term.exists_addends hnumbers
      obtain ⟨e, p, he, -⟩ := h.evaluateExact_eq_ok hw
      obtain ⟨ls, u, m, hls, hu, hm, -⟩ := exists_term_of_writes? he
      obtain rfl := Option.some.inj (hls.symm.trans ho.symm)
      obtain rfl := ht.eq_of_ofLexemes? hu
      have hnumber := h.evaluateExact_number hw hls hu (Term.number?_of_addends hA hm hxs)
      refine ⟨u :: ts, xs :: xss, .cons ht hts, ?_, ?_⟩
      · exact mapM_append_eq_some.mpr ⟨xs, xss.flatten, hxs, haddends, rfl⟩
      · rw [List.mapM_cons, hw, htotals, hnumber]
        rfl

theorem foldl_exact (xss : List (List ℝ)) (x : ℝ) :
    (xss.map fun xs => Exact.number xs.sum).foldl (· + ·) (Exact.number x) = .number (x + xss.flatten.sum) := by
  induction xss generalizing x with
  | nil => simp
  | cons xs xss ih =>
      rw [List.flatten_cons, List.sum_append, ← add_assoc]
      exact ih (x + xs.sum)

open Label in
/-- The parts of a text that is read as their sum add up to what the text is
worth. -/
theorem Current.total?_evaluateExact (h : ev.Current done) (hA : ev.algebra.Preserves)
    (hadds : AddsUp (ev.scope i.names) i.valuation text) (hv : ev.evaluateExact i text = .ok v)
    (hparts : ∀ source ∈ parts text, ∃ w, ev.evaluateExact i source = .ok w) :
    total? (ev.evaluateExact i) text = .ok (some v) := by
  cases hadds with
  | @whole source hsource hlexemes =>
      obtain ⟨w, hw⟩ := hparts source (by rw [hsource]; exact List.mem_singleton.mpr rfl)
      obtain rfl := h.evaluateExact_lexemes hlexemes hv hw
      rw [total?, hsource, List.mapM_cons, hw]
      rfl
  | @sum os ls hlexemes hsources hsum hreads =>
      obtain ⟨ts, xss, hts, haddends, htotals⟩ := h.exists_totals hA hsources hreads hparts
      obtain ⟨e, p, he, -⟩ := h.evaluateExact_eq_ok hv
      obtain ⟨ls', t, m, hls', ht, hm, -⟩ := exists_term_of_writes? he
      obtain rfl := Option.some.inj (hlexemes.symm.trans hls')
      rw [← hsum.addends_ofLexemes? hts ht] at haddends
      rw [h.evaluateExact_number hv hlexemes ht (Term.number?_of_addends hA hm haddends), total?, htotals]
      cases xss with
      | nil =>
          have hnone : parts text = [] := List.length_eq_zero_iff.mp (length_of_mapM_ok htotals).symm
          rw [hnone] at hsources
          exact absurd (List.map_eq_nil_iff.mp hsources.symm) hsum.ne_nil
      | cons xs xss =>
          refine congrArg (fun x => Except.ok (some x)) ((foldl_exact xss xs.sum).trans ?_)
          rw [List.flatten_cons, List.sum_append]

end Evaluator

namespace Label

variable {ds : Definitions} {environment : Assignment} {A : Algebra} {ev : Evaluator} {ws : List String} {text : String}

/-- A text of a label without quoted texts and formats shows the total of its
parts, after any requests: what each of them is worth, added up from the left.
In exact arithmetic that is what the whole text is worth, if it is read as the
sum of what its parts are read as and they are worth something. -/
theorem renderText_total (h : Evaluator.ofDefinitions ds environment A = .ok (ev, ws)) (hlegal : ds.Legal)
    (hnames : ds.names.Nodup) (hdiscernible : ds.Discernible) (rs : List Request)
    (hnumeric : Numeric text) :
    let used := ev.serveAll rs
    (∀ values, renderText used text values =
      if values.any fun v => textNames.contains v.1 then .error .notApplicable
      else (total? (number used values) text).map shownTotal) ∧
    ∀ (i : ExactInputs) (v : Exact), A.Preserves →
      (∀ source ∈ text :: parts text, ∀ r ∈ rs, ¬ r.Takes ds (source, i.names)) →
      AddsUp (ev.scope i.names) i.valuation text → used.evaluateExact i text = .ok v →
      (∀ source ∈ parts text, ∃ w, used.evaluateExact i source = .ok w) →
        total? (used.evaluateExact i) text = .ok (some v) := by
  intro used
  refine ⟨renderText_of_numeric hnumeric used, fun i v hA hkeys hadds hv hparts => ?_⟩
  obtain ⟨order, horder, hbind⟩ := bind_eq_ok.mp h
  obtain ⟨hperm, hfollows⟩ := Definitions.order_ok horder
  obtain ⟨hcurrent, hdefinitions, halgebra⟩ :=
    Evaluator.current_of_ofOrder hlegal hnames hperm hfollows hdiscernible hbind
  have hview : Evaluator.SameView (fun key => ∃ r ∈ rs, r.Takes ds key) ev used :=
    (Evaluator.SameView.refl hcurrent.prepared).serveAll hcurrent.prepared
      fun r hr key hkey => ⟨r, hr, hdefinitions ▸ hkey⟩
  -- the requests do not change what the texts are worth
  have hsame : ∀ source ∈ text :: parts text, used.evaluateExact i source = ev.evaluateExact i source := by
    intro source hsource
    have hkey : ¬ ∃ r ∈ rs, r.Takes ds (source, i.names) := by
      rintro ⟨r, hr, htakes⟩
      exact hkeys source hsource r hr htakes
    rw [Evaluator.evaluateExact, Evaluator.evaluateExact, hview.compile hcurrent.prepared hkey]
  obtain ⟨htext, hsame⟩ := List.forall_mem_cons.mp hsame
  have htotal : total? (ev.evaluateExact i) text = .ok (some v) :=
    hcurrent.total?_evaluateExact (halgebra ▸ hA) hadds (htext ▸ hv) fun source hsource => by
      rw [← hsame source hsource]
      exact hparts source hsource
  rw [total?, mapM_congr hsame]
  exact htotal

section Witness

/-- The variable `x` is given as three. -/
noncomputable def threeForX : ExactInputs := ⟨fun _ _ => .undefined, fun _ => none, [("x", 3)]⟩

theorem names_threeForX : threeForX.names = ["x"] := by
  simp [threeForX, ExactInputs.names, ExactInputs.sorted]

theorem values_threeForX : threeForX.values = [3] := by
  simp [threeForX, ExactInputs.values, ExactInputs.sorted]

/-- An evaluator without definitions, which leaves operations as they are
written. -/
def literalEvaluator : Evaluator := ⟨[], [], [], [], [], [], [], [], .literal⟩

theorem current_literalEvaluator : literalEvaluator.Current [] :=
  ⟨rfl, fun _ _ => rfl, fun _ _ _ h => (by cases h), fun _ _ h => absurd h List.not_mem_nil,
    fun _ _ _ h => (by cases h)⟩

/-- What terms are worth with three for `x`. -/
noncomputable def withThree : Interpretation :=
  (literalEvaluator.scope threeForX.names).interpretation threeForX.valuation

theorem name?_withThree : withThree.name? "x" = some (.number 3) := by
  have hmeaning : (literalEvaluator.scope ["x"]).meaning "x" false = .expr (.var "x") := rfl
  rw [withThree, names_threeForX, Scope.interpretation]
  dsimp only
  rw [hmeaning]
  dsimp only
  rw [Expr.value?, ExactInputs.valuation, names_threeForX, values_threeForX]
  rfl

theorem evaluateExact_threeForX {text : String} {t : Term} {x : ℝ}
    (htext : ((literalEvaluator.writes? text ["x"]).map fun e =>
      decide (e.compileFault? = none ∧ e.callFault? = none)) = some true)
    (ht : (Lexeme.ofKnown? text).bind Term.ofLexemes? = some t) (hx : t.value? withThree = some (.number x)) :
    literalEvaluator.evaluateExact threeForX text = .ok (.number x) := by
  obtain ⟨e, he, hfaults⟩ := Option.map_eq_some_iff.mp htext
  rw [← names_threeForX] at he
  refine current_literalEvaluator.evaluateExact_of_value? Algebra.literal_preserves ?_ ?_ he
    (of_decide_eq_true hfaults) ht hx
  · exact List.forall_mem_singleton.mpr (by decide)
  · rw [names_threeForX]
    rfl

/-- Twice `x` less one, with some term for the two. -/
def doubledLessOne (two : Term) : Term :=
  .binary .sub (.binary .mul two (.name "x" false)) (.number (.exact 1))

theorem value?_two : (Term.number (.exact 2)).value? withThree = some (.number 2) := by
  show some (Value.number ((2 : ℚ) : ℝ)) = _
  norm_num

theorem value?_one : (Term.number (.exact 1)).value? withThree = some (.number 1) := by
  show some (Value.number ((1 : ℚ) : ℝ)) = _
  norm_num

theorem value?_x : (Term.name "x" false).value? withThree = some (.number 3) := by
  rw [Term.value?]
  exact name?_withThree

theorem value?_double {two : Term} (h : two.value? withThree = some (.number 2)) :
    (Term.binary .mul two (.name "x" false)).value? withThree = some (.number (2 * 3)) := by
  rw [Term.value?, h, value?_x]
  rfl

theorem value?_doubledLessOne {two : Term} (h : two.value? withThree = some (.number 2)) :
    (doubledLessOne two).value? withThree = some (.number 5) := by
  rw [doubledLessOne, Term.value?, value?_double h, value?_one]
  show some (Value.number (2 * 3 - 1)) = _
  norm_num

/-- A plus in front of a product, a difference and a variable. -/
theorem renderText_total_signed : ∃ ev ws, Evaluator.ofDefinitions [] [] .literal = .ok (ev, ws) ∧
    Numeric "+2*x - 1 + x" ∧ parts "+2*x - 1 + x" = ["2*x - 1", "x"] ∧
      ev.evaluateExact threeForX "+2*x - 1 + x" = .ok (.number 8) ∧
        total? (ev.evaluateExact threeForX) "+2*x - 1 + x" = .ok (some (.number 8)) := by
  have hbound : Evaluator.ofDefinitions [] [] .literal = .ok (literalEvaluator, []) := rfl
  have hnumeric : Numeric "+2*x - 1 + x" := by decide +kernel
  have hparts : parts "+2*x - 1 + x" = ["2*x - 1", "x"] := by decide +kernel
  have hplus : (Term.unary .plus (.number (.exact 2))).value? withThree = some (.number 2) := by
    rw [Term.value?, value?_two]
    rfl
  have hsum : (Term.binary .add (doubledLessOne (.unary .plus (.number (.exact 2)))) (.name "x" false)).value? withThree =
      some (.number 8) := by
    rw [Term.value?, value?_doubledLessOne hplus, value?_x]
    show some (Value.number (5 + 3)) = _
    norm_num
  have hwhole : literalEvaluator.evaluateExact threeForX "+2*x - 1 + x" = .ok (.number 8) :=
    evaluateExact_threeForX (by decide +kernel) (by cbv) hsum
  have hfirst : literalEvaluator.evaluateExact threeForX "2*x - 1" = .ok (.number 5) :=
    evaluateExact_threeForX (by decide +kernel) (by cbv) (value?_doubledLessOne value?_two)
  have hsecond : literalEvaluator.evaluateExact threeForX "x" = .ok (.number 3) :=
    evaluateExact_threeForX (by decide +kernel) (by cbv) value?_x
  refine ⟨_, [], hbound, hnumeric, hparts, hwhole, ?_⟩
  refine (renderText_total hbound (fun n hn => by cases hn) (by decide) (by decide +kernel) [] hnumeric).2 threeForX
    (.number 8) Algebra.literal_preserves (fun _ _ r hr => by cases hr) ?_ hwhole ?_
  · have hlexemes : Lexeme.ofKnown? "+2*x - 1 + x" = some [.op "+", .number (.exact 2), .op "*", .name "x", .op "-",
        .number (.exact 1), .op "+", .name "x"] := by decide +kernel
    have hsources : (parts "+2*x - 1 + x").map Lexeme.ofKnown? =
        [[.number (.exact 2), .op "*", .name "x", .op "-", .number (.exact 1)], [.name "x"]].map some := by
      decide +kernel
    refine .sum hlexemes hsources (.plus (.cons _ (.last _))) ?_
    have hmeaning : (Term.binary .mul (.number (.exact 2)) (.name "x" false)).meaning?
        (literalEvaluator.scope threeForX.names) = some (.expr (.mul [.num (.exact 2), .var "x"])) := by
      rw [names_threeForX]
      rfl
    have hpreserves : Algebra.literal.Preserves := Algebra.literal_preserves
    intro o ho
    rcases List.mem_cons.mp ho with rfl | ho
    · refine ⟨doubledLessOne (.number (.exact 2)), ⟨12, by cbv⟩, ?_⟩
      refine List.forall_mem_cons.mpr ⟨⟨_, Term.number?_of_value? hpreserves hmeaning (value?_double value?_two)⟩, ?_⟩
      exact List.forall_mem_singleton.mpr ⟨_, Term.number?_of_value? hpreserves rfl value?_one⟩
    · obtain rfl := List.mem_singleton.mp ho
      refine ⟨.name "x" false, ⟨12, by cbv⟩, ?_⟩
      exact List.forall_mem_singleton.mpr ⟨_, Term.number?_of_value? hpreserves rfl value?_x⟩
  · rw [hparts]
    exact List.forall_mem_cons.mpr ⟨⟨_, hfirst⟩, List.forall_mem_singleton.mpr ⟨_, hsecond⟩⟩

end Witness

/-- A comparison with a sum is cut into a comparison and the rest of the
sum. -/
theorem not_renderText_total : ∃ ev ws, Evaluator.ofDefinitions [] = .ok (ev, ws) ∧ Numeric "1 < 2 + 3" ∧
    renderText ev "1 < 2 + 3" [] = .ok "4" ∧
      (number ev [] "1 < 2 + 3").map formatNumber = .ok "1" := by
  refine ⟨⟨[], [], [], [], [], [], [], [], .standard⟩, [], rfl, by decide +kernel, ?_, ?_⟩
  · exact eq_ok_of_toOption (by decide +kernel)
  · exact eq_ok_of_toOption (by decide +kernel)

end Label
end FieldScript
