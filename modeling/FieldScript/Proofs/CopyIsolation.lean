import FieldScript.Copies
import FieldScript.Proofs.CallHistories

/-!
# Copies answer as if they were alone

The members of a family fill the same caches. Nothing that is put there
can be told from what would be made without it: an evaluator reads and
compiles every text as before (`Alike`). So a member answers like a lone
evaluator that has the same variables and was asked nothing but the
member's own queries, whatever the other members were asked in between.
-/

namespace FieldScript

namespace Evaluator

/-- The evaluators read every text alike, and compile every text alike. -/
structure Alike (ev ev' : Evaluator) : Prop where
  read : ∀ text params, ev'.read text params = ev.read text params
  compile : ∀ text args, ev'.compile text args = ev.compile text args

namespace Alike

variable {ev ev' ev'' : Evaluator}

theorem refl (ev : Evaluator) : Alike ev ev := ⟨fun _ _ => rfl, fun _ _ => rfl⟩

theorem symm (h : Alike ev ev') : Alike ev' ev :=
  ⟨fun text params => (h.read text params).symm, fun text args => (h.compile text args).symm⟩

theorem trans (h : Alike ev ev') (h' : Alike ev' ev'') : Alike ev ev'' :=
  ⟨fun text params => (h'.read text params).trans (h.read text params),
    fun text args => (h'.compile text args).trans (h.compile text args)⟩

/-- Variables play no part in what a text means. -/
theorem withEnvironment (h : Alike ev ev') (a a' : Assignment) :
    Alike { ev with environment := a } { ev' with environment := a' } := ⟨h.read, h.compile⟩

end Alike

/-- Reading a text changes no reading and no callable. -/
theorem alike_readKept (ev : Evaluator) (text : String) (params : List String) :
    Alike ev (ev.readKept text params).2 := by
  -- with all keys hidden a view is one of the readings alone
  have hview : SameView (fun _ => True) ev ev :=
    ⟨rfl, rfl, rfl, rfl, fun _ _ => rfl, fun _ _ _ => Or.inl trivial⟩
  have hread := (hview.readKept text params).read
  refine ⟨hread, fun text' args => ?_⟩
  rw [compile, compile, hread, (readKept_bindsOnly ev text params).sameCallables.2]

/-- A callable that is kept as it would be made changes nothing. -/
theorem alike_keep {ev : Evaluator} {text : String} {args : List String}
    {make : Except Failure Prepared} (hmake : ev.compile text args = make) :
    Alike ev (ev.keep (text, args) make).2 := by
  unfold keep
  split
  · exact .refl ev
  · split
    · rename_i p
      refine ⟨fun _ _ => rfl, fun text' args' => ?_⟩
      rw [compile]
      dsimp only
      rw [List.lookup_cons]
      by_cases hkey : ((text', args') == (text, args)) = true
      · obtain ⟨rfl, rfl⟩ := Prod.mk.inj (eq_of_beq hkey)
        rw [hmake, hkey]
      · rw [Bool.eq_false_iff.mpr hkey]
        rfl
    · exact .refl ev

theorem alike_compileKept (ev : Evaluator) (text : String) (args : List String) :
    Alike ev (ev.compileKept text args).2 := by
  have hkept := alike_readKept ev text args
  have hanswer := readKept_answer ev text args
  have hsame := (readKept_bindsOnly ev text args).sameCallables.2
  rw [compileKept]
  split
  · exact .refl ev
  · rename_i hlookup
    split <;> rename_i heq <;> rw [heq] at hkept hanswer hsame
    · exact hkept
    · refine hkept.trans (alike_keep ?_)
      rw [hkept.compile, compile, hlookup, ← hanswer]

theorem alike_evaluateKept (ev : Evaluator) (text : String) (values : Assignment) :
    Alike ev (ev.evaluateKept text values).2 := by
  rw [evaluateKept]
  split
  · exact .refl ev
  · exact alike_compileKept ev _ _

end Evaluator

/-! ## One owner -/

namespace Owner

/-- The owners have the same variables and callables, and evaluators that
answer alike. -/
structure Alike (o o' : Owner) : Prop where
  evaluator : o.evaluator.Alike o'.evaluator
  environment : o'.evaluator.environment = o.evaluator.environment
  callables : o'.callables = o.callables

variable {o o' : Owner}

/-- Owners that are alike give the same answer, and stay alike. -/
theorem Alike.ask (h : Alike o o') (q : Query) :
    (o'.ask q).1 = (o.ask q).1 ∧ Alike (o.ask q).2 (o'.ask q).2 := by
  cases q with
  | set n v =>
      refine ⟨rfl, h.evaluator.withEnvironment _ _, ?_, h.callables⟩
      exact congrArg (·.insert n (.scalar v)) h.environment
  | unset n =>
      refine ⟨rfl, h.evaluator.withEnvironment _ _, ?_, h.callables⟩
      exact congrArg (·.erase n) h.environment
  | get n fallback => exact ⟨by simp only [Owner.ask, h.environment], h⟩
  | assignment => exact ⟨congrArg Answer.assignment h.environment, h⟩
  | evaluate text values =>
      have hanswer : (o'.evaluator.evaluateKept text values).1 =
          (o.evaluator.evaluateKept text values).1 := by
        simp only [Evaluator.evaluateKept_answer, Evaluator.compileKept_answer,
          Evaluator.compileKept_environment, h.environment, h.evaluator.compile]
      refine ⟨congrArg Answer.samples hanswer, ?_, ?_, h.callables⟩
      · exact ((Evaluator.alike_evaluateKept o.evaluator text values).symm.trans h.evaluator).trans
          (Evaluator.alike_evaluateKept o'.evaluator text values)
      · exact (Evaluator.evaluateKept_environment _ _ _).trans
          (h.environment.trans (Evaluator.evaluateKept_environment _ _ _).symm)
  | compile text args =>
      have hanswer : (o'.evaluator.compileKept text args).1 =
          (o.evaluator.compileKept text args).1 := by
        rw [Evaluator.compileKept_answer, Evaluator.compileKept_answer, h.evaluator.compile]
      refine ⟨congrArg Answer.callable hanswer, ?_, ?_, ?_⟩
      · exact ((Evaluator.alike_compileKept o.evaluator text args).symm.trans h.evaluator).trans
          (Evaluator.alike_compileKept o'.evaluator text args)
      · exact (Evaluator.compileKept_environment _ _ _).trans
          (h.environment.trans (Evaluator.compileKept_environment _ _ _).symm)
      · simp only [Owner.ask, h.callables, hanswer]
  | call index values overrides =>
      simp only [Owner.ask, h.callables, h.environment]
      split <;> exact ⟨rfl, h⟩

/-- A query does not change what texts mean. -/
theorem alike_ask (o : Owner) (q : Query) : o.evaluator.Alike (o.ask q).2.evaluator := by
  cases q with
  | set n v | unset n => exact (Evaluator.Alike.refl o.evaluator).withEnvironment _ _
  | get n fallback | assignment => exact .refl _
  | evaluate text values => exact Evaluator.alike_evaluateKept _ _ _
  | compile text args => exact Evaluator.alike_compileKept _ _ _
  | call index values overrides =>
      rw [Owner.ask]
      split <;> exact .refl _

/-- A callable that was handed out stays where it is. -/
theorem callables_ask {index : Nat} {p : Prepared} (h : o.callables[index]? = some p) (q : Query) :
    (o.ask q).2.callables[index]? = some p := by
  cases q with
  | compile text args =>
      exact (List.getElem?_append_left (List.getElem?_eq_some_iff.mp h).1).trans h
  | call index' values overrides =>
      rw [Owner.ask]
      split <;> exact h
  | _ => exact h

theorem callables_askAll {index : Nat} {p : Prepared} (h : o.callables[index]? = some p)
    (qs : List Query) : (o.askAll qs).2.callables[index]? = some p := by
  induction qs generalizing o with
  | nil => exact h
  | cons q qs ih => exact ih (callables_ask h q)

end Owner

/-! ## Families -/

namespace Family

variable {f : Family} {i : Nat} {o : Owner}

/-- The member is like this owner. -/
def Follows (f : Family) (i : Nat) (o : Owner) : Prop :=
  ∃ m, f.members[i]? = some m ∧ o.Alike (f.owner m)

theorem Follows.copy (h : f.Follows i o) (j : Nat) : (f.copy j).Follows i o := by
  obtain ⟨m, hm, halike⟩ := h
  rw [Family.copy]
  split
  · refine ⟨m, ?_, halike⟩
    exact (List.getElem?_append_left (List.getElem?_eq_some_iff.mp hm).1).trans hm
  · exact ⟨m, hm, halike⟩

/-- What another member is asked does not show. -/
theorem Follows.ask_other (h : f.Follows i o) {j : Nat} (hj : j ≠ i) (q : Query) :
    (f.ask j q).2.Follows i o := by
  obtain ⟨m, hm, halike⟩ := h
  rw [Family.ask]
  split
  · rename_i m' hm'
    refine ⟨m, (List.getElem?_set_ne hj).trans hm, ?_, halike.environment, halike.callables⟩
    exact halike.evaluator.trans ((Owner.alike_ask (f.owner m') q).withEnvironment _ _)
  · exact ⟨m, hm, halike⟩

theorem ask_of_member {m : Member} (hm : f.members[i]? = some m) (q : Query) :
    f.ask i q = (some ((f.owner m).ask q).1, f.put i ((f.owner m).ask q).2) := by
  rw [Family.ask]
  split <;> rename_i heq <;> rw [hm] at heq <;> cases heq
  rfl

/-- A member answers as the owner that it is like. -/
theorem Follows.ask (h : f.Follows i o) (q : Query) :
    (f.ask i q).1 = some (o.ask q).1 ∧ (f.ask i q).2.Follows i (o.ask q).2 := by
  obtain ⟨m, hm, halike⟩ := h
  obtain ⟨hanswer, hafter⟩ := halike.ask q
  rw [ask_of_member hm]
  refine ⟨congrArg some hanswer, ⟨((f.owner m).ask q).2.evaluator.environment,
    ((f.owner m).ask q).2.callables⟩, ?_, hafter⟩
  exact List.getElem?_set_self (List.getElem?_eq_some_iff.mp hm).1

/-- Among all queries, those to one member decide its answers. -/
theorem Follows.run (h : f.Follows i o) (acts : List Act) :
    answersOf i (f.run acts).1 = (o.askAll (queriesOf i acts)).1 ∧
      (f.run acts).2.Follows i (o.askAll (queriesOf i acts)).2 := by
  induction acts generalizing f o with
  | nil => exact ⟨rfl, h⟩
  | cons a acts ih =>
      cases a with
      | copy j => exact ih (h.copy j)
      | ask j q =>
          by_cases hj : j = i
          · subst hj
            obtain ⟨hanswer, hafter⟩ := h.ask q
            obtain ⟨hanswers, hend⟩ := ih hafter
            simp only [answersOf] at hanswers
            simp only [Family.run, queriesOf, answersOf, List.filterMap_cons, hanswer,
              Option.toList_some, List.map_cons, List.map_nil, if_true, Owner.askAll,
              List.singleton_append]
            exact ⟨congrArg _ hanswers, hend⟩
          · obtain ⟨hanswers, hend⟩ := ih (h.ask_other hj q)
            have hsilent : ∀ a : Option Answer, answersOf i (a.toList.map (j, ·)) = [] := by
              rintro (_ | a) <;> simp [answersOf, hj]
            simp only [answersOf] at hanswers hsilent
            simp only [Family.run, queriesOf, answersOf, List.filterMap_cons, List.filterMap_append,
              hsilent, hj, if_false, List.nil_append]
            exact ⟨hanswers, hend⟩

/-- What the members share means the same throughout. -/
theorem alike_run {ev : Evaluator} (h : ev.Alike f.common) (acts : List Act) :
    ev.Alike (f.run acts).2.common := by
  induction acts generalizing f with
  | nil => exact h
  | cons a acts ih =>
      cases a with
      | copy j =>
          refine ih ?_
          rw [Family.copy]
          split <;> exact h
      | ask j q =>
          have hstep : ev.Alike (f.ask j q).2.common := by
            cases hm : f.members[j]? with
            | none =>
                rw [Family.ask, hm]
                exact h
            | some m =>
                rw [ask_of_member hm]
                exact (h.withEnvironment ev.environment m.environment).trans
                  (Owner.alike_ask (f.owner m) q)
          exact ih hstep

/-- A copy follows the evaluator alone with the variables of its original. -/
theorem follows_copy {ev : Evaluator} (h : ev.Alike f.common) {j : Nat} {m : Member}
    (hm : f.members[j]? = some m) :
    (f.copy j).Follows f.members.length ⟨{ ev with environment := m.environment }, []⟩ := by
  rw [Family.copy, hm]
  exact ⟨_, List.getElem?_concat_length, h.withEnvironment _ _, rfl, rfl⟩

/-- After any copies and queries, a member answers as the evaluator alone
with that member's variables and callables, asked its queries only; a
copy that is taken of it starts with its variables and no callables; and
a callable that it handed out reads its variables of the moment. -/
theorem answers_of_copies (ev : Evaluator) (before after : List Act) {j : Nat} {m : Member}
    (hm : ((ofEvaluator ev).run before).2.members[j]? = some m) :
    let f := ((ofEvaluator ev).run before).2
    let original : Owner := ⟨{ ev with environment := m.environment }, m.callables⟩
    let clone : Owner := ⟨{ ev with environment := m.environment }, []⟩
    let place := f.members.length
    answersOf j (f.run after).1 = (original.askAll (queriesOf j after)).1 ∧
      answersOf place (f.run (.copy j :: after)).1 =
        (clone.askAll (queriesOf place after)).1 ∧
      ∀ index p, m.callables[index]? = some p → ∀ values overrides,
        ((f.run after).2.ask j (.call index values overrides)).1 =
          some (.samples (p.call (original.askAll (queriesOf j after)).2.evaluator.environment
            values overrides)) := by
  intro f original clone place
  have hcommon : ev.Alike f.common := alike_run (.refl ev) before
  have hfollows : f.Follows j original := ⟨m, hm, hcommon.withEnvironment _ _, rfl, rfl⟩
  have hclone : (f.copy j).Follows place clone := follows_copy hcommon hm
  refine ⟨(hfollows.run after).1, (hclone.run after).1, fun index p hp values overrides => ?_⟩
  have hcall := ((hfollows.run after).2.ask (.call index values overrides)).1
  have hkept : (original.askAll (queriesOf j after)).2.callables[index]? = some p :=
    Owner.callables_askAll hp _
  rw [hcall, Owner.ask, hkept]

/-- A text is compiled, a copy and a copy of the copy are taken, and all
three are asked in turn. -/
theorem answers_of_copiedTwice :
    let ev : Evaluator := ⟨[], [], [], [], [], [], [], [("t", .scalar 1)], .standard⟩
    let f := ((ofEvaluator ev).run [.ask 0 (.compile "t + 1" []), .copy 0, .ask 1 (.set "t" 2),
      .copy 1]).2
    let after : List Act := [.ask 2 (.unset "t"), .ask 0 (.call 0 [] []), .ask 2 (.evaluate "t + 1" []),
      .ask 1 (.get "t" none), .ask 0 (.evaluate "t" [])]
    ∃ m, f.members[0]? = some m ∧ m.callables.length = 1 ∧
      answersOf 0 (f.run after).1 =
        ((⟨{ ev with environment := m.environment }, m.callables⟩ : Owner).askAll
          [.call 0 [] [], .evaluate "t" []]).1 := by
  intro ev f after
  have hcount : f.members[0]?.map (·.callables.length) = some 1 := by decide +kernel
  obtain ⟨m, hm, hcallables⟩ := Option.map_eq_some_iff.mp hcount
  exact ⟨m, hm, hcallables, (answers_of_copies ev _ after hm).1⟩

end Family
end FieldScript
