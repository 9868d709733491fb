import FieldScript.Evaluator

/-!
# Copies of an evaluator

A copy has the variables of its original at that moment, from then on as
its own; all that is read and prepared is shared with the original. An
`Owner` is an evaluator with the callables that it handed out; they read
the variables of their owner when they are called. A `Family` is an
evaluator with its copies, the copies of copies among them: what was read
and prepared stands once, variables and callables stand once a member.
-/

namespace FieldScript

/-- What the owner of variables can be asked. -/
inductive Query where
  | set (name : String) (v : Float)
  | unset (name : String)
  | get (name : String) (fallback : Option Float)
  | assignment
  | evaluate (text : String) (values : Assignment)
  | compile (text : String) (args : List String)
  /-- A call of a callable, by its place among those that were handed out. -/
  | call (index : Nat) (values : List Samples) (overrides : Assignment)

inductive Answer where
  | done
  | value (v : Option Samples)
  | assignment (vs : Assignment)
  | samples (r : Except Failure Samples)
  | callable (r : Except Failure Prepared)

structure Owner where
  evaluator : Evaluator
  callables : List Prepared

namespace Owner

/-- The answer to a query, and the owner afterwards. -/
def ask (o : Owner) : Query → Answer × Owner
  | .set n v => (.done, { o with evaluator := o.evaluator.set n v })
  | .unset n => (.done, { o with evaluator := o.evaluator.unset n })
  | .get n fallback =>
    (.value ((o.evaluator.environment.lookup n).or (fallback.map Samples.scalar)), o)
  | .assignment => (.assignment o.evaluator.environment, o)
  | .evaluate text values =>
    let (r, ev) := o.evaluator.evaluateKept text values
    (.samples r, { o with evaluator := ev })
  | .compile text args =>
    let (r, ev) := o.evaluator.compileKept text args
    (.callable r, ⟨ev, o.callables ++ r.toOption.toList⟩)
  | .call index values overrides =>
    match o.callables[index]? with
    | some p => (.samples (p.call o.evaluator.environment values overrides), o)
    | none => (.samples (.error .missing), o)

/-- Answers queries one after the other. -/
def askAll (o : Owner) : List Query → List Answer × Owner
  | [] => ([], o)
  | q :: qs =>
    let (a, o) := o.ask q
    let (as, o) := askAll o qs
    (a :: as, o)

end Owner

/-- What is a copy's own. -/
structure Member where
  environment : Assignment
  callables : List Prepared

structure Family where
  /-- Its expressions and callables are those of all members; its
  variables are those of the member that was asked last. -/
  common : Evaluator
  members : List Member

namespace Family

/-- An evaluator that has no copies yet. -/
def ofEvaluator (ev : Evaluator) : Family := ⟨ev, [⟨ev.environment, []⟩]⟩

def owner (f : Family) (m : Member) : Owner :=
  ⟨{ f.common with environment := m.environment }, m.callables⟩

/-- A member, as it is after a query. -/
def put (f : Family) (member : Nat) (o : Owner) : Family :=
  ⟨o.evaluator, f.members.set member ⟨o.evaluator.environment, o.callables⟩⟩

/-- Takes a copy of a member; it is the last one. -/
def copy (f : Family) (member : Nat) : Family :=
  match f.members[member]? with
  | some m => { f with members := f.members ++ [{ m with callables := [] }] }
  | none => f

def ask (f : Family) (member : Nat) (q : Query) : Option Answer × Family :=
  match f.members[member]? with
  | some m =>
    let (a, o) := (f.owner m).ask q
    (some a, f.put member o)
  | none => (none, f)

inductive Act where
  | copy (member : Nat)
  | ask (member : Nat) (q : Query)

/-- Copies and queries one after the other, with the answers that each
member gave. -/
def run (f : Family) : List Act → List (Nat × Answer) × Family
  | [] => ([], f)
  | .copy i :: acts => (f.copy i).run acts
  | .ask i q :: acts =>
    let (a, f) := f.ask i q
    let (as, f) := f.run acts
    (a.toList.map (i, ·) ++ as, f)

/-- The answers of one member. -/
def answersOf (member : Nat) (log : List (Nat × Answer)) : List Answer :=
  log.filterMap fun e => if e.1 = member then some e.2 else none

/-- The queries to one member. -/
def queriesOf (member : Nat) (acts : List Act) : List Query :=
  acts.filterMap fun
    | .copy _ => none
    | .ask i q => if i = member then some q else none

end Family
end FieldScript
