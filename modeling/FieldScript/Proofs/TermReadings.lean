import FieldScript.Proofs.TextNames

/-!
# Readings of terms

What is read with some fuel is read with more, and with other lexemes behind
if they may follow: the reading of an expression looks at the lexemes up to
the first one that is not a part of it (`Term.Extends`, one case for each
function of the reader). So a reading can be spoken of without its fuel
(`Term.Reads`, `Term.Chains`), and it is the only one (`Term.Reads.unique`).
-/

namespace FieldScript
namespace Term

/-! ## What follows an expression -/

/-- The levels of the operands of a sum. -/
def Level.isSummand : Level → Bool
  | .product | .sign | .power | .operand => true
  | _ => false

/-- The lexemes may follow an expression of the level, and are no part of it:
nothing, a closing bracket, or a plus behind an operand of a sum. -/
inductive Follows : Level → List Lexeme → Prop
  | nil (level : Level) : Follows level []
  | bracket (level : Level) (ls : List Lexeme) : Follows level (.op ")" :: ls)
  | plus {level : Level} (h : level.isSummand = true) (ls : List Lexeme) : Follows level (.op "+" :: ls)

variable {suffix : List Lexeme}

theorem Follows.mono {level level' : Level} (h : Follows level suffix)
    (hsummand : level.isSummand = true → level'.isSummand = true) : Follows level' suffix := by
  cases h with
  | nil => exact .nil _
  | bracket => exact .bracket _ _
  | plus h => exact .plus (hsummand h) _

theorem Follows.tighter {level : Level} (h : Follows level suffix) : Follows level.tighter suffix :=
  h.mono (by cases level <;> decide)

/-- The reading of an expression of the level ends before the suffix: lexemes
are left over before it, or it may follow. -/
def Ends (level : Level) (rest suffix : List Lexeme) : Prop := rest = [] → Follows level suffix

/-- With this much fuel, what is read is read with more fuel too, and with
more lexemes behind. -/
structure Extends (suffix : List Lexeme) (fuel : Nat) : Prop where
  expr : ∀ level {ls t rest}, expr? fuel level ls = some (t, rest) → Ends level rest suffix →
    ∀ m ≥ fuel, expr? m level (ls ++ suffix) = some (t, rest ++ suffix)
  chain : ∀ level {a ls t rest}, chain? fuel level a ls = some (t, rest) → Ends level rest suffix →
    ∀ m ≥ fuel, chain? m level a (ls ++ suffix) = some (t, rest ++ suffix)
  comparisons : ∀ {ls ops ts rest}, comparisons? fuel ls = some (ops, ts, rest) →
    Ends .comparison rest suffix → ∀ m ≥ fuel, comparisons? m (ls ++ suffix) = some (ops, ts, rest ++ suffix)
  trailers : ∀ {a ls t rest}, trailers? fuel a ls = some (t, rest) → Ends .operand rest suffix →
    ∀ m ≥ fuel, trailers? m a (ls ++ suffix) = some (t, rest ++ suffix)
  items : ∀ close {ls ts comma rest}, items? fuel close ls = some (ts, comma, rest) →
    ∀ m ≥ fuel, items? m close (ls ++ suffix) = some (ts, comma, rest ++ suffix)
  itemsFrom : ∀ close {ls ts comma rest}, itemsFrom? fuel close ls = some (ts, comma, rest) →
    ∀ m ≥ fuel, itemsFrom? m close (ls ++ suffix) = some (ts, comma, rest ++ suffix)
  braces : ∀ {ls ts rest}, braces? fuel ls = some (ts, rest) →
    ∀ m ≥ fuel, braces? m (ls ++ suffix) = some (ts, rest ++ suffix)
  atom : ∀ {ls t rest}, atom? fuel ls = some (t, rest) → Ends .operand rest suffix →
    ∀ m ≥ fuel, atom? m (ls ++ suffix) = some (t, rest ++ suffix)

theorem extends_zero : Extends suffix 0 where
  expr _ _ _ _ h := by rw [expr?] at h; cases h
  chain _ _ _ _ _ h := by rw [chain?] at h; cases h
  comparisons h := by rw [comparisons?] at h; cases h
  trailers h := by rw [trailers?] at h; cases h
  items _ _ _ _ _ h := by rw [items?] at h; cases h
  itemsFrom _ _ _ _ _ h := by rw [itemsFrom?] at h; cases h
  braces h := by rw [braces?] at h; cases h
  atom h := by rw [atom?] at h; cases h

section Step

variable {fuel : Nat} {ls rest : List Lexeme} {t : Term}

/-- An operand, and another one if this lexeme follows. -/
def linked? (fuel : Nat) (first second : Level) (link : Lexeme) (join : Term → Term → Term) (ls : List Lexeme) :
    Option (Term × List Lexeme) := do
  let (a, rest) ← expr? fuel first ls
  if rest.head? = some link then
    let (b, rest) ← expr? fuel second rest.tail
    return (join a b, rest)
  else return (a, rest)

theorem expr?_either : expr? (fuel + 1) .either ls = linked? fuel .both .either (.name "or") .either ls := by
  rw [expr?, linked?]
  refine Option.bind_congr fun r _ => ?_
  obtain ⟨a, rest⟩ := r
  dsimp only
  split
  · rfl
  · rename_i hother
    rw [if_neg fun hhead => ?_]
    obtain ⟨rest', rfl⟩ := List.head?_eq_some_iff.mp hhead
    exact hother _ rfl

theorem expr?_both : expr? (fuel + 1) .both ls = linked? fuel .negation .both (.name "and") .both ls := by
  rw [expr?, linked?]
  refine Option.bind_congr fun r _ => ?_
  obtain ⟨a, rest⟩ := r
  dsimp only
  split
  · rfl
  · rename_i hother
    rw [if_neg fun hhead => ?_]
    obtain ⟨rest', rfl⟩ := List.head?_eq_some_iff.mp hhead
    exact hother _ rfl

theorem expr?_power : expr? (fuel + 1) .power ls = linked? fuel .operand .sign (.op "**") (.binary .pow) ls := by
  rw [expr?, linked?]
  refine Option.bind_congr fun r _ => ?_
  obtain ⟨a, rest⟩ := r
  dsimp only
  split
  · rfl
  · rename_i hother
    rw [if_neg fun hhead => ?_]
    obtain ⟨rest', rfl⟩ := List.head?_eq_some_iff.mp hhead
    exact hother _ rfl

theorem Extends.linked {level first second : Level} {link : Lexeme} {join : Term → Term → Term}
    (h : Extends suffix fuel) (ht : linked? fuel first second link join ls = some (t, rest))
    (hends : Ends level rest suffix) (hfirst : Follows level suffix → Follows first suffix)
    (hsecond : Follows level suffix → Follows second suffix)
    (hlink : link ≠ .op ")" ∧ link ≠ .op "+") (m : Nat) (hm : m ≥ fuel) :
    linked? m first second link join (ls ++ suffix) = some (t, rest ++ suffix) := by
  rw [linked?] at ht ⊢
  obtain ⟨⟨a, rest₁⟩, ha, ht⟩ := Option.bind_eq_some_iff.mp ht
  dsimp only at ht
  cases rest₁ with
  | nil =>
      cases ht
      have hfollows := hends rfl
      rw [h.expr _ ha (fun _ => hfirst hfollows) m hm]
      have hhead : suffix.head? ≠ some link := by
        cases hfollows with
        | nil => exact fun hnone => by cases hnone
        | bracket => exact fun heq => hlink.1 (Option.some.inj heq).symm
        | plus => exact fun heq => hlink.2 (Option.some.inj heq).symm
      exact if_neg hhead
  | cons l rest₁ =>
      rw [h.expr _ ha (fun hnil => by cases hnil) m hm, Option.bind_eq_bind, Option.bind_some]
      dsimp only
      by_cases hhead : (l :: rest₁).head? = some link
      · rw [if_pos hhead] at ht
        obtain ⟨⟨b, rest₂⟩, hb, ht⟩ := Option.bind_eq_some_iff.mp ht
        cases ht
        rw [if_pos (show (l :: rest₁ ++ suffix).head? = some link from hhead)]
        show expr? m second ((l :: rest₁).tail ++ suffix) >>= _ = _
        rw [h.expr _ hb (fun hnil => hsecond (hends hnil)) m hm]
        rfl
      · rw [if_neg hhead] at ht
        cases ht
        exact if_neg hhead

theorem Extends.choice_succ (h : Extends suffix fuel) (ht : expr? (fuel + 1) .choice ls = some (t, rest))
    (hends : Ends .choice rest suffix) (m : Nat) (hm : m ≥ fuel) :
    expr? (m + 1) .choice (ls ++ suffix) = some (t, rest ++ suffix) := by
  rw [expr?] at ht ⊢
  obtain ⟨⟨a, rest₁⟩, ha, ht⟩ := Option.bind_eq_some_iff.mp ht
  cases rest₁ with
  | nil =>
      cases ht
      have hfollows := hends rfl
      rw [h.expr _ ha (fun _ => hfollows.tighter) m hm]
      cases hfollows <;> rfl
  | cons l rest₁ =>
      rw [h.expr _ ha (fun hnil => by cases hnil) m hm]
      dsimp only [Option.bind_eq_bind, Option.bind_some, List.cons_append] at ht ⊢
      split at ht
      · rename_i heq
        cases heq
        obtain ⟨⟨c, rest₂⟩, hc, ht⟩ := Option.bind_eq_some_iff.mp ht
        cases rest₂ with
        | nil => cases ht
        | cons l' rest₂ =>
            refine Option.bind_eq_some_iff.mpr ⟨_, h.expr _ hc (fun hnil => by cases hnil) m hm, ?_⟩
            dsimp only at ht
            split at ht
            · rename_i heq
              cases heq
              obtain ⟨⟨b, rest₃⟩, hb, ht⟩ := Option.bind_eq_some_iff.mp ht
              cases ht
              exact Option.bind_eq_some_iff.mpr ⟨_, h.expr _ hb hends m hm, rfl⟩
            · cases ht
      · rename_i hother
        cases ht
        split
        · rename_i heq
          cases heq
          exact absurd rfl (hother _)
        · rfl

theorem expr?_nil (fuel : Nat) (level : Level) : expr? fuel level [] = none := by
  induction fuel generalizing level with
  | zero => rw [expr?]
  | succ fuel ih =>
      cases level with
      | operand =>
          have hatom : atom? fuel [] = none := by cases fuel <;> rw [atom?.eq_def]
          rw [expr?, hatom]
          rfl
      | _ =>
          rw [expr?.eq_def]
          simp [ih]

theorem ne_nil_of_expr? {level : Level} {r : Term × List Lexeme} (h : expr? fuel level ls = some r) : ls ≠ [] := by
  rintro rfl
  rw [expr?_nil] at h
  cases h

theorem Extends.negation_succ (h : Extends suffix fuel) (ht : expr? (fuel + 1) .negation ls = some (t, rest))
    (hends : Ends .negation rest suffix) (m : Nat) (hm : m ≥ fuel) :
    expr? (m + 1) .negation (ls ++ suffix) = some (t, rest ++ suffix) := by
  obtain ⟨l, ls, rfl⟩ := List.exists_cons_of_ne_nil (ne_nil_of_expr? ht)
  rw [expr?.eq_def] at ht ⊢
  dsimp only at ht ⊢
  split at ht
  · rename_i heq
    cases heq
    obtain ⟨⟨a, rest₁⟩, ha, ht⟩ := Option.bind_eq_some_iff.mp ht
    cases ht
    exact Option.bind_eq_some_iff.mpr ⟨_, h.expr _ ha hends m hm, rfl⟩
  · rename_i hother
    split
    · rename_i heq
      cases heq
      exact absurd rfl (hother _)
    · exact h.expr _ ht (fun hnil => (hends hnil).tighter) m hm

theorem Extends.sign_succ (h : Extends suffix fuel) (ht : expr? (fuel + 1) .sign ls = some (t, rest))
    (hends : Ends .sign rest suffix) (m : Nat) (hm : m ≥ fuel) :
    expr? (m + 1) .sign (ls ++ suffix) = some (t, rest ++ suffix) := by
  obtain ⟨l, ls, rfl⟩ := List.exists_cons_of_ne_nil (ne_nil_of_expr? ht)
  have hpower : ∀ {ls : List Lexeme}, expr? fuel .power ls = some (t, rest) →
      expr? m .power (ls ++ suffix) = some (t, rest ++ suffix) :=
    fun ht => h.expr _ ht (fun hnil => (hends hnil).tighter) m hm
  rw [expr?.eq_def] at ht ⊢
  dsimp only at ht ⊢
  split at ht
  · rename_i heq
    cases heq
    dsimp only [List.cons_append]
    split at ht
    · obtain ⟨⟨a, rest₁⟩, ha, ht⟩ := Option.bind_eq_some_iff.mp ht
      cases ht
      exact Option.bind_eq_some_iff.mpr ⟨_, h.expr _ ha hends m hm, rfl⟩
    · exact hpower ht
  · rename_i hother
    split
    · rename_i heq
      cases heq
      exact absurd rfl (hother _ _)
    · exact hpower ht

theorem rest_of_chain?_nil {level : Level} {a : Term} (h : chain? fuel level a [] = some (t, rest)) : rest = [] := by
  cases fuel with
  | zero => rw [chain?] at h; cases h
  | succ fuel => rw [chain?.eq_def] at h; cases h; rfl

theorem rest_of_comparisons?_nil {ops : List CompareOp} {ts : List Term}
    (h : comparisons? fuel [] = some (ops, ts, rest)) : rest = [] := by
  cases fuel with
  | zero => rw [comparisons?] at h; cases h
  | succ fuel => rw [comparisons?.eq_def] at h; cases h; rfl

theorem rest_of_trailers?_nil {a : Term} (h : trailers? fuel a [] = some (t, rest)) : rest = [] := by
  cases fuel with
  | zero => rw [trailers?] at h; cases h
  | succ fuel => rw [trailers?.eq_def] at h; cases h; rfl

theorem Extends.expr_succ (h : Extends suffix fuel) (level : Level)
    (ht : expr? (fuel + 1) level ls = some (t, rest)) (hends : Ends level rest suffix) (m : Nat) (hm : m ≥ fuel) :
    expr? (m + 1) level (ls ++ suffix) = some (t, rest ++ suffix) := by
  cases level with
  | choice => exact h.choice_succ ht hends m hm
  | either =>
      rw [expr?_either] at ht ⊢
      exact h.linked ht hends Follows.tighter id ⟨by simp, by simp⟩ m hm
  | both =>
      rw [expr?_both] at ht ⊢
      exact h.linked ht hends Follows.tighter id ⟨by simp, by simp⟩ m hm
  | negation => exact h.negation_succ ht hends m hm
  | comparison =>
      rw [expr?] at ht ⊢
      obtain ⟨⟨a, rest₁⟩, ha, ht⟩ := Option.bind_eq_some_iff.mp ht
      obtain ⟨⟨ops, more, rest₂⟩, hmore, ht⟩ := Option.bind_eq_some_iff.mp ht
      cases ht
      have hjoin : Ends .join rest₁ suffix := by
        rintro rfl
        exact (hends (rest_of_comparisons?_nil hmore)).tighter
      refine Option.bind_eq_some_iff.mpr ⟨_, h.expr _ ha hjoin m hm, ?_⟩
      exact Option.bind_eq_some_iff.mpr ⟨_, h.comparisons hmore hends m hm, rfl⟩
  | sign => exact h.sign_succ ht hends m hm
  | power =>
      rw [expr?_power] at ht ⊢
      exact h.linked ht hends Follows.tighter (Follows.mono · fun _ => rfl) ⟨by simp, by simp⟩ m hm
  | operand =>
      rw [expr?] at ht ⊢
      obtain ⟨⟨a, rest₁⟩, ha, ht⟩ := Option.bind_eq_some_iff.mp ht
      have hatom : Ends .operand rest₁ suffix := by
        rintro rfl
        exact hends (rest_of_trailers?_nil ht)
      exact Option.bind_eq_some_iff.mpr ⟨_, h.atom ha hatom m hm, h.trailers ht hends m hm⟩
  | join | meet | shift | sum | product =>
      rw [expr?] at ht ⊢
      · obtain ⟨⟨a, rest₁⟩, ha, ht⟩ := Option.bind_eq_some_iff.mp ht
        refine Option.bind_eq_some_iff.mpr ⟨_, h.expr _ ha ?_ m hm, h.chain _ ht hends m hm⟩
        rintro rfl
        exact (hends (rest_of_chain?_nil ht)).tighter
      all_goals simp

theorem Follows.operator? {level : Level} {s : String} {ls : List Lexeme} (h : Follows level (.op s :: ls)) :
    level.operator? s = none := by
  cases h with
  | bracket => cases level <;> rfl
  | plus h => cases level <;> first | rfl | cases h

theorem Follows.comparison? {level : Level} {s : String} {ls : List Lexeme} (h : Follows level (.op s :: ls)) :
    comparison? s = none := by
  cases h <;> rfl

theorem Extends.chain_succ (h : Extends suffix fuel) (level : Level) {a : Term}
    (ht : chain? (fuel + 1) level a ls = some (t, rest)) (hends : Ends level rest suffix) (m : Nat) (hm : m ≥ fuel) :
    chain? (m + 1) level a (ls ++ suffix) = some (t, rest ++ suffix) := by
  cases ls with
  | nil =>
      rw [chain?.eq_def] at ht ⊢
      cases ht
      have hfollows := hends rfl
      rw [List.nil_append]
      dsimp only
      split
      · rw [hfollows.operator?]
      · rfl
  | cons l ls =>
      rw [chain?.eq_def] at ht ⊢
      dsimp only at ht ⊢
      split at ht
      · rename_i heq
        cases heq
        dsimp only [List.cons_append]
        split at ht
        · obtain ⟨⟨b, rest₁⟩, hb, ht⟩ := Option.bind_eq_some_iff.mp ht
          refine Option.bind_eq_some_iff.mpr ⟨_, h.expr _ hb ?_ m hm, h.chain _ ht hends m hm⟩
          rintro rfl
          exact (hends (rest_of_chain?_nil ht)).tighter
        · cases ht
          rfl
      · rename_i hother
        cases ht
        split
        · rename_i heq
          cases heq
          exact absurd rfl (hother _ _)
        · rfl

theorem Extends.comparisons_succ (h : Extends suffix fuel) {ops : List CompareOp} {ts : List Term}
    (ht : comparisons? (fuel + 1) ls = some (ops, ts, rest)) (hends : Ends .comparison rest suffix)
    (m : Nat) (hm : m ≥ fuel) : comparisons? (m + 1) (ls ++ suffix) = some (ops, ts, rest ++ suffix) := by
  cases ls with
  | nil =>
      rw [comparisons?.eq_def] at ht ⊢
      cases ht
      have hfollows := hends rfl
      rw [List.nil_append]
      dsimp only
      split
      · rw [hfollows.comparison?]
      · rfl
  | cons l ls =>
      rw [comparisons?.eq_def] at ht ⊢
      dsimp only at ht ⊢
      split at ht
      · rename_i heq
        cases heq
        dsimp only [List.cons_append]
        split at ht
        · obtain ⟨⟨b, rest₁⟩, hb, ht⟩ := Option.bind_eq_some_iff.mp ht
          obtain ⟨⟨ops', ts', rest₂⟩, hmore, ht⟩ := Option.bind_eq_some_iff.mp ht
          cases ht
          have hjoin : Ends .join rest₁ suffix := by
            rintro rfl
            exact (hends (rest_of_comparisons?_nil hmore)).tighter
          refine Option.bind_eq_some_iff.mpr ⟨_, h.expr _ hb hjoin m hm, ?_⟩
          exact Option.bind_eq_some_iff.mpr ⟨_, h.comparisons hmore hends m hm, rfl⟩
        · cases ht
          rfl
      · rename_i hother
        cases ht
        split
        · rename_i heq
          cases heq
          exact absurd rfl (hother _ _)
        · rfl

theorem Extends.trailers_succ (h : Extends suffix fuel) {a : Term}
    (ht : trailers? (fuel + 1) a ls = some (t, rest)) (hends : Ends .operand rest suffix) (m : Nat) (hm : m ≥ fuel) :
    trailers? (m + 1) a (ls ++ suffix) = some (t, rest ++ suffix) := by
  cases ls with
  | nil =>
      rw [trailers?.eq_def] at ht ⊢
      cases ht
      cases hends rfl <;> rfl
  | cons l ls =>
      rw [trailers?.eq_def] at ht ⊢
      dsimp only at ht ⊢
      split at ht
      · rename_i heq
        cases heq
        obtain ⟨⟨args, comma, rest₁⟩, hargs, ht⟩ := Option.bind_eq_some_iff.mp ht
        exact Option.bind_eq_some_iff.mpr ⟨_, h.items _ hargs m hm, h.trailers ht hends m hm⟩
      · rename_i heq
        cases heq
        obtain ⟨⟨items, comma, rest₁⟩, hitems, ht⟩ := Option.bind_eq_some_iff.mp ht
        refine Option.bind_eq_some_iff.mpr ⟨_, h.items _ hitems m hm, ?_⟩
        dsimp only at ht ⊢
        split at ht
        · cases ht
        · exact h.trailers ht hends m hm
        · exact h.trailers ht hends m hm
      · rename_i hround hsquare
        cases ht
        split
        · rename_i heq
          cases heq
          exact absurd rfl (hround _)
        · rename_i heq
          cases heq
          exact absurd rfl (hsquare _)
        · rfl

theorem Extends.items_succ (h : Extends suffix fuel) (close : String) {ts : List Term} {comma : Bool}
    (ht : items? (fuel + 1) close ls = some (ts, comma, rest)) (m : Nat) (hm : m ≥ fuel) :
    items? (m + 1) close (ls ++ suffix) = some (ts, comma, rest ++ suffix) := by
  cases ls with
  | nil =>
      rw [items?.eq_def] at ht
      have hnone : itemsFrom? fuel close [] = none := by
        cases fuel with
        | zero => rw [itemsFrom?]
        | succ fuel =>
            rw [itemsFrom?, expr?_nil]
            rfl
      cases hnone.symm.trans ht
  | cons l ls =>
      rw [items?.eq_def] at ht ⊢
      dsimp only at ht ⊢
      split at ht
      · rename_i heq
        cases heq
        dsimp only [List.cons_append]
        split at ht
        · rename_i hclose
          cases ht
          exact if_pos hclose
        · rename_i hclose
          exact (if_neg hclose).trans (h.itemsFrom _ ht m hm)
      · rename_i hother
        split
        · rename_i heq
          cases heq
          exact absurd rfl (hother _ _)
        · exact h.itemsFrom _ ht m hm

theorem Extends.itemsFrom_succ (h : Extends suffix fuel) (close : String) {ts : List Term} {comma : Bool}
    (ht : itemsFrom? (fuel + 1) close ls = some (ts, comma, rest)) (m : Nat) (hm : m ≥ fuel) :
    itemsFrom? (m + 1) close (ls ++ suffix) = some (ts, comma, rest ++ suffix) := by
  rw [itemsFrom?] at ht ⊢
  obtain ⟨⟨a, rest₁⟩, ha, ht⟩ := Option.bind_eq_some_iff.mp ht
  cases rest₁ with
  | nil => cases ht
  | cons l rest₁ =>
      refine Option.bind_eq_some_iff.mpr ⟨_, h.expr _ ha (fun hnil => by cases hnil) m hm, ?_⟩
      dsimp only [List.cons_append] at ht ⊢
      split at ht
      · rename_i heq
        cases heq
        obtain ⟨⟨as, comma', rest₂⟩, has, ht⟩ := Option.bind_eq_some_iff.mp ht
        cases ht
        exact Option.bind_eq_some_iff.mpr ⟨_, h.items _ has m hm, rfl⟩
      · rename_i hcomma heq
        cases heq
        split at ht
        · rename_i hclose
          cases ht
          split
          · rename_i heq
            cases heq
            exact absurd rfl hcomma
          · rename_i heq
            cases heq
            exact if_pos hclose
          · rename_i hop
            exact absurd rfl (hop _ _)
        · cases ht
      · cases ht

/-- What stands behind an item in braces, or behind a pair of items: more
items, or the end. -/
def bracesFrom? (fuel : Nat) (as : List Term) : List Lexeme → Option (List Term × List Lexeme)
  | .op "," :: rest => (braces? fuel rest).bind fun r => some (as ++ r.1, r.2)
  | .op "\x7d" :: rest => some (as, rest)
  | _ => none

theorem Extends.bracesFrom (h : Extends suffix fuel) {as ts : List Term}
    (ht : bracesFrom? fuel as ls = some (ts, rest)) (m : Nat) (hm : m ≥ fuel) :
    bracesFrom? m as (ls ++ suffix) = some (ts, rest ++ suffix) := by
  unfold bracesFrom? at ht
  split at ht
  · obtain ⟨⟨bs, rest₁⟩, hbs, ht⟩ := Option.bind_eq_some_iff.mp ht
    cases ht
    exact Option.bind_eq_some_iff.mpr ⟨_, h.braces hbs m hm, rfl⟩
  · cases ht
    rfl
  · cases ht

theorem Extends.braces_succ (h : Extends suffix fuel) {ts : List Term}
    (ht : braces? (fuel + 1) ls = some (ts, rest)) (m : Nat) (hm : m ≥ fuel) :
    braces? (m + 1) (ls ++ suffix) = some (ts, rest ++ suffix) := by
  cases ls with
  | nil =>
      rw [braces?.eq_def] at ht
      dsimp only at ht
      rw [expr?_nil] at ht
      cases ht
  | cons l ls =>
      rw [braces?.eq_def] at ht ⊢
      dsimp only at ht ⊢
      split at ht
      · rename_i heq
        cases heq
        cases ht
        rfl
      · rename_i hother
        split
        · rename_i heq
          cases heq
          exact absurd rfl (hother _)
        · obtain ⟨⟨a, rest₁⟩, ha, ht⟩ := Option.bind_eq_some_iff.mp ht
          cases rest₁ with
          | nil => cases ht
          | cons l' rest₁ =>
              refine Option.bind_eq_some_iff.mpr ⟨_, h.expr _ ha (fun hnil => by cases hnil) m hm, ?_⟩
              dsimp only [List.cons_append] at ht ⊢
              split at ht
              · rename_i heq
                cases heq
                obtain ⟨⟨b, rest₂⟩, hb, ht⟩ := Option.bind_eq_some_iff.mp ht
                refine Option.bind_eq_some_iff.mpr ⟨_, h.expr _ hb ?_ m hm, h.bracesFrom ht m hm⟩
                rintro rfl
                cases ht
              · rename_i hcolon
                split
                · rename_i heq
                  cases heq
                  exact absurd rfl (hcolon _)
                · show bracesFrom? m _ (l' :: rest₁ ++ suffix) = _
                  exact h.bracesFrom ht m hm

theorem Extends.atom_succ (h : Extends suffix fuel) (ht : atom? (fuel + 1) ls = some (t, rest))
    (hends : Ends .operand rest suffix) (m : Nat) (hm : m ≥ fuel) :
    atom? (m + 1) (ls ++ suffix) = some (t, rest ++ suffix) := by
  cases ls with
  | nil =>
      rw [atom?.eq_def] at ht
      cases ht
  | cons l ls =>
      rw [atom?.eq_def] at ht
      dsimp only at ht
      split at ht
      case h_1 | h_2 =>
        rename_i heq
        cases heq
        cases ht
        rw [List.cons_append, atom?]
      case h_3 =>
        rename_i heq
        cases heq
        rw [List.cons_append, List.cons_append, atom?]
        exact h.atom ht hends m hm
      case h_4 =>
        rename_i hnext heq
        cases heq
        cases ht
        rw [List.cons_append]
        cases rest with
        | nil => cases hends rfl <;> rw [List.nil_append, atom?] <;> simp
        | cons l rest =>
            rw [List.cons_append, atom?]
            intro t rest' heq
            cases heq
            exact hnext _ _ rfl
      case h_5 =>
        rename_i heq
        cases heq
        rw [List.cons_append, atom?]
        split at ht
        · cases ht
        · rename_i hreserved
          cases ht
          rw [if_neg hreserved]
          cases rest with
          | nil => cases hends rfl <;> rfl
          | cons l rest => rfl
      case h_6 =>
        rename_i heq
        cases heq
        rw [List.cons_append, atom?]
        obtain ⟨⟨items, comma, rest₁⟩, hitems, ht⟩ := Option.bind_eq_some_iff.mp ht
        refine Option.bind_eq_some_iff.mpr ⟨_, h.items _ hitems m hm, ?_⟩
        dsimp only at ht ⊢
        split at ht <;> cases ht <;> rfl
      case h_7 =>
        rename_i heq
        cases heq
        rw [List.cons_append, atom?]
        obtain ⟨⟨items, comma, rest₁⟩, hitems, ht⟩ := Option.bind_eq_some_iff.mp ht
        cases ht
        exact Option.bind_eq_some_iff.mpr ⟨_, h.items _ hitems m hm, rfl⟩
      case h_8 =>
        rename_i heq
        cases heq
        rw [List.cons_append, atom?]
        obtain ⟨⟨items, rest₁⟩, hitems, ht⟩ := Option.bind_eq_some_iff.mp ht
        cases ht
        exact Option.bind_eq_some_iff.mpr ⟨_, h.braces hitems m hm, rfl⟩
      case h_9 => cases ht

theorem Extends.succ (h : Extends suffix fuel) : Extends suffix (fuel + 1) where
  expr level _ _ _ ht hends := fun | m + 1, hm => h.expr_succ level ht hends m (Nat.le_of_succ_le_succ hm)
  chain level _ _ _ _ ht hends := fun | m + 1, hm => h.chain_succ level ht hends m (Nat.le_of_succ_le_succ hm)
  comparisons ht hends := fun | m + 1, hm => h.comparisons_succ ht hends m (Nat.le_of_succ_le_succ hm)
  trailers ht hends := fun | m + 1, hm => h.trailers_succ ht hends m (Nat.le_of_succ_le_succ hm)
  items close _ _ _ _ ht := fun | m + 1, hm => h.items_succ close ht m (Nat.le_of_succ_le_succ hm)
  itemsFrom close _ _ _ _ ht := fun | m + 1, hm => h.itemsFrom_succ close ht m (Nat.le_of_succ_le_succ hm)
  braces ht := fun | m + 1, hm => h.braces_succ ht m (Nat.le_of_succ_le_succ hm)
  atom ht hends := fun | m + 1, hm => h.atom_succ ht hends m (Nat.le_of_succ_le_succ hm)

end Step

theorem extends_fuel (suffix : List Lexeme) : ∀ fuel, Extends suffix fuel
  | 0 => extends_zero
  | fuel + 1 => (extends_fuel suffix fuel).succ

/-! ## Readings -/

/-- With some fuel, the lexemes are read as a term and these others. -/
def Reads (level : Level) (ls : List Lexeme) (t : Term) (rest : List Lexeme) : Prop :=
  ∃ fuel, expr? fuel level ls = some (t, rest)

/-- With some fuel, the operands behind a term make it another one. -/
def Chains (level : Level) (a : Term) (ls : List Lexeme) (t : Term) (rest : List Lexeme) : Prop :=
  ∃ fuel, chain? fuel level a ls = some (t, rest)

section Readings

variable {level : Level} {ls rest rest' : List Lexeme} {a b t t' : Term} {fuel m : Nat}

theorem expr?_mono (h : expr? fuel level ls = some (t, rest)) (hm : fuel ≤ m) :
    expr? m level ls = some (t, rest) := by
  simpa using (extends_fuel [] fuel).expr level h (fun _ => .nil _) m hm

theorem chain?_mono (h : chain? fuel level a ls = some (t, rest)) (hm : fuel ≤ m) :
    chain? m level a ls = some (t, rest) := by
  simpa using (extends_fuel [] fuel).chain level h (fun _ => .nil _) m hm

theorem Reads.unique (h : Reads level ls t rest) (h' : Reads level ls t' rest') : t = t' ∧ rest = rest' := by
  obtain ⟨n, hn⟩ := h
  obtain ⟨n', hn'⟩ := h'
  have h := (expr?_mono hn (Nat.le_max_left n n')).symm.trans (expr?_mono hn' (Nat.le_max_right n n'))
  exact Prod.mk.inj (Option.some.inj h)

theorem Reads.append (h : Reads level ls t rest) (hends : Ends level rest suffix) :
    Reads level (ls ++ suffix) t (rest ++ suffix) := by
  obtain ⟨n, hn⟩ := h
  exact ⟨n, (extends_fuel suffix n).expr level hn hends n le_rfl⟩

theorem reads_chain (hlevel : level.isLeftAssociative = true) : Reads level ls t rest ↔
    ∃ a rest₁, Reads level.tighter ls a rest₁ ∧ Chains level a rest₁ t rest := by
  have hstep : ∀ fuel, expr? (fuel + 1) level ls =
      expr? fuel level.tighter ls >>= fun r => chain? fuel level r.1 r.2 := by
    intro fuel
    cases level with
    | join | meet | shift | sum | product => rw [expr?] <;> simp
    | _ => cases hlevel
  constructor
  · rintro ⟨fuel, h⟩
    cases fuel with
    | zero => rw [expr?] at h; cases h
    | succ fuel =>
        rw [hstep] at h
        obtain ⟨⟨a, rest₁⟩, ha, h⟩ := Option.bind_eq_some_iff.mp h
        exact ⟨a, rest₁, ⟨fuel, ha⟩, fuel, h⟩
  · rintro ⟨a, rest₁, ⟨n, ha⟩, n', h⟩
    refine ⟨max n n' + 1, ?_⟩
    rw [hstep, expr?_mono ha (Nat.le_max_left n n')]
    exact chain?_mono h (Nat.le_max_right n n')

theorem Chains.stop (h : ∀ s ls', ls = .op s :: ls' → level.operator? s = none) : Chains level a ls a ls := by
  refine ⟨1, ?_⟩
  rw [chain?.eq_def]
  dsimp only
  split
  · rw [h _ _ rfl]
  · rfl

theorem Chains.cons {s : String} {op : BinaryOp} {rest₁ : List Lexeme} (hop : level.operator? s = some op)
    (hb : Reads level.tighter ls b rest₁) (h : Chains level (.binary op a b) rest₁ t rest) :
    Chains level a (.op s :: ls) t rest := by
  obtain ⟨n, hb⟩ := hb
  obtain ⟨n', h⟩ := h
  refine ⟨max n n' + 1, ?_⟩
  rw [chain?.eq_def]
  dsimp only
  rw [hop]
  refine Option.bind_eq_some_iff.mpr ⟨_, expr?_mono hb (Nat.le_max_left n n'), ?_⟩
  exact chain?_mono h (Nat.le_max_right n n')

/-- A chain ends at once, or it goes on with an operator and an operand. -/
theorem Chains.induction {P : Term → List Lexeme → Prop} (h : Chains level a ls t rest)
    (stop : (∀ s ls', rest = .op s :: ls' → level.operator? s = none) → P t rest)
    (cons : ∀ {a s op b ls rest₁}, level.operator? s = some op → Reads level.tighter ls b rest₁ →
      P (.binary op a b) rest₁ → P a (.op s :: ls)) : P a ls := by
  obtain ⟨fuel, h⟩ := h
  induction fuel generalizing a ls with
  | zero => rw [chain?] at h; cases h
  | succ fuel ih =>
      rw [chain?.eq_def] at h
      dsimp only at h
      split at h
      · split at h
        · rename_i hop
          obtain ⟨⟨b, rest₁⟩, hb, h⟩ := Option.bind_eq_some_iff.mp h
          exact cons hop ⟨fuel, hb⟩ (ih h)
        · rename_i hop
          cases h
          refine stop fun s ls' heq => ?_
          cases heq
          exact hop
      · rename_i hother
        cases h
        exact stop fun s ls' heq => absurd heq (hother s ls')

end Readings

end Term
end FieldScript
