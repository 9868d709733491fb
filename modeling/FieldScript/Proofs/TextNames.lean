import FieldScript.Proofs.TermValue

/-!
# The names in a text

What a text means depends on what its names mean, and its names are those
among its lexemes: factorial signs bring in no other (`Lexeme.ofText?_eq`),
and no term has a name that is not among the lexemes it is read of
(`Term.names_of_ofLexemes?`).

Two scopes may differ in what a name means where arguments follow it. A
text is read alike in both if it calls none of these names
(`Expr.ofText_congr`).
-/

namespace FieldScript

/-! ## Options -/

theorem forall_mem_bind {α β : Type} {r : Option α} {k : α → Option β} {Q : α → Prop}
    {R : β → Prop} (hr : ∀ a ∈ r, Q a) (hk : ∀ a, Q a → ∀ b ∈ k a, R b) :
    ∀ b ∈ r >>= k, R b := by
  intro b hb
  obtain ⟨a, ha, hb⟩ := Option.bind_eq_some_iff.mp hb
  exact hk a (hr a ha) b hb

theorem forall_mem_some {β : Type} {R : β → Prop} {b : β} (h : R b) : ∀ b' ∈ some b, R b' := by
  intro b' hb'
  cases hb'
  exact h

theorem forall_mem_none {β : Type} {R : β → Prop} : ∀ b ∈ (none : Option β), R b :=
  fun _ hb => by cases hb

/-! ## Names of lexemes -/

/-- The names among the lexemes have the property. -/
def NamesIn (P : String → Prop) (ls : List Lexeme) : Prop := ∀ n, .name n ∈ ls → P n

variable {P : String → Prop}

theorem NamesIn.append {ls ks : List Lexeme} (h : NamesIn P ls) (h' : NamesIn P ks) :
    NamesIn P (ls ++ ks) :=
  fun n hn => (List.mem_append.mp hn).elim (h n) (h' n)

theorem NamesIn.cons {l : Lexeme} {ls : List Lexeme} (hl : ∀ n, l = .name n → P n)
    (h : NamesIn P ls) : NamesIn P (l :: ls) :=
  fun n hn => (List.mem_cons.mp hn).elim (fun heq => hl n heq.symm) (h n)

theorem NamesIn.tail {l : Lexeme} {ls : List Lexeme} (h : NamesIn P (l :: ls)) : NamesIn P ls :=
  fun n hn => h n (List.mem_cons_of_mem _ hn)

namespace Lexeme

/-! ### Factorials -/

theorem append_of_operandFrom {depth : Nat} {ls operand front : List Lexeme}
    (h : operandFrom depth ls = some (operand, front)) : ls = operand ++ front := by
  induction ls generalizing depth operand front with
  | nil => cases h
  | cons l ls ih =>
      have hstep : ∀ d : Nat, (if d == 0 then some ([l], ls)
          else (operandFrom d ls).map fun r => (l :: r.1, r.2)) = some (operand, front) →
            l :: ls = operand ++ front := by
        intro d hd
        split at hd
        · cases hd
          rfl
        · obtain ⟨⟨a, b⟩, hab, hd⟩ := Option.map_eq_some_iff.mp hd
          cases hd
          rw [ih hab]
          rfl
      rw [operandFrom.eq_def] at h
      exact hstep _ h

/-- What is made of lexemes depends on the names that are known in one way
only: if some names that it asks for are known, it is always the same, and
nothing otherwise. All its names are among the lexemes, but for that of the
factorial. -/
def Asks (ls : List Lexeme) (make : (String → Bool) → Option (List Lexeme)) : Prop :=
  ∃ (asked : List String) (r : Option (List Lexeme)),
    (∀ known, make known = if asked.all known then r else none) ∧
      ∀ P : String → Prop, P "factorial" → NamesIn P ls →
        (∀ n ∈ asked, P n) ∧ ∀ ks ∈ r, NamesIn P ks

section Asks

variable {ls ks : List Lexeme} {make : (String → Bool) → Option (List Lexeme)}

theorem asks_none : Asks ls fun _ => none :=
  ⟨[], none, fun _ => rfl, fun _ _ _ => ⟨List.forall_mem_nil _, forall_mem_none⟩⟩

theorem asks_some (h : ∀ P : String → Prop, P "factorial" → NamesIn P ls → NamesIn P ks) :
    Asks ls fun _ => some ks :=
  ⟨[], some ks, fun _ => rfl, fun P hfactorial hls =>
    ⟨List.forall_mem_nil _, forall_mem_some (h P hfactorial hls)⟩⟩

theorem Asks.mono (h : Asks ls make) (hsub : ∀ n, .name n ∈ ls → .name n ∈ ks) : Asks ks make := by
  obtain ⟨asked, r, hmake, hnames⟩ := h
  exact ⟨asked, r, hmake, fun P hfactorial hks => hnames P hfactorial fun n hn => hks n (hsub n hn)⟩

/-- Only if one more name is known, something is made. -/
theorem Asks.of_name {n : String} (h : Asks ls make) (hn : .name n ∈ ls) :
    Asks ls fun known => if known n then make known else none := by
  obtain ⟨asked, r, hmake, hnames⟩ := h
  refine ⟨n :: asked, r, fun known => ?_, fun P hfactorial hls => ?_⟩
  · dsimp only
    rw [hmake, List.all_cons]
    cases known n <;> rfl
  · obtain ⟨hasked, hr⟩ := hnames P hfactorial hls
    exact ⟨List.forall_mem_cons.mpr ⟨hls n hn, hasked⟩, hr⟩

/-- Making something else of what was made asks for the names of both. -/
theorem Asks.bind (h : Asks ls make) {next : List Lexeme → (String → Bool) → Option (List Lexeme)}
    (hnext : ∀ done, Asks (done ++ ks) (next done)) :
    Asks (ls ++ ks) fun known => make known >>= fun done => next done known := by
  obtain ⟨asked, r, hmake, hnames⟩ := h
  have hleft : ∀ {P : String → Prop}, NamesIn P (ls ++ ks) → NamesIn P ls :=
    fun h n hn => h n (List.mem_append_left _ hn)
  cases r with
  | none =>
      refine ⟨asked, none, fun known => ?_, fun P hfactorial hls => ?_⟩
      · dsimp only
        rw [hmake, ite_self]
        rfl
      · exact hnames P hfactorial (hleft hls)
  | some done =>
      obtain ⟨asked', r', hmake', hnames'⟩ := hnext done
      refine ⟨asked ++ asked', r', fun known => ?_, fun P hfactorial hls => ?_⟩
      · dsimp only
        rw [hmake, List.all_append]
        cases asked.all known with
        | true => exact hmake' known
        | false => rfl
      · obtain ⟨hasked, hdone⟩ := hnames P hfactorial (hleft hls)
        have hks : NamesIn P ks := fun n hn => hls n (List.mem_append_right _ hn)
        obtain ⟨hasked', hr⟩ := hnames' P hfactorial ((hdone done rfl).append hks)
        exact ⟨List.forall_mem_append.mpr ⟨hasked, hasked'⟩, hr⟩

end Asks

/-- A factorial sign asks for the name before a group in brackets. -/
theorem asks_applyFactorial? (before : List Lexeme) :
    Asks before fun known => applyFactorial? known before := by
  -- the call of the factorial is put around the operand
  have hcall : ∀ operand front : List Lexeme,
      Asks (operand ++ front) fun _ =>
        some (op ")" :: (operand ++ op "(" :: name "factorial" :: front)) := by
    refine fun operand front => asks_some fun P hfactorial h => ?_
    have hoperand : NamesIn P operand := fun n hn => h n (List.mem_append_left _ hn)
    have hfront : NamesIn P front := fun n hn => h n (List.mem_append_right _ hn)
    refine .cons (fun n h => by cases h) (hoperand.append ?_)
    refine .cons (fun n h => by cases h) (.cons (fun n h => ?_) hfront)
    cases h
    exact hfactorial
  unfold applyFactorial?
  split
  · exact asks_none
  · exact asks_none
  · cases hoperand : operandFrom 0 before with
    | none => exact asks_none
    | some r =>
        obtain ⟨operand, front⟩ := r
        rw [append_of_operandFrom hoperand]
        dsimp only [Option.bind_eq_bind, Option.bind_some]
        split
        · rename_i b l operand' n more
          have h := hcall (op ")" :: l :: operand' ++ [name n]) more
          rw [List.append_assoc] at h
          exact h.of_name (by simp)
        · exact hcall operand front

theorem asks_expandFactorials? (done ls : List Lexeme) :
    Asks (done ++ ls) fun known => expandFactorials? known done ls := by
  induction ls generalizing done with
  | nil =>
      refine asks_some fun P _ h n hn => h n ?_
      rw [List.append_nil]
      exact List.mem_reverse.mp hn
  | cons l ls ih =>
      unfold expandFactorials?
      split
      · rename_i heq
        cases heq
      · exact asks_none
      · rename_i heq
        obtain ⟨rfl, rfl⟩ := List.cons.inj heq
        refine ((asks_applyFactorial? done).bind ih).mono fun n hn => ?_
        simpa using hn
      · rename_i heq
        obtain ⟨rfl, rfl⟩ := List.cons.inj heq
        refine (ih (l :: done)).mono fun n hn => ?_
        simp only [List.cons_append, List.mem_cons, List.mem_append] at hn ⊢
        tauto

end Lexeme

namespace Term

/-! ## Names of terms -/

/-- Names that were read, and lexemes that are left, have the property. -/
def Leaves (P : String → Prop) (names : List String) (rest : List Lexeme) : Prop :=
  (∀ n ∈ names, P n) ∧ NamesIn P rest

theorem Leaves.append {ns ms : List String} {ls ks : List Lexeme} (h : Leaves P ns ls) (h' : Leaves P ms ks) :
    Leaves P (ns ++ ms) ks :=
  ⟨List.forall_mem_append.mpr ⟨h.1, h'.1⟩, h'.2⟩

theorem Leaves.tail {ns : List String} {l : Lexeme} {ls : List Lexeme} (h : Leaves P ns (l :: ls)) :
    Leaves P ns ls :=
  ⟨h.1, h.2.tail⟩

/-- With this much fuel, whatever is read of lexemes has no other names. -/
structure ReadsNames (P : String → Prop) (fuel : Nat) : Prop where
  expr : ∀ level {ls}, NamesIn P ls → ∀ r ∈ expr? fuel level ls, Leaves P r.1.names r.2
  chain : ∀ level {a ls}, Leaves P a.names ls → ∀ r ∈ chain? fuel level a ls, Leaves P r.1.names r.2
  comparisons : ∀ {ls}, NamesIn P ls →
    ∀ r ∈ comparisons? fuel ls, Leaves P (namesList r.2.1) r.2.2
  trailers : ∀ {a ls}, Leaves P a.names ls → ∀ r ∈ trailers? fuel a ls, Leaves P r.1.names r.2
  items : ∀ close {ls}, NamesIn P ls → ∀ r ∈ items? fuel close ls, Leaves P (namesList r.1) r.2.2
  itemsFrom : ∀ close {ls}, NamesIn P ls →
    ∀ r ∈ itemsFrom? fuel close ls, Leaves P (namesList r.1) r.2.2
  braces : ∀ {ls}, NamesIn P ls → ∀ r ∈ braces? fuel ls, Leaves P (namesList r.1) r.2
  atom : ∀ {ls}, NamesIn P ls → ∀ r ∈ atom? fuel ls, Leaves P r.1.names r.2

theorem readsNames_zero : ReadsNames P 0 where
  expr _ _ _ := by rw [expr?]; exact forall_mem_none
  chain _ _ _ _ := by rw [chain?]; exact forall_mem_none
  comparisons _ := by rw [comparisons?]; exact forall_mem_none
  trailers _ := by rw [trailers?]; exact forall_mem_none
  items _ _ _ := by rw [items?]; exact forall_mem_none
  itemsFrom _ _ _ := by rw [itemsFrom?]; exact forall_mem_none
  braces _ := by rw [braces?]; exact forall_mem_none
  atom _ := by rw [atom?]; exact forall_mem_none

section Step

variable {fuel : Nat} {ls : List Lexeme}

theorem ReadsNames.expr_succ (h : ReadsNames P fuel) (level : Level) (hls : NamesIn P ls) :
    ∀ r ∈ expr? (fuel + 1) level ls, Leaves P r.1.names r.2 := by
  cases level with
  | choice =>
      rw [expr?]
      refine forall_mem_bind (h.expr _ hls) ?_
      rintro ⟨a, rest⟩ ha
      dsimp only
      split
      · refine forall_mem_bind (h.expr _ ha.tail.2) ?_
        rintro ⟨c, rest⟩ hc
        dsimp only
        split
        · refine forall_mem_bind (h.expr _ hc.tail.2) ?_
          rintro ⟨b, rest⟩ hb
          exact forall_mem_some (hc.append (ha.append hb))
        · exact forall_mem_none
      · exact forall_mem_some ha
  | either | both | power =>
      rw [expr?]
      refine forall_mem_bind (h.expr _ hls) ?_
      rintro ⟨a, rest⟩ ha
      dsimp only
      split
      · refine forall_mem_bind (h.expr _ ha.tail.2) ?_
        rintro ⟨b, rest⟩ hb
        exact forall_mem_some (ha.append hb)
      · exact forall_mem_some ha
  | negation =>
      rw [expr?.eq_def]
      dsimp only
      split
      · refine forall_mem_bind (h.expr _ hls.tail) ?_
        rintro ⟨a, rest⟩ ha
        exact forall_mem_some ha
      · exact h.expr _ hls
  | comparison =>
      rw [expr?]
      refine forall_mem_bind (h.expr _ hls) ?_
      rintro ⟨a, rest⟩ ha
      refine forall_mem_bind (h.comparisons ha.2) ?_
      rintro ⟨ops, more, rest⟩ hmore
      refine forall_mem_some ?_
      split
      · exact ⟨ha.1, hmore.2⟩
      · exact ha.append hmore
  | sign =>
      rw [expr?.eq_def]
      dsimp only
      split
      · split
        · refine forall_mem_bind (h.expr _ hls.tail) ?_
          rintro ⟨a, rest⟩ ha
          exact forall_mem_some ha
        · exact h.expr _ hls
      · exact h.expr _ hls
  | operand =>
      rw [expr?]
      refine forall_mem_bind (h.atom hls) ?_
      rintro ⟨a, rest⟩ ha
      exact h.trailers ha
  | join | meet | shift | sum | product =>
      rw [expr?]
      · refine forall_mem_bind (h.expr _ hls) ?_
        rintro ⟨a, rest⟩ ha
        exact h.chain _ ha
      all_goals simp

theorem ReadsNames.chain_succ (h : ReadsNames P fuel) (level : Level) {a : Term}
    (ha : Leaves P a.names ls) :
    ∀ r ∈ chain? (fuel + 1) level a ls, Leaves P r.1.names r.2 := by
  rw [chain?.eq_def]
  dsimp only
  split
  · split
    · refine forall_mem_bind (h.expr _ ha.tail.2) ?_
      rintro ⟨b, rest⟩ hb
      exact h.chain _ (ha.append hb)
    · exact forall_mem_some ha
  · exact forall_mem_some ha

theorem ReadsNames.comparisons_succ (h : ReadsNames P fuel) (hls : NamesIn P ls) :
    ∀ r ∈ comparisons? (fuel + 1) ls, Leaves P (namesList r.2.1) r.2.2 := by
  have hnone : Leaves P (namesList []) ls := ⟨List.forall_mem_nil _, hls⟩
  rw [comparisons?.eq_def]
  dsimp only
  split
  · split
    · refine forall_mem_bind (h.expr _ hls.tail) ?_
      rintro ⟨b, rest⟩ hb
      refine forall_mem_bind (h.comparisons hb.2) ?_
      rintro ⟨ops, more, rest⟩ hmore
      exact forall_mem_some (hb.append hmore)
    · exact forall_mem_some hnone
  · exact forall_mem_some hnone

theorem ReadsNames.trailers_succ (h : ReadsNames P fuel) {a : Term} (ha : Leaves P a.names ls) :
    ∀ r ∈ trailers? (fuel + 1) a ls, Leaves P r.1.names r.2 := by
  rw [trailers?.eq_def]
  dsimp only
  split
  · refine forall_mem_bind (h.items _ ha.tail.2) ?_
    rintro ⟨args, _, rest⟩ hargs
    exact h.trailers (ha.append hargs)
  · refine forall_mem_bind (h.items _ ha.tail.2) ?_
    rintro ⟨items, comma, rest⟩ hitems
    dsimp only
    split
    · exact forall_mem_none
    · refine h.trailers (ha.append ?_)
      rw [namesList, namesList, List.append_nil] at hitems
      exact hitems
    · exact h.trailers (ha.append hitems)
  · exact forall_mem_some ha

theorem ReadsNames.items_succ (h : ReadsNames P fuel) (close : String) (hls : NamesIn P ls) :
    ∀ r ∈ items? (fuel + 1) close ls, Leaves P (namesList r.1) r.2.2 := by
  rw [items?.eq_def]
  dsimp only
  split
  · split
    · exact forall_mem_some ⟨List.forall_mem_nil _, hls.tail⟩
    · exact h.itemsFrom _ hls
  · exact h.itemsFrom _ hls

theorem ReadsNames.itemsFrom_succ (h : ReadsNames P fuel) (close : String) (hls : NamesIn P ls) :
    ∀ r ∈ itemsFrom? (fuel + 1) close ls, Leaves P (namesList r.1) r.2.2 := by
  rw [itemsFrom?]
  refine forall_mem_bind (h.expr _ hls) ?_
  rintro ⟨a, rest⟩ ha
  dsimp only
  split
  · refine forall_mem_bind (h.items _ ha.tail.2) ?_
    rintro ⟨as, _, rest⟩ has
    exact forall_mem_some (ha.append has)
  · split
    · refine forall_mem_some ?_
      rw [namesList, namesList, List.append_nil]
      exact ha.tail
    · exact forall_mem_none
  · exact forall_mem_none

theorem namesList_append (ts us : List Term) : namesList (ts ++ us) = namesList ts ++ namesList us := by
  induction ts with
  | nil => rfl
  | cons t ts ih => rw [List.cons_append, namesList, namesList, ih, List.append_assoc]

theorem ReadsNames.braces_succ (h : ReadsNames P fuel) (hls : NamesIn P ls) :
    ∀ r ∈ braces? (fuel + 1) ls, Leaves P (namesList r.1) r.2 := by
  rw [braces?.eq_def]
  dsimp only
  split
  · exact forall_mem_some ⟨List.forall_mem_nil _, hls.tail⟩
  · refine forall_mem_bind (h.expr _ hls) ?_
    rintro ⟨a, rest⟩ ha
    have hone : ∀ {t : Term} {rest : List Lexeme}, Leaves P t.names rest →
        Leaves P (namesList [t]) rest := by
      intro t rest ht
      rwa [namesList, namesList, List.append_nil]
    dsimp only
    split
    on_goal 1 =>
      refine forall_mem_bind (h.expr _ ha.tail.2) ?_
      rintro ⟨b, rest⟩ hb
      refine forall_mem_bind (Q := fun r => Leaves P (namesList (Prod.fst r)) (Prod.snd r))
        (forall_mem_some (ha.append (hone hb))) ?_
    on_goal 2 =>
      refine forall_mem_bind (Q := fun r => Leaves P (namesList (Prod.fst r)) (Prod.snd r))
        (forall_mem_some (hone ha)) ?_
    -- What stands behind an item and behind a pair is read in the same way.
    all_goals
      rintro ⟨as, rest⟩ has
      dsimp only
      split
      · refine forall_mem_bind (h.braces has.tail.2) ?_
        rintro ⟨bs, rest⟩ hbs
        refine forall_mem_some ?_
        rw [namesList_append]
        exact has.append hbs
      · exact forall_mem_some has.tail
      · exact forall_mem_none

theorem ReadsNames.atom_succ (h : ReadsNames P fuel) (hls : NamesIn P ls) :
    ∀ r ∈ atom? (fuel + 1) ls, Leaves P r.1.names r.2 := by
  rw [atom?.eq_def]
  dsimp only
  split
  · exact forall_mem_some ⟨List.forall_mem_nil _, hls.tail⟩
  · exact forall_mem_some ⟨List.forall_mem_nil _, hls.tail⟩
  · refine h.atom fun n hn => hls.tail.tail n ?_
    simpa using hn
  · exact forall_mem_some ⟨List.forall_mem_nil _, hls.tail⟩
  · split
    · exact forall_mem_none
    · refine forall_mem_some ⟨?_, hls.tail⟩
      exact List.forall_mem_singleton.mpr (hls _ List.mem_cons_self)
  · refine forall_mem_bind (h.items _ hls.tail) ?_
    rintro ⟨items, comma, rest⟩ hitems
    dsimp only
    split
    · rw [namesList, namesList, List.append_nil] at hitems
      exact forall_mem_some hitems
    · exact forall_mem_some hitems
  · refine forall_mem_bind (h.items _ hls.tail) ?_
    rintro ⟨items, comma, rest⟩ hitems
    exact forall_mem_some hitems
  · refine forall_mem_bind (h.braces hls.tail) ?_
    rintro ⟨items, rest⟩ hitems
    exact forall_mem_some hitems
  · exact forall_mem_none

end Step

theorem readsNames (fuel : Nat) : ReadsNames P fuel := by
  induction fuel with
  | zero => exact readsNames_zero
  | succ fuel ih =>
      exact
        { expr := fun level _ hls => ih.expr_succ level hls
          chain := fun level _ _ ha => ih.chain_succ level ha
          comparisons := ih.comparisons_succ
          trailers := ih.trailers_succ
          items := fun close _ hls => ih.items_succ close hls
          itemsFrom := fun close _ hls => ih.itemsFrom_succ close hls
          braces := ih.braces_succ
          atom := ih.atom_succ }

/-- The names of a term are among the lexemes that it is made of. -/
theorem names_of_ofLexemes? {ls : List Lexeme} {t : Term} (h : ofLexemes? ls = some t)
    (hls : NamesIn P ls) : ∀ n ∈ t.names, P n := by
  have hclosed : NamesIn P (ls ++ [.op ")"]) := by
    refine hls.append fun n hn => ?_
    cases List.mem_singleton.mp hn
  obtain ⟨⟨items, comma, rest⟩, hitems, h⟩ := Option.bind_eq_some_iff.mp h
  have hnames := ((readsNames _).itemsFrom _ hclosed _ hitems).1
  dsimp only at h
  split at h
  · cases h
    rwa [namesList, namesList, List.append_nil] at hnames
  · cases h
    exact hnames
  · cases h

/-! ## Meanings in two scopes -/

mutual

/-- The names that arguments follow. -/
def calls : Term → List String
  | name n called => if called then [n] else []
  | number _ | imaginary _ | text _ => []
  | group ts | braces ts => callsList ts
  | unary _ a => calls a
  | binary _ a b | both a b | either a b | index a b => calls a ++ calls b
  | compare a _ ts | call a ts => calls a ++ callsList ts
  | choose c a b => calls c ++ (calls a ++ calls b)

def callsList : List Term → List String
  | [] => []
  | t :: ts => calls t ++ callsList ts

end

theorem mem_callsList {n : String} {ts : List Term} : n ∈ callsList ts ↔ ∃ t ∈ ts, n ∈ t.calls := by
  induction ts with
  | nil => simp [callsList]
  | cons t ts ih => rw [callsList, List.mem_append, ih, List.exists_mem_cons_iff]

/-- What is called is a name of the term. -/
theorem names_of_calls {n : String} {t : Term} (h : n ∈ t.calls) : n ∈ t.names := by
  induction t using induction with
  | name m called =>
      rw [calls] at h
      split at h
      · exact h
      · cases h
  | group ts ih | braces ts ih =>
      obtain ⟨t, ht, hn⟩ := mem_callsList.mp h
      exact mem_namesList.mpr ⟨t, ht, ih t ht hn⟩
  | unary op a iha => exact iha h
  | binary op a b iha ihb | both a b iha ihb | either a b iha ihb | index a b iha ihb =>
      exact List.mem_append.mpr ((List.mem_append.mp h).imp iha ihb)
  | compare a ops ts iha ih | call a ts iha ih =>
      refine List.mem_append.mpr ((List.mem_append.mp h).imp iha fun h => ?_)
      obtain ⟨t, ht, hn⟩ := mem_callsList.mp h
      exact mem_namesList.mpr ⟨t, ht, ih t ht hn⟩
  | choose c a b ihc iha ihb =>
      refine List.mem_append.mpr ((List.mem_append.mp h).imp ihc fun h => ?_)
      exact List.mem_append.mpr ((List.mem_append.mp h).imp iha ihb)
  | _ => cases h

mutual

/-- Whether an imaginary number occurs, which asks for the imaginary unit. -/
def hasUnit : Term → Bool
  | imaginary _ => true
  | number _ | name _ _ | text _ => false
  | group ts | braces ts => hasUnitList ts
  | unary _ a => hasUnit a
  | binary _ a b | both a b | either a b | index a b => hasUnit a || hasUnit b
  | compare a _ ts | call a ts => hasUnit a || hasUnitList ts
  | choose c a b => hasUnit c || (hasUnit a || hasUnit b)

def hasUnitList : List Term → Bool
  | [] => false
  | t :: ts => hasUnit t || hasUnitList ts

end

theorem hasUnitList_of_mem {t : Term} {ts : List Term} (ht : t ∈ ts) (h : t.hasUnit = true) :
    hasUnitList ts = true := by
  induction ts with
  | nil => cases ht
  | cons u us ih =>
      rw [hasUnitList, Bool.or_eq_true]
      rcases List.mem_cons.mp ht with rfl | ht
      · exact Or.inl h
      · exact Or.inr (ih ht)

variable {s s' : Scope}

/-- The scopes have the same operations, and the names and the called names
mean the same in both, and so does the imaginary unit if it is asked for. -/
structure Alike (s s' : Scope) (names calls : List String) (unit : Bool) : Prop where
  algebra : s.algebra = s'.algebra
  unit : unit = true → s.find? "I" = s'.find? "I"
  name : ∀ n ∈ names, s.meaning n false = s'.meaning n false
  call : ∀ n ∈ calls, s.meaning n true = s'.meaning n true

theorem Alike.mono {ns ms ns' ms' : List String} {u u' : Bool} (h : Alike s s' ns ms u)
    (hns : ∀ n ∈ ns', n ∈ ns) (hms : ∀ m ∈ ms', m ∈ ms) (hu : u' = true → u = true) :
    Alike s s' ns' ms' u' :=
  ⟨h.algebra, fun hunit => h.unit (hu hunit), fun n hn => h.name n (hns n hn),
    fun m hm => h.call m (hms m hm)⟩

theorem Alike.left {ns ms ns' ms' : List String} {u u' : Bool}
    (h : Alike s s' (ns ++ ns') (ms ++ ms') (u || u')) : Alike s s' ns ms u :=
  h.mono (fun _ => List.mem_append_left _) (fun _ => List.mem_append_left _)
    fun hu => Bool.or_eq_true_iff.mpr (Or.inl hu)

theorem Alike.right {ns ms ns' ms' : List String} {u u' : Bool}
    (h : Alike s s' (ns ++ ns') (ms ++ ms') (u || u')) : Alike s s' ns' ms' u' :=
  h.mono (fun _ => List.mem_append_right _) (fun _ => List.mem_append_right _)
    fun hu => Bool.or_eq_true_iff.mpr (Or.inr hu)

theorem Alike.of_mem {ts : List Term} (h : Alike s s' (namesList ts) (callsList ts) (hasUnitList ts))
    {t : Term} (ht : t ∈ ts) : Alike s s' t.names t.calls t.hasUnit :=
  h.mono (fun _ hn => mem_namesList.mpr ⟨t, ht, hn⟩) (fun _ hm => mem_callsList.mpr ⟨t, ht, hm⟩)
    (hasUnitList_of_mem ht)

theorem meanings?_congr {ts : List Term} (h : ∀ t ∈ ts, t.meaning? s = t.meaning? s') :
    meanings? s ts = meanings? s' ts := by
  induction ts with
  | nil => rfl
  | cons t ts ih =>
      obtain ⟨ht, hts⟩ := List.forall_mem_cons.mp h
      rw [meanings?, meanings?, ht, ih hts]

theorem compareMeaning?_congr (halgebra : s.algebra = s'.algebra) {x : Meaning}
    {ops : List CompareOp} {ts : List Term} (h : ∀ t ∈ ts, t.meaning? s = t.meaning? s') :
    compareMeaning? s x ops ts = compareMeaning? s' x ops ts := by
  induction ts generalizing x ops with
  | nil => rw [compareMeaning?, compareMeaning?]
  | cons t ts ih =>
      obtain ⟨ht, hts⟩ := List.forall_mem_cons.mp h
      cases ops with
      | nil => rw [compareMeaning?, compareMeaning?]
      | cons op ops =>
          rw [compareMeaning?, compareMeaning?, ht, halgebra]
          simp only [ih hts]

/-- A term means the same in scopes that are alike. -/
theorem meaning?_congr {t : Term} (h : Alike s s' t.names t.calls t.hasUnit) :
    t.meaning? s = t.meaning? s' := by
  induction t using induction with
  | number n => rfl
  | imaginary n => rw [meaning?, meaning?, h.unit rfl, h.algebra]
  | name n called =>
      rw [meaning?, meaning?]
      cases called with
      | true => rw [h.call n (List.mem_singleton.mpr rfl)]
      | false => rw [h.name n (List.mem_singleton.mpr rfl)]
  | text t => rfl
  | group ts ih => rw [meaning?, meaning?, meanings?_congr fun t ht => ih t ht (h.of_mem ht)]
  | braces ts ih => rw [meaning?, meaning?, meanings?_congr fun t ht => ih t ht (h.of_mem ht)]
  | unary op a iha => rw [meaning?, meaning?, iha h, h.algebra]
  | binary op a b iha ihb => rw [meaning?, meaning?, iha h.left, ihb h.right, h.algebra]
  | compare a ops ts iha ih =>
      rw [meaning?, meaning?, iha h.left]
      simp only [compareMeaning?_congr h.algebra fun t ht => ih t ht (h.right.of_mem ht)]
  | both a b iha ihb => rw [meaning?, meaning?, iha h.left, ihb h.right]
  | either a b iha ihb => rw [meaning?, meaning?, iha h.left, ihb h.right]
  | choose c a b ihc iha ihb =>
      rw [meaning?, meaning?, ihc h.left, iha h.right.left, ihb h.right.right]
  | call f ts ihf ih =>
      rw [meaning?, meaning?, ihf h.left, h.algebra,
        meanings?_congr fun t ht => ih t ht (h.right.of_mem ht)]
  | index a i iha ihi => rw [meaning?, meaning?, iha h.left, ihi h.right]

/-- The term of lexemes that are no nameless function. -/
def ofPlain? (ls : List Lexeme) : Option Term :=
  if (splitAbstraction? ls).isSome then none else ofLexemes? ls

theorem names_of_ofPlain? {ls : List Lexeme} {t : Term} (h : ofPlain? ls = some t)
    (hls : NamesIn P ls) : ∀ n ∈ t.names, P n := by
  unfold ofPlain? at h
  split at h
  · cases h
  · exact names_of_ofLexemes? h hls

end Term

/-! ## Texts -/

/-- The expression that a meaning is, if it is one and calls no unknown
function. -/
def Meaning.written? : Meaning → Option Expr
  | truth b => some (.truth b)
  | expr e => if e.calledNames.isEmpty then some e else none
  | _ => none

/-- The name is among the lexemes of the text. -/
def Spells (text n : String) : Prop :=
  ∃ ls, Lexeme.scan? ((trim text.toList).length + 1) 0 (trim text.toList) = some ls ∧ .name n ∈ ls

/-- The text calls none of these names, neither in its term nor under a
factorial sign. -/
structure Uncalled (ns : List String) (text : String) : Prop where
  factorial : Lexeme.ofText? (fun n => !ns.contains n) (trim text.toList)
    = Lexeme.ofText? (fun _ => true) (trim text.toList)
  term : ∀ ls t, Lexeme.ofText? (fun _ => true) (trim text.toList) = some ls →
    Term.ofPlain? ls = some t → ∀ n ∈ t.calls, n ∉ ns

deriving instance DecidableEq for Lexeme

theorem spells_iff {text n : String} : Spells text n ↔ ∃ l ∈
    (Lexeme.scan? ((trim text.toList).length + 1) 0 (trim text.toList)).getD [], l = .name n := by
  rw [Spells]
  cases Lexeme.scan? ((trim text.toList).length + 1) 0 (trim text.toList) <;> simp

instance (text n : String) : Decidable (Spells text n) := decidable_of_iff' _ spells_iff

theorem uncalled_iff {ns : List String} {text : String} : Uncalled ns text ↔
    Lexeme.ofText? (fun n => !ns.contains n) (trim text.toList)
        = Lexeme.ofText? (fun _ => true) (trim text.toList) ∧
      ∀ t ∈ (Lexeme.ofText? (fun _ => true) (trim text.toList)).bind Term.ofPlain?,
        ∀ n ∈ t.calls, n ∉ ns := by
  constructor
  · intro h
    refine ⟨h.factorial, fun t ht => ?_⟩
    obtain ⟨ls, hls, ht⟩ := Option.bind_eq_some_iff.mp ht
    exact h.term ls t hls ht
  · intro h
    exact ⟨h.1, fun ls t hls ht => h.2 t (Option.bind_eq_some_iff.mpr ⟨ls, hls, ht⟩)⟩

instance (ns : List String) (text : String) : Decidable (Uncalled ns text) :=
  decidable_of_iff' _ uncalled_iff

theorem uncalled_nil (text : String) : Uncalled [] text :=
  ⟨rfl, fun _ _ _ _ _ _ => List.not_mem_nil⟩

/-- The lexemes of a text depend on the names that are known in one way
only. -/
theorem Lexeme.ofText?_eq (text : String) : ∃ (asked : List String) (r : Option (List Lexeme)),
    (∀ known, ofText? known (trim text.toList) = if asked.all known then r else none) ∧
      ∀ P : String → Prop, P "factorial" → (∀ n, Spells text n → P n) →
        (∀ n ∈ asked, P n) ∧ ∀ ls ∈ r, NamesIn P ls := by
  unfold ofText?
  cases hscan : scan? ((trim text.toList).length + 1) 0 (trim text.toList) with
  | none => exact ⟨[], none, fun _ => rfl, fun _ _ _ => ⟨List.forall_mem_nil _, forall_mem_none⟩⟩
  | some ls =>
      obtain ⟨asked, r, hmake, hnames⟩ := asks_expandFactorials? [] ls
      refine ⟨asked, r, hmake, fun P hfactorial hspells => hnames P hfactorial fun n hn => ?_⟩
      exact hspells n ⟨ls, hscan, hn⟩

namespace Expr

variable {s s' : Scope} {text : String}

theorem toOption_ofText (s : Scope) (text : String) :
    (ofText s text).toOption = (textMeaning? s text).bind Meaning.written? := by
  unfold ofText
  split
  · rename_i h
    rw [h]
    rfl
  · rename_i h
    rw [h]
    rfl
  · rename_i h
    rw [h]
    rfl
  · rename_i e h
    rw [h, Option.bind_some, Meaning.written?]
    split
    · rename_i hnames
      rw [hnames]
      rfl
    · rename_i hnames
      rw [if_neg fun hempty => hnames (List.isEmpty_iff.mp hempty)]
      rfl
  · rename_i m htruth _ hexpr h
    rw [h, Option.bind_some]
    cases m with
    | truth b => exact absurd rfl (htruth b)
    | expr e => exact absurd rfl (hexpr e)
    | _ => rfl

/-- A nameless function means a definition, if it means anything. -/
theorem written?_abstraction {A : Algebra} {params body m : Meaning}
    (h : Meaning.callBuiltin? A .abstraction [params, body] = some m) : m.written? = none := by
  unfold Meaning.callBuiltin? at h
  split at h
  case h_7 =>
    obtain ⟨e, -, rfl⟩ := Option.map_eq_some_iff.mp h
    rfl
  case h_8 =>
    obtain ⟨names, -, h⟩ := Option.bind_eq_some_iff.mp h
    obtain ⟨e, -, h⟩ := Option.bind_eq_some_iff.mp h
    cases h
    rfl
  case h_15 => exact absurd rfl (by assumption : Builtin.abstraction = Builtin.abstraction → False)
  all_goals first
    | (cases ‹Builtin.abstraction = _›; done)
    | cases h

/-- A nameless function is no expression, so that a text writes what its
term means. -/
theorem toOption_ofText_eq (s : Scope) (text : String) : (ofText s text).toOption =
    (Lexeme.ofText? s.knows (trim text.toList)).bind fun ls =>
      (Term.ofPlain? ls).bind fun t => (t.meaning? s).bind Meaning.written? := by
  rw [toOption_ofText, textMeaning?, Option.bind_eq_bind, Option.bind_assoc]
  refine Option.bind_congr fun ls _ => ?_
  rw [Term.ofPlain?]
  cases splitAbstraction? ls with
  | none => exact Option.bind_assoc ..
  | some r =>
      obtain ⟨ps, body⟩ := r
      rw [Option.isSome_some, if_pos rfl, Option.bind_none, Option.bind_eq_none_iff]
      intro m hm
      dsimp only at hm
      split at hm
      all_goals
        obtain ⟨_, -, hm⟩ := Option.bind_eq_some_iff.mp hm
        obtain ⟨_, -, hm⟩ := Option.bind_eq_some_iff.mp hm
        obtain ⟨_, -, hm⟩ := Option.bind_eq_some_iff.mp hm
        obtain ⟨_, -, hm⟩ := Option.bind_eq_some_iff.mp hm
        exact written?_abstraction hm

/-- A text writes the same in scopes with the same operations, in which
its names mean the same, but for some that it does not call. -/
theorem ofText_congr {ns : List String} (halgebra : s.algebra = s'.algebra)
    (hunit : s.find? "I" = s'.find? "I") (huncalled : Uncalled ns text)
    (hfind : ∀ n, Spells text n ∨ n = "factorial" → n ∉ ns → s.find? n = s'.find? n)
    (hname : ∀ n, Spells text n → n ∈ ns → s.meaning n false = s'.meaning n false)
    (hfactorial : "factorial" ∉ ns) : (ofText s text).toOption = (ofText s' text).toOption := by
  have hmeaning : ∀ n called, Spells text n ∨ n = "factorial" → n ∉ ns →
      s.meaning n called = s'.meaning n called := by
    intro n called hn hns
    have hn := hfind n hn hns
    unfold Scope.meaning
    split
    · rfl
    · rfl
    · rfl
    · rw [hn]
  obtain ⟨asked, r, hlexemes, hnames⟩ := Lexeme.ofText?_eq text
  rw [toOption_ofText_eq, toOption_ofText_eq, hlexemes, hlexemes]
  cases r with
  | none =>
      rw [ite_self, ite_self]
      rfl
  | some ls =>
      obtain ⟨hasked, hls⟩ := hnames (fun n => Spells text n ∨ n = "factorial") (Or.inr rfl)
        fun n hn => Or.inl hn
      have hall : Lexeme.ofText? (fun _ => true) (trim text.toList) = some ls := by
        rw [hlexemes, List.all_eq_true.mpr fun _ _ => rfl, if_pos rfl]
      have hfree : ∀ n ∈ asked, n ∉ ns := by
        have hsame := huncalled.factorial
        rw [hall, hlexemes] at hsame
        split at hsame
        · rename_i hknown
          intro n hn
          simpa using List.all_eq_true.mp hknown n hn
        · cases hsame
      have hknown : asked.all s.knows = asked.all s'.knows := by
        rw [Bool.eq_iff_iff, List.all_eq_true, List.all_eq_true]
        refine forall₂_congr fun n hn => ?_
        rw [Scope.knows, Scope.knows, hfind n (hasked n hn) (hfree n hn)]
      rw [hknown]
      split
      · rw [Option.bind_some, Option.bind_some]
        refine Option.bind_congr fun t ht => ?_
        rw [Term.meaning?_congr ⟨halgebra, fun _ => hunit, fun n hn => ?_, fun n hn => ?_⟩]
        · have hn := Term.names_of_ofPlain? ht (hls ls rfl) n hn
          by_cases hns : n ∈ ns
          · refine hname n (hn.resolve_right ?_) hns
            rintro rfl
            exact hfactorial hns
          · exact hmeaning n false hn hns
        · have hns := huncalled.term ls t hall ht n hn
          have hn := Term.names_of_ofPlain? ht (hls ls rfl) n (Term.names_of_calls hn)
          exact hmeaning n true hn hns
      · rfl

end Expr

end FieldScript
