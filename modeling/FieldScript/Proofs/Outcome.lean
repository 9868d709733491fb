/-!
# Outcomes

Computations that end with a value or with a failure. A sequence of them
has a value when each step has one, and otherwise the failure of the
first step that has none. The lemmas on options are for computations that
say nothing about failures.
-/

namespace FieldScript

variable {ε α β : Type}

theorem bind_eq_ok {r : Except ε α} {k : α → Except ε β} {b : β} :
    r >>= k = .ok b ↔ ∃ a, r = .ok a ∧ k a = .ok b := by
  cases r with
  | ok a => exact ⟨fun h => ⟨a, rfl, h⟩, fun ⟨_, ha, h⟩ => Except.ok.inj ha ▸ h⟩
  | error f => exact ⟨fun h => (by cases h), fun ⟨_, ha, _⟩ => (by cases ha)⟩

theorem bind_eq_error {r : Except ε α} {k : α → Except ε β} {f : ε} :
    r >>= k = .error f ↔ r = .error f ∨ ∃ a, r = .ok a ∧ k a = .error f := by
  cases r with
  | ok a =>
      refine ⟨fun h => Or.inr ⟨a, rfl, h⟩, ?_⟩
      rintro (h | ⟨_, ha, h⟩)
      · cases h
      · exact Except.ok.inj ha ▸ h
  | error g =>
      refine ⟨fun h => Or.inl (congrArg _ (Except.error.inj h)), ?_⟩
      rintro (h | ⟨_, ha, _⟩)
      · exact congrArg _ (Except.error.inj h)
      · cases ha

theorem eq_ok_of_toOption {r : Except ε α} {a : α} (h : r.toOption = some a) : r = .ok a := by
  cases r with
  | ok b => exact congrArg _ (Option.some.inj h)
  | error f => cases h

theorem mapM_cons_eq_ok {f : α → Except ε β} {a : α} {as : List α} {bs : List β} :
    (a :: as).mapM f = .ok bs ↔
      ∃ b bs', f a = .ok b ∧ as.mapM f = .ok bs' ∧ bs = b :: bs' := by
  rw [List.mapM_cons, bind_eq_ok]
  constructor
  · rintro ⟨b, hb, h⟩
    obtain ⟨bs', hbs', h⟩ := bind_eq_ok.mp h
    exact ⟨b, bs', hb, hbs', (Except.ok.inj h).symm⟩
  · rintro ⟨b, bs', hb, hbs', rfl⟩
    exact ⟨b, hb, bind_eq_ok.mpr ⟨bs', hbs', rfl⟩⟩

/-- The values of a sequence are those of its steps. -/
theorem mem_of_mapM_ok {f : α → Except ε β} {as : List α} {bs : List β} (h : as.mapM f = .ok bs) :
    (∀ a ∈ as, ∃ b ∈ bs, f a = .ok b) ∧ ∀ b ∈ bs, ∃ a ∈ as, f a = .ok b := by
  induction as generalizing bs with
  | nil =>
      obtain rfl := Except.ok.inj h
      exact ⟨List.forall_mem_nil _, List.forall_mem_nil _⟩
  | cons a rest ih =>
      obtain ⟨b, bs', hb, hbs', rfl⟩ := mapM_cons_eq_ok.mp h
      obtain ⟨hleft, hright⟩ := ih hbs'
      refine ⟨List.forall_mem_cons.mpr ⟨⟨b, List.mem_cons_self, hb⟩, ?_⟩,
        List.forall_mem_cons.mpr ⟨⟨a, List.mem_cons_self, hb⟩, ?_⟩⟩
      · intro c hc
        obtain ⟨d, hd, hcd⟩ := hleft c hc
        exact ⟨d, List.mem_cons_of_mem _ hd, hcd⟩
      · intro d hd
        obtain ⟨c, hc, hcd⟩ := hright d hd
        exact ⟨c, List.mem_cons_of_mem _ hc, hcd⟩

theorem length_of_mapM_ok {f : α → Except ε β} {as : List α} {bs : List β} (h : as.mapM f = .ok bs) :
    bs.length = as.length := by
  induction as generalizing bs with
  | nil =>
      obtain rfl := Except.ok.inj h
      rfl
  | cons a rest ih =>
      obtain ⟨b, bs', -, hbs', rfl⟩ := mapM_cons_eq_ok.mp h
      rw [List.length_cons, List.length_cons, ih hbs']

theorem mapM_eq_map {f : α → Except ε β} {g : α → β} {as : List α} (h : ∀ a ∈ as, f a = .ok (g a)) :
    as.mapM f = .ok (as.map g) := by
  induction as with
  | nil => rfl
  | cons a rest ih =>
      obtain ⟨ha, hrest⟩ := List.forall_mem_cons.mp h
      rw [List.mapM_cons, ha, ih hrest]
      rfl

theorem getElem?_of_mapM_ok {f : α → Except ε β} {as : List α} {bs : List β}
    (h : as.mapM f = .ok bs) {i : Nat} {a : α} (ha : as[i]? = some a) :
    ∃ b, bs[i]? = some b ∧ f a = .ok b := by
  induction as generalizing bs i with
  | nil => cases ha
  | cons head as ih =>
      obtain ⟨b, bs', hb, hbs', rfl⟩ := mapM_cons_eq_ok.mp h
      cases i with
      | zero =>
          obtain rfl := Option.some.inj ha
          exact ⟨b, rfl, hb⟩
      | succ i => exact ih hbs' ha

theorem eq_map_of_mapM_ok {f : α → Except ε β} {g : α → β}
    (hf : ∀ a b, f a = .ok b → b = g a) {as : List α} {bs : List β} (h : as.mapM f = .ok bs) :
    bs = as.map g := by
  induction as generalizing bs with
  | nil => exact (Except.ok.inj h).symm
  | cons a as ih =>
      obtain ⟨b, bs', hb, hbs', rfl⟩ := mapM_cons_eq_ok.mp h
      rw [List.map_cons, ← hf a b hb, ← ih hbs']

theorem mapM_congr {f g : α → Except ε β} {as : List α} (h : ∀ a ∈ as, f a = g a) :
    as.mapM f = as.mapM g := by
  induction as with
  | nil => rfl
  | cons a as ih =>
      obtain ⟨ha, has⟩ := List.forall_mem_cons.mp h
      rw [List.mapM_cons, List.mapM_cons, ha, ih has]

/-- Steps whose values are computed from the values of others. -/
theorem mapM_congr_map {γ : Type} {f : α → Except ε γ} {g : α → Except ε β} {c : β → γ} {as : List α}
    (h : ∀ a ∈ as, f a = (g a).map c) : as.mapM f = (as.mapM g).map fun bs => bs.map c := by
  induction as with
  | nil => rfl
  | cons a as ih =>
      obtain ⟨ha, has⟩ := List.forall_mem_cons.mp h
      rw [List.mapM_cons, List.mapM_cons, ha, ih has]
      cases g a with
      | error f => rfl
      | ok b => cases as.mapM g <;> rfl

/-- A sequence fails with its first step that fails. -/
theorem mapM_eq_error {f : α → Except ε β} {as : List α} {e : ε} :
    as.mapM f = .error e ↔
      ∃ before a after, as = before ++ a :: after ∧ (∀ b ∈ before, ∃ c, f b = .ok c) ∧
        f a = .error e := by
  induction as with
  | nil =>
      refine ⟨fun h => (by cases h), ?_⟩
      rintro ⟨before, a, after, h, -⟩
      cases before <;> cases h
  | cons a rest ih =>
      rw [List.mapM_cons, bind_eq_error]
      constructor
      · rintro (ha | ⟨b, hb, hrest⟩)
        · exact ⟨[], a, rest, rfl, List.forall_mem_nil _, ha⟩
        · rcases bind_eq_error.mp hrest with hrest | ⟨_, _, hpure⟩
          · obtain ⟨before, c, after, rfl, hbefore, hc⟩ := ih.mp hrest
            exact ⟨a :: before, c, after, rfl, List.forall_mem_cons.mpr ⟨⟨b, hb⟩, hbefore⟩, hc⟩
          · cases hpure
      · rintro ⟨before, c, after, hsplit, hbefore, hc⟩
        cases before with
        | nil =>
            obtain ⟨rfl, -⟩ := List.cons.inj hsplit
            exact Or.inl hc
        | cons d before =>
            obtain ⟨rfl, rfl⟩ := List.cons.inj hsplit
            obtain ⟨⟨b, hb⟩, hbefore⟩ := List.forall_mem_cons.mp hbefore
            exact Or.inr ⟨b, hb, bind_eq_error.mpr
              (Or.inl (ih.mpr ⟨before, c, after, rfl, hbefore, hc⟩))⟩

/-- A loop of checks ends when every check passes. -/
theorem forIn_eq_ok {f : α → Except ε Unit} {as : List α} :
    (forIn as PUnit.unit fun a _ => do
        f a
        pure (ForInStep.yield PUnit.unit)) = .ok PUnit.unit ↔ ∀ a ∈ as, f a = .ok () := by
  induction as with
  | nil => exact ⟨fun _ => List.forall_mem_nil _, fun _ => rfl⟩
  | cons a rest ih =>
      rw [List.forIn_cons, List.forall_mem_cons]
      cases f a with
      | ok _ => exact ih.trans (by simp)
      | error e => exact ⟨fun h => (by cases h), fun h => (by cases h.1)⟩

/-- The failure of a loop of checks is the failure of a check. -/
theorem exists_of_forIn_eq_error {f : α → Except ε Unit} {as : List α} {e : ε}
    (h : (forIn as PUnit.unit fun a _ => do
        f a
        pure (ForInStep.yield PUnit.unit)) = .error e) : ∃ a ∈ as, f a = .error e := by
  induction as with
  | nil => cases h
  | cons a rest ih =>
      rw [List.forIn_cons] at h
      cases ha : f a with
      | ok _ =>
          rw [ha] at h
          obtain ⟨b, hb, hf⟩ := ih h
          exact ⟨b, List.mem_cons_of_mem _ hb, hf⟩
      | error e' =>
          rw [ha] at h
          exact ⟨a, List.mem_cons_self, ha.trans h⟩

/-! ## Options -/

theorem mapM_cons_eq_some {f : α → Option β} {a : α} {as : List α} {bs : List β} :
    (a :: as).mapM f = some bs ↔
      ∃ b bs', f a = some b ∧ as.mapM f = some bs' ∧ bs = b :: bs' := by
  rw [List.mapM_cons, Option.bind_eq_bind, Option.bind_eq_some_iff]
  constructor
  · rintro ⟨b, hb, h⟩
    obtain ⟨bs', hbs', h⟩ := Option.bind_eq_some_iff.mp h
    exact ⟨b, bs', hb, hbs', (Option.some.inj h).symm⟩
  · rintro ⟨b, bs', hb, hbs', rfl⟩
    exact ⟨b, hb, Option.bind_eq_some_iff.mpr ⟨bs', hbs', rfl⟩⟩

theorem length_of_mapM_some {f : α → Option β} {as : List α} {bs : List β}
    (h : as.mapM f = some bs) : bs.length = as.length := by
  induction as generalizing bs with
  | nil =>
      obtain rfl := Option.some.inj h
      rfl
  | cons a rest ih =>
      obtain ⟨b, bs', -, hbs', rfl⟩ := mapM_cons_eq_some.mp h
      rw [List.length_cons, List.length_cons, ih hbs']

theorem mapM_append_eq_some {f : α → Option β} {as as' : List α} {bs : List β} :
    (as ++ as').mapM f = some bs ↔ ∃ cs cs', as.mapM f = some cs ∧ as'.mapM f = some cs' ∧ bs = cs ++ cs' := by
  rw [List.mapM_append]
  constructor
  · intro h
    obtain ⟨cs, hcs, h⟩ := Option.bind_eq_some_iff.mp h
    obtain ⟨cs', hcs', h⟩ := Option.bind_eq_some_iff.mp h
    exact ⟨cs, cs', hcs, hcs', (Option.some.inj h).symm⟩
  · rintro ⟨cs, cs', hcs, hcs', rfl⟩
    rw [hcs, hcs']
    rfl

theorem exists_of_mapM_singleton {f : α → Option β} {a : α} {bs : List β}
    (h : [a].mapM f = some bs) : ∃ b, f a = some b ∧ bs = [b] := by
  obtain ⟨b, bs', hb, hnil, rfl⟩ := mapM_cons_eq_some.mp h
  cases hnil
  exact ⟨b, hb, rfl⟩

end FieldScript
