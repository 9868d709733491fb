import FieldScript.Definition

/-!
# The order of definitions

`Dependency.place` either lists every name once, each behind all names
that it uses, or finds that the pending names use each other and reports
a cycle of them. The first part is an invariant of the rounds: what has
been placed follows what it uses (`Dependency.Follows`), and the placed
and the pending names together stay the same up to order. Every round
that does not stop places a name, so the rounds suffice.
-/

namespace FieldScript

namespace Dependency

/-- Every name of the list stands behind the names that it uses. -/
def Follows (deps : List (String × List String)) (order : List String) : Prop :=
  ∀ before n after, order = before ++ n :: after → ∀ m ∈ of deps n, m ∈ before

variable {deps : List (String × List String)}

theorem follows_nil : Follows deps [] := by
  intro before n after h
  cases before <;> cases h

/-- A round keeps the order: its names use placed ones only. -/
theorem Follows.append {placed ready : List String} (h : Follows deps placed)
    (hready : ∀ n ∈ ready, ∀ m ∈ of deps n, m ∈ placed) : Follows deps (placed ++ ready) := by
  intro before n after hsplit m hm
  rcases List.append_eq_append_iff.mp hsplit with ⟨mid, hbefore, hmid⟩ | ⟨mid, hplaced, hmid⟩
  · have hn : n ∈ ready := by
      rw [hmid]
      exact List.mem_append_right _ List.mem_cons_self
    rw [hbefore]
    exact List.mem_append_left _ (hready n hn m hm)
  · cases mid with
    | nil =>
        have hn : n ∈ ready := by
          rw [List.nil_append] at hmid
          rw [← hmid]
          exact List.mem_cons_self
        rw [List.append_nil] at hplaced
        exact hplaced ▸ hready n hn m hm
    | cons k mid =>
        obtain ⟨rfl, -⟩ := List.cons.inj hmid
        exact h before n mid hplaced m hm

/-- The names that are ready now. -/
theorem filter_not_ready (p : String → Bool) (pending : List String) :
    pending.filter (fun n => !(pending.filter p).contains n) = pending.filter (fun n => !p n) := by
  refine List.filter_congr fun n hn => ?_
  rw [Bool.not_inj_iff, Bool.eq_iff_iff, List.contains_iff_mem, List.mem_filter]
  exact ⟨fun h => h.2, fun h => ⟨hn, h⟩⟩

/-- The rounds list the placed and the pending names in an order in which
each follows what it uses. -/
theorem place_ok {fuel : Nat} {placed pending order : List String} (hfuel : pending.length < fuel)
    (h : place deps fuel placed pending = .ok order) (hplaced : Follows deps placed) :
    order.Perm (placed ++ pending) ∧ Follows deps order := by
  induction fuel generalizing placed pending with
  | zero => omega
  | succ fuel ih =>
      rw [place] at h
      split at h
      · rename_i hempty
        obtain rfl := Except.ok.inj h
        rw [List.isEmpty_iff.mp hempty, List.append_nil]
        exact ⟨List.Perm.refl _, hplaced⟩
      · dsimp only at h
        rw [filter_not_ready] at h
        split at h
        · cases h
        · rename_i hready
          have hrounds := List.filter_append_perm (fun n => (of deps n).all placed.contains) pending
          have hlength := hrounds.length_eq
          rw [List.length_append] at hlength
          have hpos := List.length_pos_iff.mpr (mt List.isEmpty_iff.mpr hready)
          have huses : ∀ n ∈ pending.filter (fun n => (of deps n).all placed.contains),
              ∀ m ∈ of deps n, m ∈ placed := by
            intro n hn m hm
            have hall := (List.mem_filter.mp hn).2
            exact List.contains_iff_mem.mp (List.all_eq_true.mp hall m hm)
          obtain ⟨hperm, hfollows⟩ := ih (by omega) h (hplaced.append huses)
          refine ⟨hperm.trans ?_, hfollows⟩
          rw [List.append_assoc]
          exact List.Perm.append_left placed hrounds

/-- A walk along pending names stays among them. -/
theorem mem_of_mem_walk {pending path : List String} {fuel : Nat} {node : String}
    (hpath : ∀ n ∈ path, n ∈ pending) (hnode : node ∈ pending) :
    ∀ n ∈ walk deps pending fuel path node, n ∈ pending := by
  induction fuel generalizing path node with
  | zero =>
      intro n hn
      rcases List.mem_append.mp hn with hn | hn
      · exact hpath n hn
      · exact List.mem_singleton.mp hn ▸ hnode
  | succ fuel ih =>
      have hend : ∀ m ∈ path ++ [node], m ∈ pending := by
        intro m hm
        rcases List.mem_append.mp hm with hm | hm
        · exact hpath m hm
        · exact List.mem_singleton.mp hm ▸ hnode
      rw [walk]
      split
      · intro n hn
        rcases List.mem_append.mp hn with hn | hn
        · exact hpath n ((List.dropWhile_sublist _).subset hn)
        · exact List.mem_singleton.mp hn ▸ hnode
      · split
        · rename_i next hnext
          exact ih hend (List.contains_iff_mem.mp (List.find?_some hnext))
        · exact hend

theorem walk_ne_nil (pending path : List String) (fuel : Nat) (node : String) :
    walk deps pending fuel path node ≠ [] := by
  induction fuel generalizing path node with
  | zero => simp [walk]
  | succ fuel ih =>
      rw [walk]
      split
      · simp
      · split
        · exact ih _ _
        · simp

/-- What stops the rounds is a cycle, and it starts at a pending name. -/
theorem place_error {fuel : Nat} {placed pending : List String} {f : Failure}
    (h : place deps fuel placed pending = .error f) :
    ∃ n cycle, f = .circular (n :: cycle) ∧ n ∈ pending := by
  induction fuel generalizing placed pending with
  | zero => cases h
  | succ fuel ih =>
      rw [place] at h
      split at h
      · cases h
      · rename_i hpending
        dsimp only at h
        split at h
        · obtain rfl := Except.error.inj h
          cases pending with
          | nil => exact absurd rfl hpending
          | cons first rest =>
              rw [findCycle]
              cases hcycle : walk deps (first :: rest) ((first :: rest).length + 1) [] first with
              | nil => exact absurd hcycle (walk_ne_nil _ _ _ _)
              | cons n cycle =>
                  refine ⟨n, cycle, rfl, ?_⟩
                  have hmem : n ∈ walk deps (first :: rest) ((first :: rest).length + 1) [] first := by
                    rw [hcycle]
                    exact List.mem_cons_self
                  exact mem_of_mem_walk (List.forall_mem_nil _) List.mem_cons_self n hmem
        · obtain ⟨n, cycle, hf, hn⟩ := ih h
          exact ⟨n, cycle, hf, (List.mem_filter.mp hn).1⟩

end Dependency

/-! ## Definitions -/

/-- The names of a text are those of its tokens. -/
theorem mem_identifiers {s : List Char} {n : String} :
    n ∈ identifiers s ↔ ∃ t ∈ tokenize s, t.kind = .ident ∧ t.value = n := by
  have hfold : ∀ (ts : List Token) (seen : List String),
      n ∈ ts.foldl (fun seen t =>
          if t.kind == .ident && !seen.contains t.value then seen ++ [t.value] else seen) seen ↔
        n ∈ seen ∨ ∃ t ∈ ts, t.kind = .ident ∧ t.value = n := by
    intro ts
    induction ts with
    | nil => simp
    | cons t rest ih =>
        intro seen
        rw [List.foldl_cons, ih]
        by_cases hkind : t.kind = .ident
        · by_cases hseen : t.value ∈ seen
          · have hskip : (t.kind == .ident && !seen.contains t.value) = false := by simp [hseen]
            rw [hskip]
            simp only [Bool.false_eq_true, if_false, List.mem_cons, exists_eq_or_imp]
            constructor
            · rintro (h | h)
              · exact Or.inl h
              · exact Or.inr (Or.inr h)
            · rintro (h | ⟨-, rfl⟩ | h)
              · exact Or.inl h
              · exact Or.inl hseen
              · exact Or.inr h
          · simp [hkind, hseen, or_assoc, eq_comm]
        · simp [hkind]
  rw [identifiers, hfold]
  simp

namespace Definitions

variable {ds : Definitions}

/-- The body mentions the name, and it is not one of its parameters. -/
def Mentions (f : NamedFunction) (n : String) : Prop :=
  n ∉ f.params ∧ ∃ t ∈ tokenizeText f.body, t.kind = .ident ∧ t.value = n

theorem contains_iff {n : String} : ds.contains n = true ↔ n ∈ ds.names := by
  simp [contains, names]

theorem mem_uses {f : NamedFunction} {n : String} :
    n ∈ ds.uses f ↔ n ∈ ds.names ∧ Mentions f n := by
  rw [uses, List.mem_filter, Bool.and_eq_true, contains_iff, mem_identifiers, Mentions]
  simp only [Bool.not_eq_true', List.contains_eq_mem, decide_eq_false_iff_not, tokenizeText]
  exact ⟨fun ⟨ht, hn, hp⟩ => ⟨hn, hp, ht⟩, fun ⟨hn, hp, ht⟩ => ⟨ht, hn, hp⟩⟩

theorem of_dependencies {f : NamedFunction} {n : String} (h : ds.get? n = some f) :
    Dependency.of ds.dependencies n = ds.uses f := by
  have hfind : (ds.dependencies.find? (·.1 == n)) = some (f.name, ds.uses f) := by
    rw [dependencies, List.find?_map]
    show Option.map _ (ds.get? n) = _
    rw [h]
    rfl
  rw [Dependency.of, hfind]
  rfl

/-- The names of an order are those of the definitions, and each comes
after the defined names that its body mentions. -/
theorem order_ok {order : List String} (h : ds.order = .ok order) :
    order.Perm ds.names ∧
      ∀ before n after, order = before ++ n :: after → ∀ f, ds.get? n = some f →
        ∀ m ∈ ds.names, Mentions f m → m ∈ before := by
  have hlength : ds.names.length < ds.length + 1 := by
    rw [names, List.length_map]
    omega
  obtain ⟨hperm, hfollows⟩ := Dependency.place_ok hlength h Dependency.follows_nil
  refine ⟨hperm, fun before n after hsplit f hf m hm hmentions => ?_⟩
  refine hfollows before n after hsplit m ?_
  rw [of_dependencies hf]
  exact mem_uses.mpr ⟨hm, hmentions⟩

/-- Definitions without an order have a cycle, which starts at one of
them. -/
theorem order_error {f : Failure} (h : ds.order = .error f) :
    ∃ n cycle, f = .circular (n :: cycle) ∧ n ∈ ds.names :=
  Dependency.place_error h

theorem get?_of_mem_names {n : String} (h : n ∈ ds.names) : ∃ f ∈ ds, ds.get? n = some f := by
  obtain ⟨g, hg, rfl⟩ := List.mem_map.mp h
  cases hget : ds.get? g.name with
  | none =>
      have hnone := List.find?_eq_none.mp hget g hg
      simp at hnone
  | some f => exact ⟨f, List.mem_of_find?_eq_some hget, rfl⟩

theorem name_of_get? {n : String} {f : NamedFunction} (h : ds.get? n = some f) : f.name = n := by
  have hname := @List.find?_some _ (fun g : NamedFunction => g.name == n) f ds h
  exact eq_of_beq hname

theorem mem_names_of_get? {n : String} {f : NamedFunction} (h : ds.get? n = some f) :
    n ∈ ds.names :=
  List.mem_map.mpr ⟨f, List.mem_of_find?_eq_some h, name_of_get? h⟩

/-- Names do not repeat, so a name finds its definition. -/
theorem get?_of_mem {f : NamedFunction} (hnames : ds.names.Nodup) (h : f ∈ ds) :
    ds.get? f.name = some f := by
  induction ds with
  | nil => cases h
  | cons g rest ih =>
      obtain ⟨hg, hrest⟩ := List.nodup_cons.mp hnames
      rw [get?, List.find?_cons]
      rcases List.mem_cons.mp h with rfl | hf
      · rw [beq_self_eq_true]
      · have hne : (g.name == f.name) = false :=
          beq_eq_false_iff_ne.mpr fun heq => hg (List.mem_map.mpr ⟨f, hf, heq.symm⟩)
        rw [hne]
        exact ih hrest hf

end Definitions
end FieldScript
