import Mathlib.Data.Fintype.Card
import Mathlib.Logic.Relation
import Mathlib.Order.Lattice.Nat
import FieldScript.Proofs.DefinitionOrder

/-!
# The layers of definitions

A round of `Dependency.place` places exactly the names whose longest
chain of uses has the length of the round: names with shorter chains are
placed already, and a name with a longer one uses a name that is still
pending. So the order is the stable sort of the names by the lengths of
their longest chains (`Definitions.height`).

The rounds get stuck only where every pending name uses a pending one.
There are finitely many names, so a cycle is among them; and a cycle has
no order, because heights fall along uses.
-/

namespace FieldScript

/-! ## Lists that are sorted by a key -/

section Sorting

variable {α : Type} {key : α → Nat} {l m : List α}

/-- Sorted lists that hold the same elements, in the same order among
those of one key, are the same. -/
theorem eq_of_filter_key_eq (hl : l.Pairwise fun a b => key a ≤ key b)
    (hm : m.Pairwise fun a b => key a ≤ key b)
    (hsame : ∀ k, l.filter (key · == k) = m.filter (key · == k)) : l = m := by
  induction l generalizing m with
  | nil =>
      cases m with
      | nil => rfl
      | cons b m => simpa using hsame (key b)
  | cons a l ih =>
      cases m with
      | nil => simpa using hsame (key a)
      | cons b m =>
          obtain ⟨ha, hl⟩ := List.pairwise_cons.mp hl
          obtain ⟨hb, hm'⟩ := List.pairwise_cons.mp hm
          -- Each head is found in the other list, so neither key is above the other.
          have hba : key b ≤ key a := by
            have hmem : a ∈ (b :: m).filter (key · == key a) := by
              rw [← hsame]
              simp
            rcases List.mem_cons.mp (List.mem_filter.mp hmem).1 with rfl | hmem
            · exact Nat.le_refl _
            · exact hb a hmem
          have hab : key a ≤ key b := by
            have hmem : b ∈ (a :: l).filter (key · == key b) := by
              rw [hsame]
              simp
            rcases List.mem_cons.mp (List.mem_filter.mp hmem).1 with rfl | hmem
            · exact Nat.le_refl _
            · exact ha b hmem
          have hkey : key b = key a := Nat.le_antisymm hba hab
          have hheads := hsame (key a)
          rw [List.filter_cons_of_pos (by simp), List.filter_cons_of_pos (by simp [hkey])] at hheads
          obtain ⟨rfl, -⟩ := List.cons.inj hheads
          refine congrArg (a :: ·) (ih hl hm' fun k => ?_)
          have hk := hsame k
          rw [List.filter_cons, List.filter_cons] at hk
          split at hk
          · exact (List.cons.inj hk).2
          · exact hk

/-- If a test tells the elements of one key, those that pass come in front
of the others without changing the order of the elements of any key. -/
theorem filter_key_of_split {p : α → Bool} {r : Nat} (hpass : ∀ a ∈ l, p a = true → key a = r)
    (hfail : ∀ a ∈ l, p a = false → key a ≠ r) (k : Nat) :
    (l.filter p).filter (key · == k) ++ (l.filter fun a => !p a).filter (key · == k)
      = l.filter (key · == k) := by
  rw [List.filter_filter, List.filter_filter]
  by_cases hk : k = r
  · have hnone : l.filter (fun a => key a == k && !p a) = [] := by
      refine List.filter_eq_nil_iff.mpr fun a ha hboth => ?_
      obtain ⟨heq, hp⟩ := (Bool.and_eq_true _ _).mp hboth
      exact hfail a ha ((Bool.not_eq_true' _).mp hp) ((eq_of_beq heq).trans hk)
    rw [hnone, List.append_nil]
    refine List.filter_congr fun a ha => ?_
    cases hp : p a with
    | true => rw [Bool.and_true]
    | false => rw [Bool.and_false, eq_comm, beq_eq_false_iff_ne, hk]; exact hfail a ha hp
  · have hnone : l.filter (fun a => key a == k && p a) = [] := by
      refine List.filter_eq_nil_iff.mpr fun a ha hboth => ?_
      obtain ⟨heq, hp⟩ := (Bool.and_eq_true _ _).mp hboth
      exact hk ((eq_of_beq heq).symm.trans (hpass a ha hp))
    rw [hnone, List.nil_append]
    refine List.filter_congr fun a ha => ?_
    cases hp : p a with
    | false => rw [Bool.not_false, Bool.and_true]
    | true =>
        rw [Bool.not_true, Bool.and_false, eq_comm, beq_eq_false_iff_ne, hpass a ha hp]
        exact Ne.symm hk

theorem le_key_trans (a b c : α) (hab : decide (key a ≤ key b) = true)
    (hbc : decide (key b ≤ key c) = true) : decide (key a ≤ key c) = true := by
  simp only [decide_eq_true_eq] at *
  omega

theorem le_key_total (a b : α) : (decide (key a ≤ key b) || decide (key b ≤ key a)) = true := by
  simp only [Bool.or_eq_true, decide_eq_true_eq]
  omega

/-- A stable sort keeps the order of the elements of one key. -/
theorem filter_key_mergeSort (key : α → Nat) (l : List α) (k : Nat) :
    (l.mergeSort fun a b => key a ≤ key b).filter (key · == k) = l.filter (key · == k) := by
  have hone : (l.filter (key · == k)).Pairwise fun a b => decide (key a ≤ key b) = true := by
    refine List.pairwise_of_forall_mem_list fun a ha b hb => ?_
    have hka : key a = k := by simpa using (List.mem_filter.mp ha).2
    have hkb : key b = k := by simpa using (List.mem_filter.mp hb).2
    simp [hka, hkb]
  have hsub := (List.sublist_mergeSort le_key_trans le_key_total hone List.filter_sublist).filter
    (key · == k)
  simp only [List.filter_filter, Bool.and_self] at hsub
  exact (hsub.eq_of_length ((List.mergeSort_perm _ _).filter _).length_eq.symm).symm

/-- A list that is sorted, and keeps the order of the elements of one key,
is the stable sort. -/
theorem eq_mergeSort_of_filter_key (hl : l.Pairwise fun a b => key a ≤ key b)
    (hsame : ∀ k, l.filter (key · == k) = m.filter (key · == k)) :
    l = m.mergeSort fun a b => key a ≤ key b := by
  refine eq_of_filter_key_eq hl ?_ fun k => (hsame k).trans (filter_key_mergeSort key m k).symm
  exact (List.pairwise_mergeSort le_key_trans le_key_total m).imp of_decide_eq_true

end Sorting

/-! ## Chains of uses -/

/-- A chain of so many uses that starts at a name. -/
inductive UseChain (uses : String → String → Prop) : String → Nat → Prop
  | stop (n : String) : UseChain uses n 0
  | use {n m : String} {k : Nat} (huse : uses n m) (hchain : UseChain uses m k) :
      UseChain uses n (k + 1)

/-- The length of the longest chain of uses that starts at a name. -/
noncomputable def chainHeight (uses : String → String → Prop) (n : String) : Nat :=
  sSup {k | UseChain uses n k}

/-- Chains from a name have a longest one. -/
def HasHeight (uses : String → String → Prop) (n : String) : Prop :=
  IsGreatest {k | UseChain uses n k} (chainHeight uses n)

section Chains

variable {uses : String → String → Prop} {n m : String} {k : Nat}

theorem hasHeight_of_isGreatest (h : IsGreatest {k | UseChain uses n k} k) :
    HasHeight uses n ∧ chainHeight uses n = k := by
  have hk : chainHeight uses n = k := h.csSup_eq
  exact ⟨by rw [HasHeight, hk]; exact h, hk⟩

/-- A name has longer chains than what it uses. -/
theorem HasHeight.lt (hn : HasHeight uses n) (hm : HasHeight uses m) (huse : uses n m) :
    chainHeight uses m < chainHeight uses n :=
  hn.2 (.use huse hm.1)

/-- What a name uses has shorter chains, so they have a longest one. -/
theorem HasHeight.of_uses (h : HasHeight uses n) (huse : uses n m) : HasHeight uses m := by
  have hbounded : BddAbove {k | UseChain uses m k} :=
    ⟨chainHeight uses n, fun k hk => (Nat.le_succ k).trans (h.2 (.use huse hk))⟩
  exact ⟨Nat.sSup_mem ⟨0, .stop m⟩ hbounded, fun k hk => le_csSup hbounded hk⟩

/-- The name uses one, through others or not at all, that uses itself. -/
def LeadsIntoCycle (uses : String → String → Prop) (n : String) : Prop :=
  ∃ m, Relation.ReflTransGen uses n m ∧ Relation.TransGen uses m m

theorem HasHeight.not_leadsIntoCycle (h : HasHeight uses n) : ¬ LeadsIntoCycle uses n := by
  rintro ⟨m, hreach, hcycle⟩
  have hm : HasHeight uses m := by
    clear hcycle
    induction hreach with
    | refl => exact h
    | tail _ huse ih => exact ih.of_uses huse
  have hfall : ∀ {k}, Relation.TransGen uses m k →
      HasHeight uses k ∧ chainHeight uses k < chainHeight uses m := by
    intro k hk
    induction hk with
    | single huse => exact ⟨hm.of_uses huse, hm.lt (hm.of_uses huse) huse⟩
    | tail _ huse ih =>
        have hk := ih.1.of_uses huse
        exact ⟨hk, (ih.1.lt hk huse).trans ih.2⟩
  exact Nat.lt_irrefl _ (hfall hcycle).2

/-- What uses nothing has only the empty chain. -/
theorem hasHeight_of_not_uses (h : ∀ m, ¬ uses n m) : HasHeight uses n := by
  refine (hasHeight_of_isGreatest (k := 0) ⟨.stop n, ?_⟩).1
  rintro k (_ | ⟨huse, -⟩)
  · exact Nat.le_refl _
  · exact absurd huse (h _)

/-- Finitely many names, each of which uses one of them, hold a cycle. -/
theorem exists_transGen_self {pending : List String} (hne : pending ≠ [])
    (h : ∀ n ∈ pending, ∃ m ∈ pending, uses n m) : ∃ n, Relation.TransGen uses n n := by
  by_contra hacyclic
  -- Without a cycle the names would have one that uses none of the others.
  let below (a b : { n // n ∈ pending }) : Prop := Relation.TransGen uses b a
  have : IsTrans { n // n ∈ pending } below := ⟨fun _ _ _ hab hbc => hbc.trans hab⟩
  have : Std.Irrefl below := ⟨fun a ha => hacyclic ⟨a, ha⟩⟩
  have : Finite { n // n ∈ pending } := (List.finite_toSet pending)
  obtain ⟨first, hfirst⟩ := List.exists_mem_of_ne_nil pending hne
  obtain ⟨⟨n, hn⟩, -, hmin⟩ := (Finite.wellFounded_of_trans_of_irrefl below).has_min Set.univ
    ⟨⟨first, hfirst⟩, trivial⟩
  obtain ⟨m, hm, huse⟩ := h n hn
  exact hmin ⟨m, hm⟩ trivial (.single huse)

end Chains

/-! ## Rounds -/

namespace Dependency

/-- The name uses the other one. -/
def Uses (deps : List (String × List String)) (n m : String) : Prop := m ∈ of deps n

variable {deps : List (String × List String)} {r : Nat} {placed pending : List String}

/-- How the names stand before a round: what is placed has shorter chains,
what is pending has one of the length of the round, and no other name is
used. -/
structure AtRound (deps : List (String × List String)) (r : Nat) (placed pending : List String) :
    Prop where
  shorter : ∀ n ∈ placed, HasHeight (Uses deps) n ∧ chainHeight (Uses deps) n < r
  chain : ∀ n ∈ pending, UseChain (Uses deps) n r
  known : ∀ n ∈ pending, ∀ m ∈ of deps n, m ∈ placed ∨ m ∈ pending

/-- The names that a round places. -/
def ready (deps : List (String × List String)) (placed pending : List String) : List String :=
  pending.filter fun n => (of deps n).all placed.contains

/-- The names that a round leaves. -/
def waiting (deps : List (String × List String)) (placed pending : List String) : List String :=
  pending.filter fun n => !(of deps n).all placed.contains

theorem uses_placed_of_mem_ready {n m : String} (h : n ∈ ready deps placed pending)
    (hm : m ∈ of deps n) : m ∈ placed :=
  List.contains_iff_mem.mp (List.all_eq_true.mp (List.mem_filter.mp h).2 m hm)

theorem exists_not_placed_of_mem_waiting {n : String} (h : n ∈ waiting deps placed pending) :
    ∃ m ∈ of deps n, m ∉ placed := by
  have hnot := (List.mem_filter.mp h).2
  rw [Bool.not_eq_true', List.all_eq_false] at hnot
  obtain ⟨m, hm, hplaced⟩ := hnot
  exact ⟨m, hm, mt List.contains_iff_mem.mpr hplaced⟩

/-- A round either places what is ready, or finds nothing ready. -/
theorem place_succ (fuel : Nat) (placed pending : List String) :
    place deps (fuel + 1) placed pending =
      if pending.isEmpty then .ok placed
      else if (ready deps placed pending).isEmpty then .error (.circular (findCycle deps pending))
      else place deps fuel (placed ++ ready deps placed pending) (waiting deps placed pending) := by
  rw [place]
  dsimp only
  rw [filter_not_ready]
  rfl

/-- What is ready in a round has longest chains of the length of the
round. -/
theorem AtRound.height_ready (h : AtRound deps r placed pending) {n : String}
    (hn : n ∈ ready deps placed pending) :
    HasHeight (Uses deps) n ∧ chainHeight (Uses deps) n = r := by
  refine hasHeight_of_isGreatest ⟨h.chain n (List.mem_filter.mp hn).1, ?_⟩
  rintro k (_ | ⟨huse, hchain⟩)
  · exact Nat.zero_le _
  · obtain ⟨hheight, hlt⟩ := h.shorter _ (uses_placed_of_mem_ready hn huse)
    exact Nat.succ_le_of_lt ((hheight.2 hchain).trans_lt hlt)

/-- What a round leaves has a longer chain, through a pending name. -/
theorem AtRound.next (h : AtRound deps r placed pending) :
    AtRound deps (r + 1) (placed ++ ready deps placed pending) (waiting deps placed pending) := by
  refine ⟨fun n hn => ?_, fun n hn => ?_, fun n hn m hm => ?_⟩
  · rcases List.mem_append.mp hn with hn | hn
    · obtain ⟨hheight, hlt⟩ := h.shorter n hn
      exact ⟨hheight, hlt.trans (Nat.lt_succ_self r)⟩
    · obtain ⟨hheight, heq⟩ := h.height_ready hn
      exact ⟨hheight, heq ▸ Nat.lt_succ_self _⟩
  · obtain ⟨m, hm, hplaced⟩ := exists_not_placed_of_mem_waiting hn
    have hpending := (h.known n (List.mem_filter.mp hn).1 m hm).resolve_left hplaced
    exact .use hm (h.chain m hpending)
  · rcases h.known n (List.mem_filter.mp hn).1 m hm with hplaced | hpending
    · exact .inl (List.mem_append_left _ hplaced)
    · cases hready : (of deps m).all placed.contains with
      | true => exact .inl (List.mem_append_right _ (List.mem_filter.mpr ⟨hpending, hready⟩))
      | false => exact .inr (List.mem_filter.mpr ⟨hpending, by rw [hready]; rfl⟩)

/-- The names of a list are those pending, layer by layer from a round
on. -/
structure Layered (deps : List (String × List String)) (r : Nat) (pending rest : List String) :
    Prop where
  hasHeight : ∀ n ∈ rest, HasHeight (Uses deps) n
  le_height : ∀ n ∈ rest, r ≤ chainHeight (Uses deps) n
  sorted : rest.Pairwise fun n m => chainHeight (Uses deps) n ≤ chainHeight (Uses deps) m
  same : ∀ k, rest.filter (chainHeight (Uses deps) · == k)
    = pending.filter (chainHeight (Uses deps) · == k)

theorem layered_nil (deps : List (String × List String)) (r : Nat) : Layered deps r [] [] :=
  ⟨List.forall_mem_nil _, List.forall_mem_nil _, List.Pairwise.nil, fun _ => rfl⟩

theorem Layered.mem_iff {rest : List String} (h : Layered deps r pending rest) {n : String} :
    n ∈ rest ↔ n ∈ pending := by
  have hn := congrArg (n ∈ ·) (h.same (chainHeight (Uses deps) n))
  simpa using hn

/-- What is ready comes before the layers of what waits. -/
theorem AtRound.layered (h : AtRound deps r placed pending) {rest : List String}
    (hrest : Layered deps (r + 1) (waiting deps placed pending) rest) :
    Layered deps r pending (ready deps placed pending ++ rest) := by
  have hready : ∀ n ∈ ready deps placed pending, chainHeight (Uses deps) n = r :=
    fun n hn => (h.height_ready hn).2
  refine ⟨fun n hn => ?_, fun n hn => ?_, List.pairwise_append.mpr ⟨?_, hrest.sorted, ?_⟩, fun k => ?_⟩
  · rcases List.mem_append.mp hn with hn | hn
    · exact (h.height_ready hn).1
    · exact hrest.hasHeight n hn
  · rcases List.mem_append.mp hn with hn | hn
    · exact (hready n hn).ge
    · exact Nat.le_of_succ_le (hrest.le_height n hn)
  · exact List.pairwise_of_forall_mem_list fun n hn m hm => by rw [hready n hn, hready m hm]
  · intro n hn m hm
    rw [hready n hn]
    exact Nat.le_of_succ_le (hrest.le_height m hm)
  · rw [List.filter_append, hrest.same]
    refine filter_key_of_split (r := r) (fun n hn hnow => ?_) (fun n hn hwait => ?_) k
    · exact hready n (List.mem_filter.mpr ⟨hn, hnow⟩)
    · have hmem : n ∈ waiting deps placed pending := List.mem_filter.mpr ⟨hn, by rw [hwait]; rfl⟩
      have hlate := hrest.le_height n (hrest.mem_iff.mpr hmem)
      omega

/-- Rounds that place everything place it layer by layer. -/
theorem AtRound.place_ok {fuel : Nat} {order : List String} (h : AtRound deps r placed pending)
    (hfuel : pending.length < fuel) (hplace : place deps fuel placed pending = .ok order) :
    ∃ rest, order = placed ++ rest ∧ Layered deps r pending rest := by
  induction fuel generalizing r placed pending with
  | zero => omega
  | succ fuel ih =>
      rw [place_succ] at hplace
      split at hplace
      · rename_i hempty
        obtain rfl := Except.ok.inj hplace
        rw [List.isEmpty_iff.mp hempty]
        exact ⟨[], (List.append_nil _).symm, layered_nil deps r⟩
      · split at hplace
        · cases hplace
        · rename_i hready
          have hlength := (List.filter_append_perm
            (fun n => (of deps n).all placed.contains) pending).length_eq
          rw [List.length_append] at hlength
          have hpos := List.length_pos_iff.mpr (mt List.isEmpty_iff.mpr hready)
          rw [ready] at hpos
          obtain ⟨rest, rfl, hrest⟩ := ih h.next (by rw [waiting]; omega) hplace
          exact ⟨ready deps placed pending ++ rest, List.append_assoc _ _ _, h.layered hrest⟩

/-- How rounds get stuck: every name that is left uses one that is left,
and the others have a longest chain. -/
structure Stuck (deps : List (String × List String)) (pending stuck : List String) : Prop where
  nonempty : stuck ≠ []
  waits : ∀ n ∈ stuck, ∃ m ∈ stuck, m ∈ of deps n
  kept : ∃ p : String → Bool, stuck = pending.filter p
  height : ∀ n ∈ pending, n ∉ stuck → HasHeight (Uses deps) n

theorem AtRound.stuck {fuel : Nat} {f : Failure} (h : AtRound deps r placed pending)
    (hplace : place deps fuel placed pending = .error f) :
    ∃ stuck, f = .circular (findCycle deps stuck) ∧ Stuck deps pending stuck := by
  induction fuel generalizing r placed pending with
  | zero => cases hplace
  | succ fuel ih =>
      rw [place_succ] at hplace
      split at hplace
      · cases hplace
      · rename_i hpending
        split at hplace
        · rename_i hready
          refine ⟨pending, (Except.error.inj hplace).symm, mt List.isEmpty_iff.mpr hpending,
            fun n hn => ?_, ⟨fun _ => true, by simp⟩, fun n hn hnot => absurd hn hnot⟩
          have hwait : n ∈ waiting deps placed pending := by
            refine List.mem_filter.mpr ⟨hn, ?_⟩
            have hnot := List.filter_eq_nil_iff.mp (List.isEmpty_iff.mp hready) n hn
            rw [Bool.not_eq_true] at hnot
            rw [hnot]
            rfl
          obtain ⟨m, hm, hplaced⟩ := exists_not_placed_of_mem_waiting hwait
          exact ⟨m, (h.known n hn m hm).resolve_left hplaced, hm⟩
        · obtain ⟨stuck, hf, hstuck⟩ := ih h.next hplace
          obtain ⟨p, hp⟩ := hstuck.kept
          refine ⟨stuck, hf, hstuck.nonempty, hstuck.waits,
            ⟨_, by rw [hp, waiting, List.filter_filter]⟩, fun n hn hnot => ?_⟩
          cases hready : (of deps n).all placed.contains with
          | true => exact (h.height_ready (List.mem_filter.mpr ⟨hn, hready⟩)).1
          | false => exact hstuck.height n (List.mem_filter.mpr ⟨hn, by rw [hready]; rfl⟩) hnot

end Dependency

/-! ## The order of definitions -/

namespace Definitions

variable {ds : Definitions}

/-- The body of the first definition mentions the second one. -/
def DependsOn (ds : Definitions) (n m : String) : Prop :=
  m ∈ ds.names ∧ ∃ f, ds.get? n = some f ∧ Mentions f m

/-- The length of the longest chain of definitions, each of which depends
on the next one, that starts at a name. -/
noncomputable def height (ds : Definitions) (n : String) : Nat := chainHeight ds.DependsOn n

theorem uses_dependencies (ds : Definitions) : Dependency.Uses ds.dependencies = ds.DependsOn := by
  funext n m
  rw [Dependency.Uses, DependsOn, eq_iff_iff]
  cases hget : ds.get? n with
  | some f =>
      rw [of_dependencies hget, mem_uses]
      simp
  | none =>
      have hnone : Dependency.of ds.dependencies n = [] := by
        rw [Dependency.of, dependencies, List.find?_map]
        show Option.getD (Option.map _ (Option.map _ (ds.get? n))) [] = []
        rw [hget]
        rfl
      simp [hnone]

theorem atRound_zero (ds : Definitions) :
    Dependency.AtRound ds.dependencies 0 [] ds.names := by
  refine ⟨List.forall_mem_nil _, fun n _ => .stop n, fun n _ m hm => .inr ?_⟩
  have huse : Dependency.Uses ds.dependencies n m := hm
  rw [uses_dependencies] at huse
  exact huse.1

/-- What has an order is placed layer by layer. -/
theorem layered_of_order {order : List String} (h : ds.order = .ok order) :
    Dependency.Layered ds.dependencies 0 ds.names order := by
  have hlength : ds.names.length < ds.length + 1 := by
    rw [names, List.length_map]
    exact Nat.lt_succ_self _
  obtain ⟨rest, rfl, hrest⟩ := ds.atRound_zero.place_ok hlength h
  exact hrest

/-- Where definitions have an order, chains of every name have a longest
one. -/
theorem hasHeight_of_order {order : List String} (h : ds.order = .ok order) (n : String) :
    HasHeight ds.DependsOn n := by
  have hlayered := layered_of_order h
  by_cases hn : n ∈ ds.names
  · rw [← uses_dependencies]
    exact hlayered.hasHeight n (hlayered.mem_iff.mpr hn)
  · refine hasHeight_of_not_uses fun m hm => hn ?_
    obtain ⟨-, f, hget, -⟩ := hm
    exact mem_names_of_get? hget

/-- Definitions have an order if and only if none depends on itself,
through others or directly. The order is then the stable sort of the names
by the lengths of their longest chains; it holds every name, behind all
that its body mentions. -/
theorem order_layered (ds : Definitions) :
    ((∃ order, ds.order = .ok order) ↔ ∀ n, ¬ Relation.TransGen ds.DependsOn n n) ∧
      ∀ order, ds.order = .ok order →
        (∀ n, IsGreatest {k | UseChain ds.DependsOn n k} (ds.height n)) ∧
        (order = ds.names.mergeSort fun n m => ds.height n ≤ ds.height m) ∧
        order.Perm ds.names ∧
        ∀ before n after, order = before ++ n :: after → ∀ m, ds.DependsOn n m → m ∈ before := by
  refine ⟨⟨fun ⟨order, h⟩ n hn =>
      (hasHeight_of_order h n).not_leadsIntoCycle ⟨n, .refl, hn⟩, fun hacyclic => ?_⟩, ?_⟩
  · cases horder : ds.order with
    | ok order => exact ⟨order, rfl⟩
    | error f =>
        obtain ⟨stuck, -, hstuck⟩ := ds.atRound_zero.stuck horder
        have hcycle : ∃ n, Relation.TransGen (Dependency.Uses ds.dependencies) n n :=
          exists_transGen_self hstuck.nonempty hstuck.waits
        rw [uses_dependencies] at hcycle
        obtain ⟨n, hn⟩ := hcycle
        exact absurd hn (hacyclic n)
  · intro order horder
    have hlayered := layered_of_order horder
    have hsorted := hlayered.sorted
    have hsame := hlayered.same
    rw [uses_dependencies] at hsorted
    simp only [uses_dependencies] at hsame
    obtain ⟨hperm, hfollows⟩ := order_ok horder
    refine ⟨hasHeight_of_order horder, eq_mergeSort_of_filter_key hsorted hsame, hperm, ?_⟩
    rintro before n after hsplit m ⟨hm, f, hget, hmentions⟩
    exact hfollows before n after hsplit f hget m hm hmentions

end Definitions
end FieldScript
