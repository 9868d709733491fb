import Mathlib.Data.List.Chain
import Mathlib.Data.List.Perm.Subperm
import FieldScript.Proofs.DefinitionLayers
import FieldScript.Proofs.StatementOrder

/-!
# Cycles of definitions

Definitions without an order are reported by a cycle. Rounds get stuck on
the names that lead into a cycle (`Stuck.eq_filter`), each of which uses
another one. So the walk from the first of them always has a next name, it
stays among finitely many, and it ends where it comes to a name again:
`Enters` says how it gets there, and `exists_enters` that it does, however
many steps beyond their number it may take. The names from the first visit
on are a simple cycle (`isSimpleCycle_of_enters`).

A program is faulted on the line of the name at which the walk enters the
cycle. The walk may start above the cycle and enter it anywhere, so this
need not be the first definition on the cycle (`ofStatements_circular`).
-/

namespace FieldScript

/-! ## Closed chains -/

/-- A chain leads from each of its elements to the last one. -/
theorem reflTransGen_getLast {α : Type} {R : α → α → Prop} {l : List α} (h : l.IsChain R) {a b : α}
    (ha : a ∈ l) (hb : l.getLast? = some b) : Relation.ReflTransGen R a b := by
  obtain ⟨before, after, rfl⟩ := List.append_of_mem ha
  have hend := List.relationReflTransGen_of_exists_isChain (a :: after)
    (h.suffix (List.suffix_append _ _)) (List.cons_ne_nil _ _)
  rw [List.getLast?_append_of_ne_nil _ (List.cons_ne_nil _ _),
    List.getLast?_eq_some_getLast (List.cons_ne_nil _ _)] at hb
  rwa [List.head_cons, Option.some.inj hb] at hend

/-- A chain that ends where it starts. -/
theorem transGen_self_of_isChain {α : Type} {R : α → α → Prop} {a : α} {l : List α}
    (h : (a :: l).IsChain R) (hlast : l.getLast? = some a) : Relation.TransGen R a a := by
  obtain ⟨b, l, rfl⟩ := List.exists_cons_of_ne_nil (List.ne_nil_of_mem (List.mem_of_getLast? hlast))
  obtain ⟨hfirst, hrest⟩ := List.isChain_cons_cons.mp h
  exact Relation.TransGen.head' hfirst (reflTransGen_getLast hrest List.mem_cons_self hlast)

/-! ## The search -/

namespace Dependency

variable {deps : List (String × List String)} {pending path : List String}
  {node first entry : String}

/-- The second name is the first pending one that the first one uses. -/
def Leads (deps : List (String × List String)) (pending : List String) (n m : String) : Prop :=
  (of deps n).find? pending.contains = some m

theorem Leads.uses {n m : String} (h : Leads deps pending n m) : Uses deps n m :=
  List.mem_of_find?_eq_some h

theorem Leads.mem {n m : String} (h : Leads deps pending n m) : m ∈ pending :=
  List.contains_iff_mem.mp (List.find?_some h)

theorem exists_leads {n m : String} (hm : m ∈ pending) (huse : m ∈ of deps n) :
    ∃ k, Leads deps pending n k := by
  cases hfind : (of deps n).find? pending.contains with
  | some k => exact ⟨k, hfind⟩
  | none => exact absurd (List.contains_iff_mem.mpr hm) (List.find?_eq_none.mp hfind m huse)

/-- A walk from a name along pending ones that visits no name twice, until
it comes back to the name at which it entered a cycle. `lead` is what it
visits before. -/
structure Enters (deps : List (String × List String)) (pending : List String) (first : String)
    (lead : List String) (entry : String) (rest : List String) : Prop where
  starts : (lead ++ [entry]).head? = some first
  leads : (lead ++ entry :: (rest ++ [entry])).IsChain (Leads deps pending)
  once : (lead ++ entry :: rest).Nodup

/-- A walk that visits no name twice is as long as there are names. -/
theorem length_le_of_path (hnodup : path.Nodup) (hmem : ∀ n ∈ path, n ∈ pending) :
    path.length ≤ pending.length :=
  (hnodup.subperm hmem).length_le

/-- Where every pending name uses a pending one, a walk enters a cycle, and
the steps that `walk` may take suffice. -/
theorem exists_enters (hpending : ∀ n ∈ pending, ∃ m, Leads deps pending n m)
    (hleads : (path ++ [node]).IsChain (Leads deps pending)) (hnodup : path.Nodup)
    (hmem : ∀ n ∈ path ++ [node], n ∈ pending) (hstart : (path ++ [node]).head? = some first) :
    ∃ lead entry rest, Enters deps pending first lead entry rest ∧
      ∀ fuel, pending.length < fuel + path.length →
        walk deps pending fuel path node = entry :: (rest ++ [entry]) := by
  have hlength := length_le_of_path hnodup fun n hn => hmem n (List.mem_append_left _ hn)
  -- Every step makes the path longer, and it never gets longer than the pending names.
  induction hleft : pending.length - path.length using Nat.strongRecOn generalizing path node with
  | ind left ih =>
      have hfuel : ∀ fuel, pending.length < fuel + path.length → ∃ k, fuel = k + 1 :=
        fun fuel h => ⟨fuel - 1, by omega⟩
      by_cases hseen : node ∈ path
      · obtain ⟨lead, rest, rfl⟩ := List.append_of_mem hseen
        refine ⟨lead, node, rest, ⟨?_, ?_, hnodup⟩, fun fuel h => ?_⟩
        · simpa using hstart
        · simpa using hleads
        · obtain ⟨k, rfl⟩ := hfuel fuel h
          have hlead : ∀ n ∈ lead, (n != node) = true := by
            intro n hn
            rw [bne_iff_ne]
            rintro rfl
            exact (List.nodup_append.mp hnodup).2.2 n hn n List.mem_cons_self rfl
          rw [walk, if_pos (List.contains_iff_mem.mpr hseen), List.dropWhile_append_of_pos hlead,
            List.dropWhile_cons_of_neg (by simp), List.cons_append]
      · obtain ⟨next, hnext⟩ := hpending node (hmem node (by simp))
        have hlonger : (path ++ [node]).Nodup := by
          simpa [List.nodup_append, hnodup] using fun n hn => ne_of_mem_of_not_mem hn hseen
        have hle := length_le_of_path hlonger hmem
        rw [List.length_append, List.length_singleton] at hle
        have hchain : (path ++ [node] ++ [next]).IsChain (Leads deps pending) := by
          refine hleads.append (List.isChain_singleton next) fun n hn m hm => ?_
          simp only [List.getLast?_concat, Option.mem_def, Option.some.injEq,
            List.head?_cons] at hn hm
          exact hn ▸ hm ▸ hnext
        have hinside : ∀ n ∈ path ++ [node] ++ [next], n ∈ pending := by
          intro n hn
          rcases List.mem_append.mp hn with hn | hn
          · exact hmem n hn
          · exact List.mem_singleton.mp hn ▸ hnext.mem
        obtain ⟨lead, entry, rest, henters, hwalk⟩ := ih (pending.length - (path ++ [node]).length)
          (by rw [List.length_append, List.length_singleton]; omega) hchain hlonger hinside
          (by rw [List.head?_append, hstart]; rfl)
          (by rw [List.length_append, List.length_singleton]; exact hle) rfl
        refine ⟨lead, entry, rest, henters, fun fuel h => ?_⟩
        obtain ⟨k, rfl⟩ := hfuel fuel h
        have hfind : (of deps node).find? pending.contains = some next := hnext
        rw [walk, if_neg (mt List.contains_iff_mem.mp hseen), hfind]
        exact hwalk k (by rw [List.length_append, List.length_singleton]; omega)

theorem Enters.reaches {lead rest : List String} (h : Enters deps pending first lead entry rest) :
    Relation.ReflTransGen (Uses deps) first entry := by
  have hbegin : lead ++ [entry] <+: lead ++ entry :: (rest ++ [entry]) :=
    ⟨rest ++ [entry], by rw [List.append_assoc, List.singleton_append]⟩
  have hlead : (lead ++ [entry]).IsChain (Leads deps pending) := List.IsChain.prefix h.leads hbegin
  exact reflTransGen_getLast (hlead.imp fun _ _ => Leads.uses) (List.mem_of_head? h.starts) List.getLast?_concat

theorem Enters.cycle {lead rest : List String} (h : Enters deps pending first lead entry rest) :
    (entry :: (rest ++ [entry])).IsChain (Uses deps) :=
  (h.leads.suffix (List.suffix_append _ _)).imp fun _ _ => Leads.uses

theorem Stuck.exists_leads {stuck : List String} (h : Stuck deps pending stuck) :
    ∀ n ∈ stuck, ∃ m, Leads deps stuck n m := by
  intro n hn
  obtain ⟨m, hm, huse⟩ := h.waits n hn
  exact Dependency.exists_leads hm huse

/-- From every name that is stuck, the walk enters a cycle. -/
theorem Stuck.exists_enters {stuck : List String} (h : Stuck deps pending stuck)
    (hfirst : first ∈ stuck) :
    ∃ lead entry rest, Enters deps stuck first lead entry rest ∧
      ∀ fuel, stuck.length < fuel → walk deps stuck fuel [] first = entry :: (rest ++ [entry]) := by
  have hleads : ([] ++ [first]).IsChain (Leads deps stuck) := List.isChain_singleton first
  exact Dependency.exists_enters h.exists_leads hleads List.nodup_nil (by simpa using hfirst) rfl

open Classical in
/-- The rounds get stuck on the names that lead into a cycle. -/
theorem Stuck.eq_filter {stuck : List String} (h : Stuck deps pending stuck) :
    stuck = pending.filter fun n => LeadsIntoCycle (Uses deps) n := by
  obtain ⟨p, hp⟩ := h.kept
  rw [hp]
  refine List.filter_congr fun n hn => ?_
  rw [Bool.eq_iff_iff, decide_eq_true_eq]
  constructor
  · intro hpass
    obtain ⟨lead, entry, rest, henters, -⟩ :=
      h.exists_enters (hp ▸ List.mem_filter.mpr ⟨hn, hpass⟩ : n ∈ stuck)
    exact ⟨entry, henters.reaches, transGen_self_of_isChain henters.cycle List.getLast?_concat⟩
  · intro hleads
    by_contra hpass
    refine (h.height n hn fun hstuck => hpass ?_).not_leadsIntoCycle hleads
    rw [hp] at hstuck
    exact (List.mem_filter.mp hstuck).2

end Dependency

namespace Definitions

variable {ds : Definitions}

open Classical in
/-- The definitions that lead into a cycle, in the order of definition. -/
noncomputable def cyclic (ds : Definitions) : List String :=
  ds.names.filter fun n => LeadsIntoCycle ds.DependsOn n

/-- Names that go round: the last one is the first one again, the others
are distinct definitions, and the body of each mentions the next. -/
structure IsSimpleCycle (ds : Definitions) (cycle : List String) : Prop where
  two_le_length : 2 ≤ cycle.length
  closed : cycle.getLast? = cycle.head?
  distinct : cycle.dropLast.Nodup
  defined : ∀ n ∈ cycle, n ∈ ds.names
  mentions : cycle.IsChain ds.DependsOn

open Dependency in
/-- Where definitions have no order, the search starts at the first one
that leads into a cycle, and what it finds is the failure. -/
theorem search_of_order {f : Failure} (h : ds.order = .error f) :
    ∃ first lead entry rest, ds.cyclic.head? = some first ∧
      (∀ n ∈ ds.cyclic, ∃ m, Leads ds.dependencies ds.cyclic n m) ∧
      Enters ds.dependencies ds.cyclic first lead entry rest ∧
      (∀ fuel, ds.cyclic.length < fuel →
        walk ds.dependencies ds.cyclic fuel [] first = entry :: (rest ++ [entry])) ∧
      f = .circular (entry :: (rest ++ [entry])) := by
  obtain ⟨stuck, rfl, hstuck⟩ := ds.atRound_zero.stuck h
  have hcyclic : stuck = ds.cyclic := by
    rw [hstuck.eq_filter, cyclic, uses_dependencies]
  obtain ⟨first, others, hsplit⟩ := List.exists_cons_of_ne_nil hstuck.nonempty
  obtain ⟨lead, entry, rest, henters, hwalk⟩ :=
    hstuck.exists_enters (hsplit ▸ List.mem_cons_self : first ∈ stuck)
  have hfound : findCycle ds.dependencies stuck = entry :: (rest ++ [entry]) := by
    rw [← hwalk (stuck.length + 1) (Nat.lt_succ_self _), hsplit]
    rfl
  rw [← hcyclic, hfound]
  exact ⟨first, lead, entry, rest, by rw [hsplit, List.head?_cons], hstuck.exists_leads, henters,
    hwalk, rfl⟩

theorem exists_dependsOn_of_mem {n : String} {ns : List String}
    (h : (n :: ns).IsChain ds.DependsOn) :
    ∀ m ∈ ns, ∃ k, ds.DependsOn k m := by
  induction ns generalizing n with
  | nil => exact List.forall_mem_nil _
  | cons m ns ih =>
      obtain ⟨hfirst, hrest⟩ := List.isChain_cons_cons.mp h
      exact List.forall_mem_cons.mpr ⟨⟨n, hfirst⟩, ih hrest⟩

open Dependency in
/-- What the search comes back to is a simple cycle. -/
theorem isSimpleCycle_of_enters {pending : List String} {first entry : String}
    {lead rest : List String} (h : Enters ds.dependencies pending first lead entry rest) :
    ds.IsSimpleCycle (entry :: (rest ++ [entry])) := by
  have hchain : (entry :: (rest ++ [entry])).IsChain ds.DependsOn := by
    rw [← uses_dependencies]
    exact h.cycle
  refine ⟨by simp, ?_, ?_, fun n hn => ?_, hchain⟩
  · rw [← List.cons_append, List.getLast?_concat]
    rfl
  · rw [← List.cons_append, List.dropLast_concat]
    exact (List.nodup_append.mp h.once).2.1
  · have hlater : n ∈ rest ++ [entry] := by
      rcases List.mem_cons.mp hn with rfl | hn
      · exact List.mem_append_right _ (List.mem_singleton_self n)
      · exact hn
    obtain ⟨k, hk⟩ := exists_dependsOn_of_mem hchain n hlater
    exact hk.1

theorem exists_order_error (h : ∃ n, Relation.TransGen ds.DependsOn n n) :
    ∃ f, ds.order = .error f := by
  cases horder : ds.order with
  | ok order =>
      obtain ⟨n, hn⟩ := h
      exact absurd ⟨n, .refl, hn⟩ (hasHeight_of_order horder n).not_leadsIntoCycle
  | error f => exact ⟨f, rfl⟩

open Dependency in
/-- Definitions that depend on themselves, through others or directly, are
reported by a simple cycle of them. It is where the search from the first
definition that leads into a cycle comes to: every definition that leads
into one has a next one, and the number of steps that `walk` may take does
not matter. -/
theorem order_circular (h : ∃ n, Relation.TransGen ds.DependsOn n n) :
    ∃ first lead entry rest, ds.cyclic.head? = some first ∧
      (∀ n ∈ ds.cyclic, ∃ m, Leads ds.dependencies ds.cyclic n m) ∧
      Enters ds.dependencies ds.cyclic first lead entry rest ∧
      (∀ fuel, ds.cyclic.length < fuel →
        walk ds.dependencies ds.cyclic fuel [] first = entry :: (rest ++ [entry])) ∧
      ds.order = .error (.circular (entry :: (rest ++ [entry]))) ∧
      ds.IsSimpleCycle (entry :: (rest ++ [entry])) := by
  obtain ⟨f, horder⟩ := exists_order_error h
  obtain ⟨first, lead, entry, rest, hfirst, hnext, henters, hwalk, rfl⟩ := search_of_order horder
  exact ⟨first, lead, entry, rest, hfirst, hnext, henters, hwalk, horder,
    isSimpleCycle_of_enters henters⟩

/-- Two definitions that use each other, below one that uses the second. -/
def detour : Definitions :=
  [⟨"FNA", ["x"], "FNC(x)", 1⟩, ⟨"FNB", ["x"], "FNC(x)", 2⟩, ⟨"FNC", ["x"], "FNB(x)", 3⟩]

theorem cycle_detour : ∃ n, Relation.TransGen detour.DependsOn n n := by
  rw [← uses_dependencies]
  have hforth : "FNC" ∈ Dependency.of detour.dependencies "FNB" := by decide +kernel
  have hback : "FNB" ∈ Dependency.of detour.dependencies "FNC" := by decide +kernel
  exact ⟨"FNB", .tail (.single hforth) hback⟩

/-- No definition can be placed, and the search goes from `FNA` to `FNC`
and round from there. -/
theorem order_detour : detour.order = .error (.circular ["FNC", "FNB", "FNC"]) := by
  have hready : (detour.names.filter fun n =>
      (Dependency.of detour.dependencies n).all ([] : List String).contains) = [] := by
    decide +kernel
  have hfound : Dependency.findCycle detour.dependencies detour.names = ["FNC", "FNB", "FNC"] := by
    decide +kernel
  rw [order, detour, List.length_cons, ← detour, Dependency.place, if_neg (by decide +kernel)]
  dsimp only
  rw [hready, hfound]
  rfl

theorem order_circular_detour :
    (∃ n, Relation.TransGen detour.DependsOn n n) ∧
    ∃ entry rest, detour.order = .error (.circular (entry :: (rest ++ [entry]))) ∧
      detour.IsSimpleCycle (entry :: (rest ++ [entry])) :=
  have ⟨_, _, entry, rest, _, _, _, _, horder, hsimple⟩ := order_circular cycle_detour
  ⟨cycle_detour, entry, rest, horder, hsimple⟩

end Definitions

/-! ## Lines of circular programs -/

namespace Program

variable {ss : List Statement} {ds : Definitions} {cycle : List String} {f : NamedFunction}

/-- The lines of the definitions on a cycle. -/
def linesOn (ds : Definitions) (cycle : List String) : Set Nat :=
  {n | ∃ g ∈ ds, g.name ∈ cycle ∧ g.line = n}

/-- The first definition on the cycle, in the order of the source. -/
def firstOn? (ds : Definitions) (cycle : List String) : Option NamedFunction :=
  List.find? (fun g => cycle.contains g.name) ds

theorem exists_firstOn (hf : f ∈ ds) (hcycle : f.name ∈ cycle) :
    ∃ e, firstOn? ds cycle = some e := by
  cases hfirst : firstOn? ds cycle with
  | some e => exact ⟨e, rfl⟩
  | none => exact absurd (List.contains_iff_mem.mpr hcycle) (List.find?_eq_none.mp hfirst f hf)

theorem isLeast_of_firstOn (hsorted : List.Pairwise (fun f g : NamedFunction => f.line < g.line) ds)
    (hfirst : firstOn? ds cycle = some f) : IsLeast (linesOn ds cycle) f.line := by
  obtain ⟨hon, before, after, rfl, hbefore⟩ := List.find?_eq_some_iff_append.mp hfirst
  refine ⟨⟨f, by simp, List.contains_iff_mem.mp hon, rfl⟩, ?_⟩
  rintro _ ⟨g, hg, hcycle, rfl⟩
  rcases List.mem_append.mp hg with hg | hg
  · have hnot := hbefore g hg
    rw [List.contains_iff_mem.mpr hcycle] at hnot
    cases hnot
  · rcases List.mem_cons.mp hg with rfl | hg
    · exact Nat.le_refl _
    · have hlater := (List.pairwise_append.mp hsorted).2.1
      exact Nat.le_of_lt (List.rel_of_pairwise_cons hlater hg)

/-- A definition has the smallest line on a cycle if it stands first on
it. -/
theorem isLeast_line_iff (hsorted : List.Pairwise (fun f g : NamedFunction => f.line < g.line) ds)
    (hf : f ∈ ds) (hcycle : f.name ∈ cycle) :
    IsLeast (linesOn ds cycle) f.line ↔ firstOn? ds cycle = some f := by
  refine ⟨fun hleast => ?_, isLeast_of_firstOn hsorted⟩
  obtain ⟨e, he⟩ := exists_firstOn hf hcycle
  have hline : e.line = f.line := (isLeast_of_firstOn hsorted he).unique hleast
  have hmem : e ∈ ds := List.mem_of_find?_eq_some he
  have heq : e = f := by
    by_contra hne
    have : Std.Symm fun f g : NamedFunction => f.line ≠ g.line := ⟨fun _ _ h => h.symm⟩
    exact (hsorted.imp Nat.ne_of_lt).forall hmem hf hne hline
  rw [he, heq]

/-- Names on a cycle lead into it. -/
theorem leadsIntoCycle_of_isSimpleCycle {n : String} (h : ds.IsSimpleCycle cycle) (hn : n ∈ cycle) :
    LeadsIntoCycle ds.DependsOn n := by
  obtain ⟨m, ms, rfl⟩ := List.exists_cons_of_ne_nil (List.ne_nil_of_mem hn)
  have hlast := h.closed
  rw [List.head?_cons] at hlast
  have hms : ms ≠ [] := by
    rintro rfl
    exact absurd h.two_le_length (by simp)
  refine ⟨m, reflTransGen_getLast h.mentions hn hlast, transGen_self_of_isChain h.mentions ?_⟩
  rwa [← List.singleton_append, List.getLast?_append_of_ne_nil _ hms] at hlast

/-- A definition that is the first to lead into a cycle is the first on
each cycle that it is on. -/
theorem firstOn_of_head?_cyclic (hnames : ds.names.Nodup) (hf : f ∈ ds) (h : ds.IsSimpleCycle cycle)
    (hcycle : f.name ∈ cycle) (hhead : ds.cyclic.head? = some f.name) :
    firstOn? ds cycle = some f := by
  classical
  rw [Definitions.cyclic, List.head?_filter, Definitions.names, List.find?_map] at hhead
  obtain ⟨e, hfind, hname⟩ := Option.map_eq_some_iff.mp hhead
  have he := List.mem_of_find?_eq_some hfind
  obtain rfl : e = f := by
    have hget := Definitions.get?_of_mem hnames he
    rw [hname, Definitions.get?_of_mem hnames hf] at hget
    exact (Option.some.inj hget).symm
  obtain ⟨-, before, after, hsplit, hbefore⟩ := List.find?_eq_some_iff_append.mp hfind
  refine List.find?_eq_some_iff_append.mpr ⟨List.contains_iff_mem.mpr hcycle, before, after, hsplit,
    fun g hg => ?_⟩
  rw [Bool.not_eq_true', Bool.eq_false_iff]
  intro hon
  have hleads := leadsIntoCycle_of_isSimpleCycle h (List.contains_iff_mem.mp hon)
  have hnot := hbefore g hg
  simp [hleads] at hnot

theorem definitions_pairwise (hsorted : ss.Pairwise fun s t => s.line < t.line) :
    (ss.filterMap definitionOf?).Pairwise fun f g => f.line < g.line := by
  have hline : ∀ {s : Statement} {f : NamedFunction},
      definitionOf? s = some f → f.line = s.line := by
    intro s f h
    unfold definitionOf? at h
    split at h
    · rw [← Option.some.inj h]
    · cases h
  refine List.Pairwise.filterMap _ (fun s t hlt f hf g hg => ?_) hsorted
  rw [hline hf, hline hg]
  exact hlt

/-- A cycle is a fault on the line of its first definition. -/
theorem ofStatements_of_order {lines : Nat} {d : Draft} {entry : String} {others : List String}
    (hd : ss.foldlM Draft.add {} = .ok d)
    (horder : d.definitions.order = .error (.circular (entry :: others)))
    (hget : d.definitions.get? entry = some f) :
    ofStatements lines ss = .error (.statement f.line (.circular (entry :: others)) none) := by
  have hfault : orderOf d.definitions =
      .error (.statement f.line (.circular (entry :: others)) none) := by
    rw [orderOf, horder]
    dsimp only
    rw [List.head?_cons, Option.bind_some, hget]
    rfl
  rw [ofStatements, hd]
  show ofDraft lines d = _
  rw [ofDraft, hfault]
  rfl

open Dependency in
/-- Statements that go together, but whose definitions depend on
themselves, have a fault on the line of the definition at which the search
enters the cycle that is reported. Where lines ascend, this is the smallest
line on the cycle exactly if no definition on the cycle stands above it,
and always if the first definition that leads into a cycle is on the
reported one. -/
theorem ofStatements_circular {lines : Nat} {d : Draft} (hd : ss.foldlM Draft.add {} = .ok d)
    (hcycle : ∃ n, Relation.TransGen d.definitions.DependsOn n n) :
    ∃ first lead f rest cycle, f ∈ d.definitions ∧ cycle = f.name :: (rest ++ [f.name]) ∧
      ofStatements lines ss = .error (.statement f.line (.circular cycle) none) ∧
      d.definitions.IsSimpleCycle cycle ∧
      d.definitions.cyclic.head? = some first ∧
      Enters d.definitions.dependencies d.definitions.cyclic first lead f.name rest ∧
      ((ss.Pairwise fun s t => s.line < t.line) →
        (IsLeast (linesOn d.definitions cycle) f.line ↔ firstOn? d.definitions cycle = some f) ∧
        (lead = [] → IsLeast (linesOn d.definitions cycle) f.line)) := by
  obtain ⟨hcompatible, rfl⟩ := foldlM_add_eq_ok.mp hd
  obtain ⟨failure, horder⟩ := Definitions.exists_order_error hcycle
  obtain ⟨first, lead, entry, rest, hfirst, -, henters, -, rfl⟩ :=
    Definitions.search_of_order horder
  have hsimple := Definitions.isSimpleCycle_of_enters henters
  obtain ⟨f, hf, hget⟩ := Definitions.get?_of_mem_names (hsimple.defined entry List.mem_cons_self)
  obtain rfl := Definitions.name_of_get? hget
  have hon : f.name ∈ f.name :: (rest ++ [f.name]) := List.mem_cons_self
  refine ⟨first, lead, f, rest, _, hf, rfl, ofStatements_of_order hd horder hget, hsimple, hfirst,
    henters, fun hsorted => ?_⟩
  have hlines := definitions_pairwise hsorted
  refine ⟨isLeast_line_iff hlines hf hon, ?_⟩
  rintro rfl
  have hstart := henters.starts
  rw [List.nil_append, List.head?_cons] at hstart
  rw [← hstart] at hfirst
  exact isLeast_of_firstOn hlines
    (firstOn_of_head?_cyclic hcompatible.names hf hsimple hon hfirst)

/-- Statements whose first definition leads to the second one of a cycle. -/
def detour : List Statement :=
  [⟨1, .define "FNA" ["x"] "FNC(x)"⟩, ⟨2, .define "FNB" ["x"] "FNC(x)"⟩,
    ⟨3, .define "FNC" ["x"] "FNB(x)"⟩, ⟨4, .surface "x"⟩]

theorem definitions_detour :
    ∃ d, detour.foldlM Draft.add {} = .ok d ∧ d.definitions = Definitions.detour := by
  have hok : ((detour.foldlM Draft.add {}).toOption.map (·.definitions)) =
      some Definitions.detour := by
    decide +kernel
  obtain ⟨d, hd, hdefinitions⟩ := Option.map_eq_some_iff.mp hok
  exact ⟨d, eq_ok_of_toOption hd, hdefinitions⟩

theorem ofStatements_circular_detour :
    ∃ d, detour.foldlM Draft.add {} = .ok d ∧
      ∃ f ∈ d.definitions, ∃ rest, ofStatements 4 detour =
        .error (.statement f.line (.circular (f.name :: (rest ++ [f.name]))) none) := by
  obtain ⟨d, hd, hdefinitions⟩ := definitions_detour
  obtain ⟨_, _, f, rest, _, hf, rfl, herror, -⟩ :=
    @ofStatements_circular detour 4 d hd (hdefinitions ▸ Definitions.cycle_detour)
  exact ⟨d, hd, f, hf, rest, herror⟩

/-- The search from `FNA` enters the cycle at `FNC`, but `FNB` stands above
it. -/
theorem not_isLeast_ofStatements_detour :
    (∃ d, detour.foldlM Draft.add {} = .ok d ∧ d.definitions = Definitions.detour) ∧
    ofStatements 4 detour = .error (.statement 3 (.circular ["FNC", "FNB", "FNC"]) none) ∧
    ¬ IsLeast (linesOn Definitions.detour ["FNC", "FNB", "FNC"]) 3 := by
  refine ⟨definitions_detour, ?_, fun hleast => ?_⟩
  · obtain ⟨d, hd, hdefinitions⟩ := definitions_detour
    have hget : Definitions.detour.get? "FNC" = some ⟨"FNC", ["x"], "FNB(x)", 3⟩ := by
      decide +kernel
    exact ofStatements_of_order hd (hdefinitions ▸ Definitions.order_detour) (hdefinitions ▸ hget)
  · have hearlier : 2 ∈ linesOn Definitions.detour ["FNC", "FNB", "FNC"] :=
      ⟨⟨"FNB", ["x"], "FNC(x)", 2⟩, by simp [Definitions.detour], by simp, rfl⟩
    exact absurd (hleast.2 hearlier) (by decide)

end Program
end FieldScript
