import FieldScript.Proofs.Reachability
import FieldScript.Proofs.Walks

/-!
# Shortest paths

In exact arithmetic the search finds shortest paths. Its invariant
(`Sound`) is that of any search (`Searching`), and about the last arcs of
the walks that are known: the last arc to a vertex comes from a settled
one, and to a settled vertex from one that was settled before it. Lengths
of zero do no harm: the chain of last arcs goes down the list of settled
vertices, not down the distances.
-/

namespace FieldScript

namespace Exact

def IsNumber (d : Exact) : Prop := ∃ x, d = number x

/-- Numbers stand in the order of their values. -/
def value : Exact → ℝ
  | number x => x
  | undefined => 0

end Exact

namespace Graph

theorem Metric.measured {g : Graph Exact} (hg : g.Metric) : g.Measured Exact.IsNumber Exact.value where
  zero := ⟨0, Exact.zero_eq⟩
  arc := by
    intro u v w harc
    obtain ⟨hv, y, hy, rfl⟩ := hg u (v, w) harc
    refine ⟨hv, ?_⟩
    rintro _ ⟨x, rfl⟩
    exact ⟨⟨x + y, rfl⟩, le_add_of_nonneg_right hy⟩
  less_iff := by
    rintro _ _ ⟨x, rfl⟩ ⟨y, rfl⟩
    exact decide_eq_true_iff
  eq_of_equal := by
    rintro _ _ ⟨x, rfl⟩ ⟨y, rfl⟩ heq
    exact of_decide_eq_true heq
  isFinite := by
    rintro _ ⟨x, rfl⟩
    rfl

namespace Search

variable {g : Graph Exact} {source target u v : Nat} {done : List Nat} {m x y w : ℝ}
  {rest : List (Nat × Exact)} {s s' : Search Exact}

/-! ## What is known of a vertex -/

/-- A walk of this length to the vertex is known. -/
def Reached (s : Search Exact) (v : Nat) (x : ℝ) : Prop := s.distance? v = some (.number x)

/-- The last arc of the known walk to `v` comes from `u`. -/
def Over (g : Graph Exact) (s : Search Exact) (u v : Nat) : Prop :=
  s.previous? v = some u ∧ ∃ x w, s.Reached u x ∧ g.Arc u v w ∧ s.Reached v (x + w)

/-- Each vertex of the list is reached over one that stands behind it. -/
def Linked (g : Graph Exact) (source : Nat) (s : Search Exact) : List Nat → Prop
  | [] => True
  | v :: vs => (v ≠ source → ∃ u ∈ vs, s.Over g u v) ∧ Linked g source s vs

theorem Reached.unique (h : s.Reached v x) (h' : s.Reached v y) : x = y := by
  have heq := h.symm.trans h'
  cases heq
  rfl

/-- The states know the same of a vertex. -/
def SameAt (s s' : Search Exact) (v : Nat) : Prop :=
  s'.distance? v = s.distance? v ∧ s'.previous? v = s.previous? v

theorem Reached.congr (h : s.Reached v x) (hsame : SameAt s s' v) : s'.Reached v x :=
  hsame.1.trans h

theorem Over.congr (h : s.Over g u v) (hu : SameAt s s' u) (hv : SameAt s s' v) :
    s'.Over g u v := by
  obtain ⟨hprevious, x, w, hx, harc, hw⟩ := h
  exact ⟨hv.2.trans hprevious, x, w, hx.congr hu, harc, hw.congr hv⟩

theorem Linked.congr {vs : List Nat} (h : Linked g source s vs)
    (hsame : ∀ v ∈ vs, SameAt s s' v) : Linked g source s' vs := by
  induction vs with
  | nil => trivial
  | cons v vs ih =>
      obtain ⟨hv, hvs⟩ := List.forall_mem_cons.mp hsame
      refine ⟨fun hne => ?_, ih h.2 hvs⟩
      obtain ⟨u, hu, hover⟩ := h.1 hne
      exact ⟨u, hu, hover.congr (hvs u hu) hv⟩

theorem Linked.suffix {us vs : List Nat} (h : Linked g source s (us ++ vs)) :
    Linked g source s vs := by
  induction us with
  | nil => exact h
  | cons u us ih => exact ih h.2

/-! ## The invariant -/

/-- A search in exact arithmetic, whose last arcs lead back to the source. -/
structure Sound (g : Graph Exact) (source : Nat) (done : List Nat) (m : ℝ)
    (rest : List (Nat × Exact)) (s : Search Exact) : Prop
    extends Searching g Exact.IsNumber Exact.value source done m rest s where
  previousSize : s.previous.size = g.size
  nonneg : 0 ≤ m
  fromSource : s.Reached source 0
  previous : ∀ v x, s.Reached v x → v ≠ source → ∃ u ∈ done, s.Over g u v
  linked : Linked g source s done

theorem sound_start (hg : g.Metric) (hsource : source < g.size) :
    Sound g source [] 0 [] (start g.size source) := by
  have hzero : Exact.value 0 = 0 := by rw [Exact.zero_eq, Exact.value]
  have hsearching := searching_start hg.measured hsource
  rw [hzero] at hsearching
  refine { hsearching with
    previousSize := by simp [start]
    nonneg := le_refl 0
    fromSource := ?_
    previous := ?_
    linked := trivial }
  · rw [Reached, distance?_start hsource, if_pos rfl, Exact.zero_eq]
  · intro v x hx hne
    rw [Reached, distance?_start hsource, if_neg hne] at hx
    cases hx

namespace Sound

theorem exists_reached {d : Exact} (h : Sound g source done m rest s) (hd : s.distance? v = some d) :
    ∃ x, d = .number x ∧ s.Reached v x := by
  obtain ⟨⟨x, rfl⟩, -⟩ := h.known v d hd
  exact ⟨x, rfl, hd⟩

/-- No vertex is farther than over an arc from a settled one. -/
theorem arc_le (h : Sound g source done m [] s) (hu : u ∈ done) (harc : g.Arc u v w) :
    ∃ x y, s.Reached u x ∧ s.Reached v y ∧ y ≤ x + w := by
  rcases h.closed u hu v _ harc with ⟨-, hcome⟩ | ⟨a, b, ha, hb, hle⟩
  · cases hcome
  · obtain ⟨x, rfl, hx⟩ := h.exists_reached ha
    obtain ⟨y, rfl, hy⟩ := h.exists_reached hb
    exact ⟨x, y, hx, hy, hle⟩

/-- An entry that was overtaken can be left out. -/
theorem drop (hg : g.Metric) {d : Exact} {q : List (Exact × Nat)} (h : Sound g source done m [] s)
    (hq : s.queue = (d, u) :: q) (hstale : s.isStale d u = true) :
    Sound g source done m [] { s with queue := q } :=
  { h.toSearching.drop hg.measured hq hstale with
    previousSize := h.previousSize
    nonneg := h.nonneg
    fromSource := h.fromSource
    previous := h.previous
    linked := h.linked.congr fun _ _ => ⟨rfl, rfl⟩ }

/-- The first entry of the queue, unless it was overtaken, is the distance
of a vertex that is settled next. -/
theorem settle (hg : g.Metric) {d : Exact} {q : List (Exact × Nat)} (h : Sound g source done m [] s)
    (hq : s.queue = (d, u) :: q) (hfresh : s.isStale d u = false) :
    ∃ x, d = .number x ∧ s.Reached u x ∧
      Sound g source (u :: done) x (g.around u) { s with queue := q } := by
  obtain ⟨x, rfl, hx⟩ := h.exists_reached (h.toSearching.fresh hg.measured hq hfresh).1
  refine ⟨x, rfl, hx, { h.toSearching.settle hg.measured hq hfresh with
    previousSize := h.previousSize
    nonneg := h.nonneg.trans (h.entry (.number x, u) (hq ▸ List.mem_cons_self)).2.1
    fromSource := h.fromSource
    previous := fun v y hy hne => ?_
    linked := ⟨h.previous u x hx, h.linked.congr fun _ _ => ⟨rfl, rfl⟩⟩ }⟩
  obtain ⟨u', hu', hover⟩ := h.previous v y hy hne
  exact ⟨u', List.mem_cons_of_mem _ hu', hover⟩

/-- One arc from the last settled vertex is taken note of. -/
theorem relax (hg : g.Metric) (h : Sound g source (u :: done) m ((v, .number w) :: rest) s)
    (hu : s.Reached u m) (harc : g.Arc u v w) :
    Sound g source (u :: done) m rest (s.relax u (.number (m + w)) v) ∧
      (s.relax u (.number (m + w)) v).Reached u m ∧
      (s.relax u (.number (m + w)) v).queue.length ≤ s.queue.length + 1 := by
  have hv := hg.lt_size harc
  have hw := hg.nonneg harc
  have hd : s.distance? u = some (.number m) := hu
  obtain ⟨hsearching, hu', hqueue⟩ := h.toSearching.relax hg.measured hd harc
  refine ⟨?_, hu', hqueue⟩
  rw [Exact.number_add] at hsearching
  rcases relax_cases hg.measured u ⟨m + w, rfl⟩ fun b hb => (h.known v b hb).1 with
    ⟨-, heq⟩ | ⟨hshorter, heq⟩ <;> rw [heq] at hsearching ⊢
  · exact { hsearching with
      previousSize := h.previousSize
      nonneg := h.nonneg
      fromSource := h.fromSource
      previous := h.previous
      linked := h.linked }
  · have hdistance := distance?_noted (u := u) (x := .number (m + w)) (h.distanceSize ▸ hv)
    have hprevious := previous?_noted (u := u) (x := .number (m + w)) (h.previousSize ▸ hv)
    have hsame : ∀ {n}, n ≠ v → SameAt s (s.noted u (.number (m + w)) v) n := fun hn =>
      ⟨(hdistance _).trans (if_neg hn), (hprevious _).trans (if_neg hn)⟩
    have hnew : v ∉ u :: done := h.notMem_of_shorter (le_add_of_nonneg_right hw) hshorter
    have hdone : ∀ n ∈ u :: done, SameAt s (s.noted u (.number (m + w)) v) n := by
      intro n hn
      refine hsame ?_
      rintro rfl
      exact hnew hn
    have hsource : source ≠ v := by
      rintro rfl
      have hlt : m + w < 0 := hshorter _ h.fromSource
      linarith [h.nonneg]
    refine { hsearching with
      previousSize := by simp [noted, h.previousSize]
      nonneg := h.nonneg
      fromSource := h.fromSource.congr (hsame hsource)
      previous := fun n y hy hne => ?_
      linked := h.linked.congr hdone }
    by_cases hn : n = v
    · subst hn
      exact ⟨u, List.mem_cons_self, (hprevious n).trans (if_pos rfl), m, w,
        hu.congr (hdone u List.mem_cons_self), harc, (hdistance n).trans (if_pos rfl)⟩
    · obtain ⟨u', hu', hover⟩ := h.previous n y ((hsame hn).1.symm.trans hy) hne
      exact ⟨u', hu', hover.congr (hdone u' hu') (hsame hn)⟩

/-- All arcs from the last settled vertex are taken note of. -/
theorem relaxArcs (hg : g.Metric) {arcs : List (Nat × Exact)}
    (h : Sound g source (u :: done) m arcs s) (hu : s.Reached u m)
    (harcs : ∀ a ∈ arcs, a ∈ g.around u) :
    Sound g source (u :: done) m []
        (arcs.foldl (fun s (v, length) => s.relax u (.number m + length) v) s) ∧
      (arcs.foldl (fun s (v, length) => s.relax u (.number m + length) v) s).queue.length
        ≤ s.queue.length + arcs.length := by
  induction arcs generalizing s with
  | nil => exact ⟨h, le_refl _⟩
  | cons a arcs ih =>
      obtain ⟨v, length⟩ := a
      obtain ⟨hmem, hmems⟩ := List.forall_mem_cons.mp harcs
      obtain ⟨-, w, -, hlength⟩ := hg u _ hmem
      dsimp only at hlength
      subst hlength
      obtain ⟨hsound, hu', hqueue⟩ := h.relax hg hu hmem
      obtain ⟨hsound', hqueue'⟩ := ih hsound hu' hmems
      rw [List.foldl_cons]
      refine ⟨hsound', hqueue'.trans ?_⟩
      rw [List.length_cons]
      omega

/-! ## The end of the search -/

/-- A walk leads to a settled vertex, or is at least as long as the first
entry of the queue. -/
theorem walk_cases (h : Sound g source done m [] s) {z : ℝ}
    (hqueue : ∀ e ∈ s.queue, ∃ x, e.1 = .number x ∧ z ≤ x) (hg : g.Metric)
    (hwalk : g.Walk source v y) : (v ∈ done ∧ ∃ x, s.Reached v x ∧ x ≤ y) ∨ z ≤ y := by
  -- A vertex that is reached but not settled has an entry.
  have hreached : ∀ {n : Nat} {x y : ℝ}, s.Reached n x → x ≤ y →
      (n ∈ done ∧ ∃ x, s.Reached n x ∧ x ≤ y) ∨ z ≤ y := by
    intro n x y hx hxy
    obtain ⟨-, hdone | hmem⟩ := h.known n _ hx
    · exact Or.inl ⟨hdone, x, hx, hxy⟩
    · obtain ⟨x'', heq, hz⟩ := hqueue _ hmem
      cases heq
      exact Or.inr (hz.trans hxy)
  induction hwalk with
  | start => exact hreached h.fromSource (le_refl 0)
  | @step u v y w _ harc ih =>
      have hw := hg.nonneg harc
      rcases ih with ⟨hu, x, hx, hxy⟩ | hz
      · obtain ⟨x', t, hx', ht, htx⟩ := h.arc_le hu harc
        obtain rfl := hx.unique hx'
        exact hreached ht (by linarith)
      · exact Or.inr (by linarith)

/-- The arc over which a vertex is reached is the shortest one. -/
theorem isLeast_of_over (h : Sound g source done m [] s) (hu : u ∈ done) (hover : s.Over g u v) :
    ∃ x w, s.Reached u x ∧ s.Reached v (x + w) ∧ IsLeast {y | g.Arc u v y} w := by
  obtain ⟨-, x, w, hx, harc, hv⟩ := hover
  refine ⟨x, w, hx, hv, harc, fun w' harc' => ?_⟩
  obtain ⟨x', y, hx', hy, hle⟩ := h.arc_le hu harc'
  obtain rfl := hx.unique hx'
  obtain rfl := hy.unique hv
  linarith

/-- The way to the source itself. -/
theorem way_source (h : Sound g source done m rest s) (n : Nat) (hx : s.Reached source x) :
    s.pathTo source n source = [source] ∧ Way g [source] x := by
  obtain rfl := hx.unique h.fromSource
  refine ⟨?_, .single source⟩
  cases n <;> simp [pathTo]

/-- The chain of last arcs is a way from the source that repeats no
vertex. -/
theorem way_pathTo (h : Sound g source done m [] s) {n : Nat} {vs : List Nat}
    (hlinked : Linked g source s (v :: vs)) (hvs : ∀ u ∈ vs, u ∈ done) (hnodup : (v :: vs).Nodup)
    (hn : vs.length ≤ n) (hx : s.Reached v x) :
    (s.pathTo source n v).getLast? = some source ∧ (s.pathTo source n v).head? = some v ∧
      (∀ u ∈ s.pathTo source n v, u ∈ v :: vs) ∧ (s.pathTo source n v).Nodup ∧
      Way g (s.pathTo source n v).reverse x := by
  induction n generalizing v x vs with
  | zero =>
      obtain rfl := List.length_eq_zero_iff.mp (Nat.le_zero.mp hn)
      have hsource : v = source := by
        by_contra hne
        obtain ⟨u, hu, -⟩ := hlinked.1 hne
        cases hu
      subst hsource
      obtain ⟨hpath, hway⟩ := h.way_source 0 hx
      rw [hpath]
      exact ⟨rfl, rfl, by simp, by simp, hway⟩
  | succ n ih =>
      by_cases hsource : v = source
      · subst hsource
        obtain ⟨hpath, hway⟩ := h.way_source (n + 1) hx
        rw [hpath]
        exact ⟨rfl, rfl, by simp, by simp, hway⟩
      · obtain ⟨u, hu, hover⟩ := hlinked.1 hsource
        obtain ⟨before, after, rfl⟩ := List.append_of_mem hu
        obtain ⟨hnew, hnodup'⟩ := List.nodup_cons.mp hnodup
        obtain ⟨y, w, hy, hv, hleast⟩ := h.isLeast_of_over (hvs u hu) hover
        obtain rfl := hv.unique hx
        have hpath : s.pathTo source (n + 1) v = v :: s.pathTo source n u := by
          rw [pathTo, if_neg (by simpa using hsource), hover.1]
        have hafter : after.length ≤ n := by
          simp only [List.length_append, List.length_cons] at hn
          omega
        obtain ⟨hlast, hhead, hmem, hrest, hway⟩ := ih hlinked.2.suffix
          (fun u' hu' => hvs u' (by simp [hu'])) (List.nodup_append.mp hnodup').2.1 hafter hy
        have hsub : ∀ u' ∈ s.pathTo source n u, u' ∈ before ++ u :: after := fun u' hu' =>
          List.mem_append_right _ (hmem u' hu')
        rw [hpath]
        refine ⟨?_, rfl, ?_, List.nodup_cons.mpr ⟨fun hv' => hnew (hsub v hv'), hrest⟩, ?_⟩
        · rw [List.getLast?_cons, hlast]
          rfl
        · exact List.forall_mem_cons.mpr ⟨List.mem_cons_self, fun u' hu' =>
            List.mem_cons_of_mem _ (hsub u' hu')⟩
        · rw [List.reverse_cons]
          refine hway.append ?_ hleast
          rw [List.getLast?_reverse, hhead]

end Sound

/-! ## The answer -/

/-- The state tells the shortest path to the target, if there is any
walk. -/
structure Answers (g : Graph Exact) (source target : Nat) (s : Search Exact) : Prop where
  reached : ∀ y, g.Walk source target y → ∃ x, s.Reached target x
  shortest : ∀ d, s.distance? target = some d → ∃ x, d = .number x ∧
    g.IsShortestPath source target (s.pathTo source g.size target).reverse x

theorem pathTo_congr (hsame : ∀ v, s'.previous? v = s.previous? v) (n : Nat) :
    s'.pathTo source n v = s.pathTo source n v := by
  induction n generalizing v with
  | zero => rfl
  | succ n ih =>
      rw [pathTo, pathTo, hsame]
      simp only [ih]

theorem Answers.congr (h : Answers g source target s) (hsame : ∀ v, SameAt s s' v) :
    Answers g source target s' := by
  constructor
  · intro y hy
    obtain ⟨x, hx⟩ := h.reached y hy
    exact ⟨x, hx.congr (hsame target)⟩
  · intro d hd
    rw [pathTo_congr fun v => (hsame v).2]
    exact h.shortest d ((hsame target).1 ▸ hd)

/-- The search may stop as soon as no entry of the queue is shorter than
what is known of the target. -/
theorem Sound.answers (h : Sound g source done m [] s) (hg : g.Metric)
    (hend : ∀ e ∈ s.queue, ∃ x y, e.1 = .number y ∧ s.Reached target x ∧ x ≤ y) :
    Answers g source target s := by
  have hleast : ∀ y, g.Walk source target y → ∃ x, s.Reached target x ∧ x ≤ y := by
    intro y hy
    cases hq : s.queue with
    | nil =>
        have hall : ∀ e ∈ s.queue, ∃ x, e.1 = .number x ∧ y + 1 ≤ x := by simp [hq]
        rcases h.walk_cases hall hg hy with ⟨-, hx⟩ | hlt
        · exact hx
        · linarith
    | cons e q =>
        obtain ⟨x, -, -, hx, -⟩ := hend e (by simp [hq])
        have hall : ∀ e ∈ s.queue, ∃ y, e.1 = .number y ∧ x ≤ y := by
          intro f hf
          obtain ⟨x', y', hy', hx', hle⟩ := hend f hf
          obtain rfl := hx.unique hx'
          exact ⟨y', hy', hle⟩
        rcases h.walk_cases hall hg hy with ⟨-, hx'⟩ | hle
        · exact hx'
        · exact ⟨x, hx, hle⟩
  refine ⟨fun y hy => (hleast y hy).imp fun _ hx => hx.1, fun d hd => ?_⟩
  obtain ⟨x, rfl, -⟩ := h.exists_reached hd
  refine ⟨x, rfl, ?_⟩
  -- The vertices that were settled before the target.
  obtain ⟨vs, hlinked, hvs, hnodup⟩ : ∃ vs, Linked g source s (target :: vs) ∧
      (∀ u ∈ vs, u ∈ done) ∧ (target :: vs).Nodup := by
    by_cases hdone : target ∈ done
    · obtain ⟨before, after, rfl⟩ := List.append_of_mem hdone
      exact ⟨after, h.linked.suffix, fun u hu => by simp [hu], (List.nodup_append.mp h.nodup).2.1⟩
    · exact ⟨done, ⟨h.previous target x hd, h.linked⟩, fun _ hu => hu,
        List.nodup_cons.mpr ⟨hdone, h.nodup⟩⟩
  have hlength : vs.length ≤ g.size := by
    have hsubset : vs ⊆ List.range g.size := fun u hu =>
      List.mem_range.mpr (h.settled_lt u (hvs u hu))
    simpa using (List.subperm_of_subset (List.nodup_cons.mp hnodup).2 hsubset).length_le
  obtain ⟨hlast, hhead, -, hnd, hway⟩ := h.way_pathTo hlinked hvs hnodup hlength hd
  refine ⟨by rw [List.head?_reverse, hlast], by rw [List.getLast?_reverse, hhead],
    List.nodup_reverse.mpr hnd, hway, fun y hy => ?_⟩
  obtain ⟨x', hx', hle⟩ := hleast y hy
  obtain rfl := Reached.unique hd hx'
  exact hle

/-- With as many rounds as there can be entries, the search finds its
answer: for its goal, or for every target if it has none. -/
theorem Sound.run (hg : g.Metric) {goal : Option Nat} (hgoal : ∀ u, goal = some u → target = u)
    {n : Nat} (h : Sound g source done m [] s)
    (hrounds : s.queue.length + g.arcCount ≤ n + g.arcsFrom done) :
    Answers g source target (Search.run g goal n s) := by
  induction n generalizing done m s with
  | zero =>
      have hall := arcsFrom_le h.nodup h.settled_lt
      have hempty : s.queue = [] := List.length_eq_zero_iff.mp (by omega)
      exact h.answers hg (by simp [hempty])
  | succ n ih =>
      rw [Search.run]
      split
      · rename_i hq
        exact h.answers hg (by simp [hq])
      · rename_i d u q hq
        rw [hq, List.length_cons] at hrounds
        dsimp only
        split
        · -- the target comes out of the queue
          rename_i htarget
          obtain rfl : target = u := hgoal u (eq_of_beq htarget)
          obtain ⟨-, -, b, hb, hbd, -⟩ := h.entry (d, target) (by simp [hq])
          obtain ⟨x, rfl, hx⟩ := h.exists_reached hb
          refine (h.answers hg fun e he => ?_).congr fun _ => ⟨rfl, rfl⟩
          obtain ⟨⟨y, hy⟩, -⟩ := h.entry e he
          refine ⟨x, y, hy, hx, ?_⟩
          have hle : Exact.value d ≤ Exact.value e.1 := by
            rw [hq, List.mem_cons] at he
            rcases he with rfl | he
            · exact le_refl _
            · have hsorted := h.sorted
              rw [hq] at hsorted
              exact ((List.pairwise_cons.mp hsorted).1 e he).1
          rw [hy] at hle
          exact hbd.trans hle
        · split
          · rename_i hstale
            exact ih (h.drop hg hq hstale) (by dsimp only; omega)
          · rename_i hfresh
            obtain ⟨x, rfl, hx, hsettled⟩ := h.settle hg hq (Bool.eq_false_iff.mpr hfresh)
            obtain ⟨hsound, hqueue⟩ := hsettled.relaxArcs hg hx fun _ ha => ha
            refine ih hsound ?_
            rw [arcsFrom_cons]
            dsimp only at hqueue
            exact (Nat.add_le_add_right hqueue _).trans (by omega)

end Search

/-- There is no answer if and only if there is no walk; else the answer is
a shortest path, with its length. -/
theorem shortestPath?_isShortestPath {g : Graph Exact} (hg : g.Metric) {source target : Nat}
    (hsource : source < g.size) :
    (g.shortestPath? source target = none ↔ ∀ x, ¬ g.Walk source target x) ∧
      ∀ p d, g.shortestPath? source target = some (p, d) →
        ∃ x, d = .number x ∧ g.IsShortestPath source target p x := by
  have hanswers : Search.Answers g source target (g.search source (some target)) := by
    refine (Search.sound_start hg hsource).run hg (fun u hu => Option.some.inj hu) ?_
    simp [Search.start, arcsFrom, Nat.add_comm]
  constructor
  · rw [shortestPath?, Option.map_eq_none_iff]
    constructor
    · intro hnone x hwalk
      obtain ⟨y, hy⟩ := hanswers.reached x hwalk
      rw [Search.Reached, hnone] at hy
      cases hy
    · intro hno
      by_contra hsome
      obtain ⟨d, hd⟩ := Option.ne_none_iff_exists'.mp hsome
      obtain ⟨x, -, hpath⟩ := hanswers.shortest d hd
      exact hno x (hpath.way.walk hpath.head hpath.last)
  · intro p d h
    obtain ⟨d', hd', heq⟩ := Option.map_eq_some_iff.mp h
    obtain ⟨rfl, rfl⟩ := Prod.mk.inj heq
    exact hanswers.shortest d' hd'

/-- Four vertices with arcs of length zero, a loop, two arcs side by side
and a vertex that no arc leads to. -/
def corridor : Graph Exact where
  neighbours := #[[(0, .number 0), (1, .number 1), (1, .number 0)], [(0, .number 0), (2, .number 1)],
    [(1, .number 1)], [(0, .number 1)]]

theorem corridor_isShortestPath :
    corridor.Metric ∧ 0 < corridor.size ∧
      ∀ target, (corridor.shortestPath? 0 target = none ↔ ∀ x, ¬ corridor.Walk 0 target x) ∧
        ∀ p d, corridor.shortestPath? 0 target = some (p, d) →
          ∃ x, d = .number x ∧ corridor.IsShortestPath 0 target p x := by
  have hmetric : corridor.Metric := by
    intro u a ha
    have hu : u < 4 := by
      by_contra hge
      rw [around, Array.getElem?_eq_none (by simpa [corridor] using hge)] at ha
      cases ha
    have hall : a.1 < 4 ∧ ∃ x : ℝ, 0 ≤ x ∧ a.2 = .number x := by
      interval_cases u <;> simp [around, corridor] at ha
      · rcases ha with rfl | rfl | rfl
        · exact ⟨by decide, 0, by norm_num, rfl⟩
        · exact ⟨by decide, 1, by norm_num, rfl⟩
        · exact ⟨by decide, 0, by norm_num, rfl⟩
      · rcases ha with rfl | rfl
        · exact ⟨by decide, 0, by norm_num, rfl⟩
        · exact ⟨by decide, 1, by norm_num, rfl⟩
      · subst ha
        exact ⟨by decide, 1, by norm_num, rfl⟩
      · subst ha
        exact ⟨by decide, 1, by norm_num, rfl⟩
    exact hall
  have hsize : 0 < corridor.size := by decide
  exact ⟨hmetric, hsize, fun _ => shortestPath?_isShortestPath hmetric hsize⟩

end Graph
end FieldScript
