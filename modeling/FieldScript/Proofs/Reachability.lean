import Mathlib
import FieldScript.Graph

/-!
# What a search reaches

The search finds every vertex to which arcs lead, in any arithmetic in
which one more arc leads to a length again and never to a shorter one
(`Measured`). Lengths need not add up exactly: `measure` tells where a
length stands among the others, and rounding may only keep the order.

The invariant (`Searching`) is about the settled vertices, the latest
first:

- what is known of a vertex that is not settled stands in the queue, and
  no entry of the queue is below the last distance that was settled;
- every arc from a settled vertex has been looked at, except those from
  the last one that are still to come: its end is not farther than over
  the arc.

An entry of the queue that was overtaken is longer than what is known of
its vertex, so that no vertex is settled twice. This bounds the rounds:
the entries in the queue and the arcs from vertices that are not settled
are never more than the rounds that are left.
-/

namespace FieldScript.Graph

variable {α : Type} {g : Graph α}

/-! ## Counting arcs -/

/-- How many arcs start at these vertices. -/
def arcsFrom (g : Graph α) (us : List Nat) : Nat :=
  (us.map fun u => (g.around u).length).sum

@[simp] theorem arcsFrom_cons (u : Nat) (us : List Nat) :
    g.arcsFrom (u :: us) = (g.around u).length + g.arcsFrom us := by
  simp [arcsFrom]

theorem arcCount_eq (g : Graph α) : g.arcCount = g.arcsFrom (List.range g.size) := by
  have hfold : ∀ (ls : List (List (Nat × α))) (k : Nat),
      ls.foldl (fun n ns => n + ns.length) k = k + (ls.map List.length).sum := by
    intro ls
    induction ls with
    | nil => simp
    | cons l ls ih =>
        intro k
        rw [List.foldl_cons, ih, List.map_cons, List.sum_cons, Nat.add_assoc]
  have harounds : (List.range g.size).map g.around = g.neighbours.toList := by
    refine List.ext_getElem (by simp [size]) fun i h _ => ?_
    have hi : i < g.neighbours.size := by simpa [size] using h
    simp [around, hi]
  rw [arcCount, ← Array.foldl_toList, hfold, Nat.zero_add, arcsFrom, ← harounds, List.map_map]
  rfl

/-- Different vertices have no more arcs than there are. -/
theorem arcsFrom_le {us : List Nat} (hnodup : us.Nodup) (hlt : ∀ u ∈ us, u < g.size) :
    g.arcsFrom us ≤ g.arcCount := by
  have hsubset : us ⊆ List.range g.size := fun u hu => List.mem_range.mpr (hlt u hu)
  obtain ⟨vs, hperm, hsub⟩ := List.subperm_of_subset hnodup hsubset
  rw [arcCount_eq, arcsFrom, arcsFrom, ← (hperm.map _).sum_eq]
  exact (hsub.map _).sum_le_sum fun _ _ => Nat.zero_le _

/-! ## Arcs and edges -/

/-- An arc leads from `u` to `v`. -/
def Joined (g : Graph α) (u v : Nat) : Prop := ∃ w, (v, w) ∈ g.around u

@[simp] theorem size_isolated (n : Nat) : (isolated (α := α) n).size = n := by
  simp [isolated, size]

@[simp] theorem around_isolated (n u : Nat) : (isolated (α := α) n).around u = [] := by
  rw [around, isolated, Array.getElem?_replicate]
  split <;> rfl

@[simp] theorem size_addArc (u v : Nat) (w : α) : (g.addArc u v w).size = g.size := by
  simp [addArc, size]

theorem mem_around_addArc {u v u' : Nat} {w : α} {a : Nat × α} :
    a ∈ (g.addArc u v w).around u' ↔ a ∈ g.around u' ∨ u' = u ∧ u < g.size ∧ a = (v, w) := by
  rw [around, around, addArc, Array.getElem?_modify]
  by_cases hu : u = u'
  · subst hu
    rw [if_pos rfl]
    by_cases hlt : u < g.neighbours.size
    · simp [hlt, size]
    · simp [size, hlt]
  · rw [if_neg hu]
    simp [Ne.symm hu]

theorem ofEdges_eq (n : Nat) (edges : List (Nat × Nat × α)) :
    ofEdges n edges = edges.foldl (fun g e => g.addEdge e.1 e.2.1 e.2.2) (isolated n) := rfl

@[simp] theorem size_ofEdges (n : Nat) (edges : List (Nat × Nat × α)) : (ofEdges n edges).size = n := by
  have hfold : ∀ (es : List (Nat × Nat × α)) (g : Graph α),
      (es.foldl (fun g e => g.addEdge e.1 e.2.1 e.2.2) g).size = g.size := by
    intro es
    induction es with
    | nil => exact fun _ => rfl
    | cons e es ih =>
        intro g
        rw [List.foldl_cons, ih]
        simp [addEdge]
  rw [ofEdges_eq, hfold, size_isolated]

/-- Both ends of an edge see it. -/
theorem mem_around_ofEdges {n u v : Nat} {edges : List (Nat × Nat × α)} {w : α} :
    (v, w) ∈ (ofEdges n edges).around u ↔ u < n ∧ ((u, v, w) ∈ edges ∨ (v, u, w) ∈ edges) := by
  have hfold : ∀ (es : List (Nat × Nat × α)) (g : Graph α),
      (v, w) ∈ (es.foldl (fun g e => g.addEdge e.1 e.2.1 e.2.2) g).around u ↔
        (v, w) ∈ g.around u ∨ u < g.size ∧ ((u, v, w) ∈ es ∨ (v, u, w) ∈ es) := by
    intro es
    induction es with
    | nil => simp
    | cons e es ih =>
        intro g
        obtain ⟨a, b, c⟩ := e
        rw [List.foldl_cons, ih, addEdge, mem_around_addArc, mem_around_addArc]
        simp only [size_addArc, List.mem_cons, Prod.mk.injEq]
        grind
  rw [ofEdges_eq, hfold, around_isolated, size_isolated]
  simp

namespace Search

/-! ## The state -/

theorem join_setIfInBounds {β : Type} {a : Array (Option β)} {v : Nat} (hv : v < a.size) (b : β)
    (n : Nat) :
    ((a.setIfInBounds v (some b))[n]?).join = if n = v then some b else (a[n]?).join := by
  rw [Array.getElem?_setIfInBounds]
  by_cases hn : n = v
  · simp [hn, hv]
  · simp [hn, Ne.symm hn]

theorem lt_size_of_distance {s : Search α} {v : Nat} {d : α} (h : s.distance? v = some d) :
    v < s.distance.size := by
  by_contra hv
  rw [distance?, Array.getElem?_eq_none (by omega)] at h
  cases h

variable [Scalar α]

/-- The state in which the way to `v` over `u` is known. -/
def noted (s : Search α) (u : Nat) (x : α) (v : Nat) : Search α where
  distance := s.distance.setIfInBounds v (some x)
  previous := s.previous.setIfInBounds v (some u)
  queue := enqueue (x, v) s.queue

section

variable {s : Search α} {u v : Nat} {x : α}

theorem distance?_noted (hv : v < s.distance.size) (n : Nat) :
    (s.noted u x v).distance? n = if n = v then some x else s.distance? n :=
  join_setIfInBounds hv x n

theorem previous?_noted (hv : v < s.previous.size) (n : Nat) :
    (s.noted u x v).previous? n = if n = v then some u else s.previous? n :=
  join_setIfInBounds hv u n

end

theorem enqueue_perm (e : α × Nat) (q : List (α × Nat)) : (enqueue e q).Perm (e :: q) := by
  induction q with
  | nil => exact List.Perm.refl _
  | cons f q ih =>
      rw [enqueue]
      split
      · exact List.Perm.refl _
      · exact (ih.cons f).trans (List.Perm.swap e f q)

theorem mem_enqueue {e f : α × Nat} {q : List (α × Nat)} :
    f ∈ enqueue e q ↔ f = e ∨ f ∈ q := by
  rw [(enqueue_perm e q).mem_iff, List.mem_cons]

end Search

/-! ## Lengths in some arithmetic -/

variable [Scalar α] {ι : Type} [LinearOrder ι] {length : α → Prop} {measure : α → ι}

/-- The lengths of the ways in a graph stand in an order, and going on
along an arc leads to a length that is not below the one before. -/
structure Measured (g : Graph α) (length : α → Prop) (measure : α → ι) : Prop where
  zero : length 0
  arc : ∀ u v w, (v, w) ∈ g.around u → v < g.size ∧
    ∀ d, length d → length (d + w) ∧ measure d ≤ measure (d + w)
  less_iff : ∀ a b, length a → length b → (Scalar.less a b = true ↔ measure a < measure b)
  eq_of_equal : ∀ a b, length a → length b → Scalar.equal a b = true → measure a = measure b
  isFinite : ∀ a, length a → Scalar.isFinite a = true

namespace Search

variable {source target u v : Nat} {done : List Nat} {m : ι} {w d : α} {rest : List (Nat × α)}
  {q : List (α × Nat)} {s : Search α}

/-- The first entry is not longer than the second, and shorter if both are
of one vertex. -/
def Precedes (measure : α → ι) (e f : α × Nat) : Prop :=
  measure e.1 ≤ measure f.1 ∧ (e.2 = f.2 → measure e.1 < measure f.1)

/-- An entry that is shorter than those of its vertex goes to its place. -/
theorem enqueue_precedes {e : α × Nat} (hg : Measured g length measure) (he : length e.1)
    (hq : ∀ f ∈ q, length f.1 ∧ (f.2 = e.2 → measure e.1 < measure f.1))
    (hsorted : q.Pairwise (Precedes measure)) : (enqueue e q).Pairwise (Precedes measure) := by
  induction q with
  | nil => exact List.pairwise_singleton _ _
  | cons f q ih =>
      obtain ⟨⟨hf, hshorter⟩, hrest⟩ := List.forall_mem_cons.mp hq
      obtain ⟨hfirst, hsorted⟩ := List.pairwise_cons.mp hsorted
      rw [enqueue]
      split
      · rename_i hbefore
        have hle : measure e.1 ≤ measure f.1 := by
          rcases (Bool.or_eq_true _ _).mp hbefore with hless | hequal
          · exact ((hg.less_iff _ _ he hf).mp hless).le
          · exact (hg.eq_of_equal _ _ he hf ((Bool.and_eq_true _ _).mp hequal).1).le
        refine List.pairwise_cons.mpr ⟨?_, List.pairwise_cons.mpr ⟨hfirst, hsorted⟩⟩
        intro f' hf'
        refine ⟨?_, fun heq => (hq f' hf').2 heq.symm⟩
        rcases List.mem_cons.mp hf' with rfl | hf'
        · exact hle
        · exact hle.trans (hfirst f' hf').1
      · rename_i hbefore
        have hle : measure f.1 ≤ measure e.1 := by
          by_contra hlt
          apply hbefore
          rw [before, (hg.less_iff _ _ he hf).mpr (not_le.mp hlt), Bool.true_or]
        refine List.pairwise_cons.mpr ⟨?_, ih hrest hsorted⟩
        intro f' hf'
        rcases mem_enqueue.mp hf' with rfl | hf'
        · exact ⟨hle, fun heq => absurd (hshorter heq) (not_lt.mpr hle)⟩
        · exact hfirst f' hf'

/-- A way is not shorter than what is known, or takes its place. -/
theorem relax_cases (hg : Measured g length measure) (u : Nat) {x : α} (hx : length x)
    (hknown : ∀ b, s.distance? v = some b → length b) :
    (∃ b, s.distance? v = some b ∧ measure b ≤ measure x) ∧ s.relax u x v = s ∨
      (∀ b, s.distance? v = some b → measure x < measure b) ∧ s.relax u x v = s.noted u x v := by
  cases hdistance : s.distance? v with
  | none =>
      refine Or.inr ⟨fun b hb => (by cases hb), ?_⟩
      rw [relax, hdistance]
      exact if_pos (hg.isFinite x hx)
  | some b =>
      have hb := hknown b hdistance
      by_cases hlt : measure x < measure b
      · refine Or.inr ⟨fun c hc => Option.some.inj hc ▸ hlt, ?_⟩
        rw [relax, hdistance]
        exact if_pos ((hg.less_iff x b hx hb).mpr hlt)
      · refine Or.inl ⟨⟨b, rfl, not_lt.mp hlt⟩, ?_⟩
        rw [relax, hdistance]
        exact if_neg fun hless => hlt ((hg.less_iff x b hx hb).mp hless)

/-! ## The invariant -/

/-- The search has settled the vertices of `done`, none beyond `m`; `rest`
are the arcs from the last one that are still to come. -/
structure Searching (g : Graph α) (length : α → Prop) (measure : α → ι) (source : Nat)
    (done : List Nat) (m : ι) (rest : List (Nat × α)) (s : Search α) : Prop where
  distanceSize : s.distance.size = g.size
  nodup : done.Nodup
  atSource : ∃ d, s.distance? source = some d
  known : ∀ v d, s.distance? v = some d → length d ∧ (v ∈ done ∨ (d, v) ∈ s.queue)
  settled : ∀ u ∈ done, ∃ d, s.distance? u = some d ∧ measure d ≤ m
  entry : ∀ e ∈ s.queue, length e.1 ∧ m ≤ measure e.1 ∧ ∃ d, s.distance? e.2 = some d ∧
    measure d ≤ measure e.1 ∧ (e.2 ∈ done → measure d < measure e.1)
  sorted : s.queue.Pairwise (Precedes measure)
  closed : ∀ u ∈ done, ∀ v w, (v, w) ∈ g.around u → (done.head? = some u ∧ (v, w) ∈ rest) ∨
    ∃ x y, s.distance? u = some x ∧ s.distance? v = some y ∧ measure y ≤ measure (x + w)

theorem distance?_start {n : Nat} (hsource : source < n) (v : Nat) :
    (start (α := α) n source).distance? v = if v = source then some 0 else none := by
  rw [distance?, start, join_setIfInBounds (by simpa using hsource), Array.getElem?_replicate]
  split
  · rfl
  · split <;> rfl

theorem searching_start (hg : Measured g length measure) (hsource : source < g.size) :
    Searching g length measure source [] (measure 0) [] (start g.size source) := by
  have hatSource : (start (α := α) g.size source).distance? source = some 0 :=
    (distance?_start hsource source).trans (if_pos rfl)
  refine ⟨by simp [start], List.nodup_nil, ⟨0, hatSource⟩, ?_, by simp, ?_,
    List.pairwise_singleton _ _, by simp⟩
  · intro v d hd
    rw [distance?_start hsource] at hd
    split at hd
    · obtain rfl := Option.some.inj hd
      subst v
      exact ⟨hg.zero, Or.inr (by simp [start])⟩
    · cases hd
  · intro e he
    obtain rfl : e = (0, source) := by simpa [start] using he
    exact ⟨hg.zero, le_refl _, 0, hatSource, le_refl _, by simp⟩

namespace Searching

theorem settled_lt (h : Searching g length measure source done m rest s) :
    ∀ u ∈ done, u < g.size := by
  intro u hu
  obtain ⟨d, hd, -⟩ := h.settled u hu
  exact h.distanceSize ▸ lt_size_of_distance hd

/-- An entry that was overtaken can be left out. -/
theorem drop (hg : Measured g length measure) (h : Searching g length measure source done m [] s)
    (hq : s.queue = (d, u) :: q) (hstale : s.isStale d u = true) :
    Searching g length measure source done m [] { s with queue := q } := by
  have hsorted := h.sorted
  rw [hq] at hsorted
  refine { h with known := ?_, entry := ?_, sorted := hsorted.of_cons }
  · intro v b hb
    obtain ⟨hlength, hdone | hmem⟩ := h.known v b hb
    · exact ⟨hlength, Or.inl hdone⟩
    · refine ⟨hlength, ?_⟩
      rw [hq, List.mem_cons] at hmem
      refine hmem.imp (fun heq => ?_) id
      -- the entry of what is known was not overtaken
      obtain ⟨rfl, rfl⟩ := Prod.mk.inj heq
      have hb' : s.distance? v = some b := hb
      rw [isStale, hb'] at hstale
      exact absurd ((hg.less_iff _ _ hlength hlength).mp hstale) (lt_irrefl _)
  · intro e he
    exact h.entry e (by rw [hq]; exact List.mem_cons_of_mem _ he)

/-- The first entry, unless it was overtaken, is what is known of its
vertex, and that one is not settled. -/
theorem fresh (hg : Measured g length measure) (h : Searching g length measure source done m [] s)
    (hq : s.queue = (d, u) :: q) (hfresh : s.isStale d u = false) :
    s.distance? u = some d ∧ u ∉ done := by
  obtain ⟨hd, -, b, hb, hbd, hstrict⟩ := h.entry (d, u) (hq ▸ List.mem_cons_self)
  obtain ⟨hlength, hplace⟩ := h.known u b hb
  have hsame : measure b = measure d := by
    rw [isStale, hb] at hfresh
    refine le_antisymm hbd (not_lt.mp fun hlt => ?_)
    exact absurd ((hg.less_iff _ _ hlength hd).mpr hlt) (Bool.eq_false_iff.mp hfresh)
  have hnew : u ∉ done := fun hu => (hstrict hu).ne hsame
  refine ⟨?_, hnew⟩
  -- Two entries of one vertex would be of different lengths.
  have hmem := hplace.resolve_left hnew
  have hsorted := h.sorted
  rw [hq] at hmem hsorted
  rcases List.mem_cons.mp hmem with heq | hmem
  · exact (Prod.mk.inj heq).1 ▸ hb
  · exact absurd hsame.symm (((List.pairwise_cons.mp hsorted).1 _ hmem).2 rfl).ne

/-- The first entry settles its vertex unless it was overtaken. -/
theorem settle (hg : Measured g length measure) (h : Searching g length measure source done m [] s)
    (hq : s.queue = (d, u) :: q) (hfresh : s.isStale d u = false) :
    Searching g length measure source (u :: done) (measure d) (g.around u) { s with queue := q } := by
  obtain ⟨hd, hnew⟩ := h.fresh hg hq hfresh
  have hmd := (h.entry (d, u) (hq ▸ List.mem_cons_self)).2.1
  have hsorted := h.sorted
  rw [hq] at hsorted
  obtain ⟨hfirst, hsorted⟩ := List.pairwise_cons.mp hsorted
  refine
    { distanceSize := h.distanceSize
      nodup := List.nodup_cons.mpr ⟨hnew, h.nodup⟩
      atSource := h.atSource
      known := fun v c hc => ?_
      settled := List.forall_mem_cons.mpr ⟨⟨d, hd, le_refl _⟩, fun v hv => ?_⟩
      entry := fun e he => ?_
      sorted := hsorted
      closed := List.forall_mem_cons.mpr
        ⟨fun v w harc => Or.inl ⟨rfl, harc⟩, fun v hv v' w harc => ?_⟩ }
  · obtain ⟨hlength, hdone | hmem⟩ := h.known v c hc
    · exact ⟨hlength, Or.inl (List.mem_cons_of_mem _ hdone)⟩
    · refine ⟨hlength, ?_⟩
      rw [hq, List.mem_cons] at hmem
      refine hmem.imp (fun heq => ?_) id
      obtain ⟨-, rfl⟩ := Prod.mk.inj heq
      exact List.mem_cons_self
  · obtain ⟨c, hc, hcm⟩ := h.settled v hv
    exact ⟨c, hc, hcm.trans hmd⟩
  · obtain ⟨hlength, -, c, hc, hce, hstrict⟩ := h.entry e (by rw [hq]; exact List.mem_cons_of_mem _ he)
    refine ⟨hlength, (hfirst e he).1, c, hc, hce, fun hmem => ?_⟩
    rcases List.mem_cons.mp hmem with heq | hmem
    · have hfar := (hfirst e he).2 heq.symm
      rw [heq] at hc
      obtain rfl := Option.some.inj (hd.symm.trans hc)
      exact hfar
    · exact hstrict hmem
  · exact (h.closed v hv v' w harc).elim (fun hcome => absurd hcome.2 List.not_mem_nil) Or.inr

/-- Only a vertex that is not settled can be reached on a shorter way. -/
theorem notMem_of_shorter (h : Searching g length measure source done m rest s) {x : α}
    (hmx : m ≤ measure x) (hshorter : ∀ b, s.distance? v = some b → measure x < measure b) :
    v ∉ done := by
  intro hmem
  obtain ⟨b, hb, hbm⟩ := h.settled v hmem
  exact (hbm.trans hmx).not_gt (hshorter b hb)

/-- A way that is shorter than what is known of its end takes its place. -/
theorem note (hg : Measured g length measure)
    (h : Searching g length measure source (u :: done) (measure d) ((v, w) :: rest) s)
    (hu : s.distance? u = some d) (harc : (v, w) ∈ g.around u)
    (hshorter : ∀ b, s.distance? v = some b → measure (d + w) < measure b) :
    Searching g length measure source (u :: done) (measure d) rest (s.noted u (d + w) v) := by
  obtain ⟨hv, hsum⟩ := hg.arc u v w harc
  obtain ⟨hx, hdx⟩ := hsum d (h.known u d hu).1
  generalize hsum : d + w = x at *
  have hnew := h.notMem_of_shorter hdx hshorter
  have hdistance := distance?_noted (u := u) (x := x) (h.distanceSize ▸ hv)
  have hat : (s.noted u x v).distance? v = some x := (hdistance v).trans (if_pos rfl)
  have hdone : ∀ n ∈ u :: done, (s.noted u x v).distance? n = s.distance? n := by
    intro n hn
    refine (hdistance n).trans (if_neg ?_)
    rintro rfl
    exact hnew hn
  have hsome : ∀ {n b}, s.distance? n = some b →
      ∃ c, (s.noted u x v).distance? n = some c ∧ measure c ≤ measure b := by
    intro n b hb
    by_cases hn : n = v
    · subst hn
      exact ⟨x, hat, (hshorter b hb).le⟩
    · exact ⟨b, ((hdistance n).trans (if_neg hn)).trans hb, le_refl _⟩
  refine
    { distanceSize := by simp [noted, h.distanceSize]
      nodup := h.nodup
      atSource := ?_
      known := fun n b hb => ?_
      settled := fun n hn => ?_
      entry := fun e he => ?_
      sorted := ?_
      closed := fun n hn n' w' harc' => ?_ }
  · obtain ⟨b, hb⟩ := h.atSource
    exact (hsome hb).imp fun _ hc => hc.1
  · rw [hdistance] at hb
    split at hb
    · obtain rfl := Option.some.inj hb
      subst n
      exact ⟨hx, Or.inr (mem_enqueue.mpr (Or.inl rfl))⟩
    · obtain ⟨hlength, hmem⟩ := h.known n b hb
      exact ⟨hlength, hmem.imp_right fun hmem => mem_enqueue.mpr (Or.inr hmem)⟩
  · rw [hdone n hn]
    exact h.settled n hn
  · rcases mem_enqueue.mp he with rfl | he
    · exact ⟨hx, hdx, x, hat, le_refl _, fun hmem => absurd hmem hnew⟩
    · obtain ⟨hlength, hde, b, hb, hbe, hstrict⟩ := h.entry e he
      obtain ⟨c, hc, hcb⟩ := hsome hb
      exact ⟨hlength, hde, c, hc, hcb.trans hbe, fun hmem => hcb.trans_lt (hstrict hmem)⟩
  · refine enqueue_precedes hg hx (fun f hf => ?_) h.sorted
    obtain ⟨hlength, -, b, hb, hbf, -⟩ := h.entry f hf
    refine ⟨hlength, fun heq => ?_⟩
    rw [heq] at hb
    exact (hshorter b hb).trans_le hbf
  · rw [hdone n hn]
    rcases h.closed n hn n' w' harc' with ⟨hhead, hmem⟩ | ⟨a, b, ha, hb, hle⟩
    · rcases List.mem_cons.mp hmem with heq | hmem
      · obtain ⟨rfl, rfl⟩ := Prod.mk.inj heq
        obtain rfl := Option.some.inj hhead
        exact Or.inr ⟨d, x, hu, hat, hsum ▸ le_refl _⟩
      · exact Or.inl ⟨hhead, hmem⟩
    · obtain ⟨c, hc, hcb⟩ := hsome hb
      exact Or.inr ⟨a, c, ha, hc, hcb.trans hle⟩

/-- One arc from the last settled vertex is taken note of. -/
theorem relax (hg : Measured g length measure)
    (h : Searching g length measure source (u :: done) (measure d) ((v, w) :: rest) s)
    (hu : s.distance? u = some d) (harc : (v, w) ∈ g.around u) :
    Searching g length measure source (u :: done) (measure d) rest (s.relax u (d + w) v) ∧
      (s.relax u (d + w) v).distance? u = some d ∧
      (s.relax u (d + w) v).queue.length ≤ s.queue.length + 1 := by
  obtain ⟨hv, hsum⟩ := hg.arc u v w harc
  obtain ⟨hx, hdx⟩ := hsum d (h.known u d hu).1
  rcases relax_cases hg u hx fun b hb => (h.known v b hb).1 with
    ⟨⟨b, hb, hbx⟩, heq⟩ | ⟨hshorter, heq⟩ <;> rw [heq]
  · -- nothing changes, and the arc is looked at
    refine ⟨{ h with closed := ?_ }, hu, Nat.le_succ _⟩
    intro u' hu' v' w' harc'
    rcases h.closed u' hu' v' w' harc' with ⟨hhead, hmem⟩ | hclosed
    · rcases List.mem_cons.mp hmem with heq | hmem
      · obtain ⟨rfl, rfl⟩ := Prod.mk.inj heq
        obtain rfl := Option.some.inj hhead
        exact Or.inr ⟨d, b, hu, hb, hbx⟩
      · exact Or.inl ⟨hhead, hmem⟩
    · exact Or.inr hclosed
  · refine ⟨h.note hg hu harc hshorter, ?_, ?_⟩
    · rw [distance?_noted (h.distanceSize ▸ hv), if_neg, hu]
      rintro rfl
      exact h.notMem_of_shorter hdx hshorter List.mem_cons_self
    · rw [noted, (enqueue_perm _ _).length_eq, List.length_cons]

/-- All arcs from the last settled vertex are taken note of. -/
theorem relaxArcs (hg : Measured g length measure) {arcs : List (Nat × α)}
    (h : Searching g length measure source (u :: done) (measure d) arcs s)
    (hu : s.distance? u = some d) (harcs : ∀ a ∈ arcs, a ∈ g.around u) :
    Searching g length measure source (u :: done) (measure d) []
        (arcs.foldl (fun s (v, w) => s.relax u (d + w) v) s) ∧
      (arcs.foldl (fun s (v, w) => s.relax u (d + w) v) s).queue.length
        ≤ s.queue.length + arcs.length := by
  induction arcs generalizing s with
  | nil => exact ⟨h, le_refl _⟩
  | cons a arcs ih =>
      obtain ⟨hmem, hmems⟩ := List.forall_mem_cons.mp harcs
      obtain ⟨hnext, hu', hqueue⟩ := h.relax hg hu hmem
      obtain ⟨hlast, hqueue'⟩ := ih hnext hu' hmems
      rw [List.foldl_cons]
      refine ⟨hlast, hqueue'.trans ?_⟩
      rw [List.length_cons]
      omega

/-! ## The end of the search -/

/-- When nothing is left, the vertices to which arcs lead are known. -/
theorem reached (h : Searching g length measure source done m [] s) (hq : s.queue = [])
    (hpath : Relation.ReflTransGen g.Joined source v) : ∃ d, s.distance? v = some d := by
  induction hpath with
  | refl => exact h.atSource
  | tail _ harc ih =>
      obtain ⟨d, hd⟩ := ih
      obtain ⟨w, harc⟩ := harc
      obtain ⟨-, hdone | hmem⟩ := h.known _ d hd
      · rcases h.closed _ hdone _ w harc with ⟨-, hcome⟩ | ⟨-, b, -, hb, -⟩
        · cases hcome
        · exact ⟨b, hb⟩
      · rw [hq] at hmem
        cases hmem

/-- With as many rounds as there can be entries, the search reaches its
target. -/
theorem run (hg : Measured g length measure) (hpath : Relation.ReflTransGen g.Joined source target)
    {n : Nat} (h : Searching g length measure source done m [] s)
    (hrounds : s.queue.length + g.arcCount ≤ n + g.arcsFrom done) :
    ∃ d, (Search.run g (some target) n s).distance? target = some d := by
  induction n generalizing done m s with
  | zero =>
      have hall := arcsFrom_le h.nodup h.settled_lt
      exact h.reached (List.length_eq_zero_iff.mp (by omega)) hpath
  | succ n ih =>
      rw [Search.run]
      split
      · exact h.reached ‹_› hpath
      · rename_i d u q hq
        rw [hq, List.length_cons] at hrounds
        dsimp only
        split
        · -- the target comes out of the queue
          rename_i htarget
          obtain rfl : target = u := by simpa using htarget
          obtain ⟨-, -, b, hb, -⟩ := h.entry (d, target) (hq ▸ List.mem_cons_self)
          exact ⟨b, hb⟩
        · split
          · rename_i hstale
            exact ih (h.drop hg hq hstale) (by dsimp only; omega)
          · rename_i hfresh
            replace hfresh := Bool.eq_false_iff.mpr hfresh
            obtain ⟨hnext, hqueue⟩ := (h.settle hg hq hfresh).relaxArcs hg (h.fresh hg hq hfresh).1
              fun _ ha => ha
            refine ih hnext ?_
            rw [arcsFrom_cons]
            dsimp only at hqueue
            exact (Nat.add_le_add_right hqueue _).trans (by omega)

end Searching

end Search

/-- There is a shortest path to every vertex to which arcs lead. -/
theorem exists_shortestPath? (hg : Measured g length measure) {source target : Nat}
    (hsource : source < g.size) (hpath : Relation.ReflTransGen g.Joined source target) :
    ∃ path d, g.shortestPath? source target = some (path, d) := by
  have hstart := Search.searching_start hg hsource
  obtain ⟨d, hd⟩ := hstart.run (n := g.arcCount + 1) hg hpath
    (by simp [Search.start, arcsFrom, Nat.add_comm])
  exact ⟨_, d, Option.map_eq_some_iff.mpr ⟨d, hd, rfl⟩⟩

end FieldScript.Graph
