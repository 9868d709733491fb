import FieldScript.Proofs.EdgeMatrix
import FieldScript.Proofs.ShortestPaths

/-!
# Distances on a mesh

The distances of all vertices from a point are found over the matrix of
edge lengths, the path to one vertex by a search along the arcs. As both
tell the same edges, the same walks lead along them
(`Mesh.walk_ofEdges_iff`), and in exact arithmetic the distances are the
lengths of the paths (`Mesh.representations_agree`), whatever finds them,
if only it finds shortest distances (`Graph.FindsDistances`).

The search of this library does (`Graph.findsDistances_distancesOver`).
-/

namespace FieldScript

/-! ## Finding distances -/

namespace Graph

variable {g g' : Graph Exact} {source u v : Nat} {d d' : Option Exact}

/-- The distance of a vertex: the length of a shortest walk to it, none if
there is no walk. -/
def IsDistance (g : Graph Exact) (source v : Nat) : Option Exact → Prop
  | none => ∀ x, ¬ g.Walk source v x
  | some d => ∃ x, d = .number x ∧ IsLeast {y | g.Walk source v y} x

theorem IsDistance.unique (h : g.IsDistance source v d) (h' : g.IsDistance source v d') :
    d = d' := by
  cases d with
  | none =>
      cases d' with
      | none => rfl
      | some d' =>
          obtain ⟨x, -, hx⟩ := h'
          exact absurd hx.1 (h x)
  | some d =>
      obtain ⟨x, rfl, hx⟩ := h
      cases d' with
      | none => exact absurd hx.1 (h' x)
      | some d' =>
          obtain ⟨y, rfl, hy⟩ := h'
          rw [hx.unique hy]

/-- Walks depend on the arcs only. -/
theorem Walk.mono {x : ℝ} (h : g.Walk source v x)
    (harcs : ∀ u v w, (v, w) ∈ g.around u → (v, w) ∈ g'.around u) : g'.Walk source v x := by
  induction h with
  | start => exact .start
  | step _ harc ih => exact .step ih (harcs _ _ _ harc)

theorem IsDistance.congr (h : g.IsDistance source v d)
    (harcs : ∀ u v w, (v, w) ∈ g'.around u ↔ (v, w) ∈ g.around u) :
    g'.IsDistance source v d := by
  have hwalks : ∀ y, g'.Walk source v y ↔ g.Walk source v y := fun y =>
    ⟨fun hy => hy.mono fun u v w => (harcs u v w).mp, fun hy => hy.mono fun u v w => (harcs u v w).mpr⟩
  cases d with
  | none => exact fun x hx => h x ((hwalks x).mp hx)
  | some d =>
      obtain ⟨x, rfl, hx⟩ := h
      refine ⟨x, rfl, ?_⟩
      simpa only [hwalks] using hx

/-- A shortest path has the length of the distance. -/
theorem isDistance_shortestPath? (hg : g.Metric) (hsource : source < g.size) (v : Nat) :
    g.IsDistance source v ((g.shortestPath? source v).map Prod.snd) := by
  obtain ⟨hnone, hsome⟩ := @shortestPath?_isShortestPath g hg source v hsource
  cases h : g.shortestPath? source v with
  | none => exact hnone.mp h
  | some r =>
      obtain ⟨x, hx, hpath⟩ := hsome r.1 r.2 h
      exact ⟨x, hx, hpath.way.walk hpath.head hpath.last, fun y hy => hpath.least y hy⟩

/-- The entries of a matrix whose numbers are lengths, each place once. -/
structure LengthMatrix (n : Nat) (edges : List (Nat × Nat × Exact)) : Prop where
  inRange : ∀ e ∈ edges, e.1 < n ∧ e.2.1 < n
  lengths : ∀ e ∈ edges, ∃ x : ℝ, 0 ≤ x ∧ e.2.2 = .number x
  sorted : edges.Pairwise Mesh.Before

/-- The finder gives the distance of every vertex over the entries of any
such matrix, which may be passed both ways; an entry of zero is one. -/
def FindsDistances (finder : Nat → List (Nat × Nat × Exact) → Nat → List (Option Exact)) : Prop :=
  ∀ n edges source, source < n → LengthMatrix n edges →
    (finder n edges source).length = n ∧
      ∀ v d, (finder n edges source)[v]? = some d → (ofEdges n edges).IsDistance source v d

theorem LengthMatrix.metric {n : Nat} {edges : List (Nat × Nat × Exact)} (h : LengthMatrix n edges) :
    (ofEdges n edges).Metric := by
  rintro u ⟨v, w⟩ hmem
  rw [size_ofEdges]
  obtain ⟨-, hmem | hmem⟩ := mem_around_ofEdges.mp hmem
  · exact ⟨(h.inRange _ hmem).2, h.lengths _ hmem⟩
  · exact ⟨(h.inRange _ hmem).1, h.lengths _ hmem⟩

/-! ## The search finds them -/

theorem Search.size_relax (s : Search Exact) (u : Nat) (d : Exact) (v : Nat) :
    (s.relax u d v).distance.size = s.distance.size := by
  rw [Search.relax]
  split
  · exact Array.size_setIfInBounds
  · rfl

theorem Search.size_relaxAll (s : Search Exact) (u : Nat) (d : Exact) :
    (relaxAll g u d s).distance.size = s.distance.size :=
  List.foldlRecOn (motive := fun t : Search Exact => t.distance.size = s.distance.size)
    (g.around u) _ rfl fun t ht a _ => (size_relax t u (d + a.2) a.1).trans ht

theorem Search.size_run (goal : Option Nat) (n : Nat) (s : Search Exact) :
    (Search.run g goal n s).distance.size = s.distance.size := by
  induction n generalizing s with
  | zero => rfl
  | succ n ih =>
      rw [Search.run]
      split
      · rfl
      · dsimp only
        split
        · rfl
        · split
          · exact ih _
          · exact (ih _).trans (size_relaxAll _ _ _)

/-- What a search without a goal ends with are the distances. -/
theorem isDistance_distances (hg : g.Metric) (hsource : source < g.size) :
    (g.distances source).length = g.size ∧
      ∀ v d, (g.distances source)[v]? = some d → g.IsDistance source v d := by
  have hsize : (g.search source none).distance.size = g.size := by
    rw [search, Search.size_run]
    simp [Search.start]
  refine ⟨by rw [distances, Array.length_toList, hsize], fun v d hd => ?_⟩
  have hanswers : Search.Answers g source v (g.search source none) := by
    refine (Search.sound_start hg hsource).run hg (fun u hu => by cases hu) ?_
    simp [Search.start, arcsFrom, Nat.add_comm]
  have hdistance : (g.search source none).distance? v = d := by
    rw [distances, Array.getElem?_toList] at hd
    rw [Search.distance?, hd]
    rfl
  cases d with
  | none =>
      intro x hx
      obtain ⟨y, hy⟩ := hanswers.reached x hx
      cases hdistance.symm.trans hy
  | some d =>
      obtain ⟨x, rfl, hpath⟩ := hanswers.shortest d hdistance
      exact ⟨x, rfl, hpath.way.walk hpath.head hpath.last, fun y hy => hpath.least y hy⟩

theorem findsDistances_distancesOver : FindsDistances distancesOver := by
  intro n edges source hsource h
  have hsize : (ofEdges n edges).size = n := size_ofEdges n edges
  have hfound := isDistance_distances h.metric (hsize.symm ▸ hsource : source < (ofEdges n edges).size)
  rwa [hsize] at hfound

end Graph

/-! ## Points with real coordinates -/

/-- The point in exact arithmetic. -/
def Point3.exact (p : Point3 ℝ) : Point3 Exact := ⟨.number p.x, .number p.y, .number p.z⟩

/-- The point in Euclidean space. -/
noncomputable def Point3.place (p : Point3 ℝ) : EuclideanSpace ℝ (Fin 3) :=
  WithLp.toLp _ ![p.x, p.y, p.z]

namespace Point3

/-- The way from a point to another one. -/
def wayTo (p q : Point3 ℝ) : Point3 ℝ := ⟨q.x - p.x, q.y - p.y, q.z - p.z⟩

theorem sub_exact (p q : Point3 ℝ) : q.exact.sub p.exact = (wayTo p q).exact := rfl

theorem place_wayTo (p q : Point3 ℝ) : (wayTo p q).place = q.place - p.place := by
  ext i
  fin_cases i <;> rfl

theorem norm_exact (v : Point3 ℝ) : v.exact.norm = .number ‖v.place‖ := by
  have hroot : ‖v.place‖ = √(v.x * v.x + v.y * v.y + v.z * v.z) := by
    rw [EuclideanSpace.norm_eq, Fin.sum_univ_three]
    simp [place, Real.norm_eq_abs, sq]
  rw [hroot]
  refine congrArg Exact.ofOption (if_pos ?_)
  nlinarith [mul_self_nonneg v.x, mul_self_nonneg v.y, mul_self_nonneg v.z]

/-- The distance of points is the one of space. -/
theorem distance_exact (p q : Point3 ℝ) :
    p.exact.distance q.exact = .number (dist p.place q.place) := by
  rw [distance, sub_exact, norm_exact, place_wayTo, dist_eq_norm]

end Point3

namespace Mesh

/-- The distance of real points is a real number. -/
theorem exists_distance (p q : Point3 ℝ) :
    ∃ x : ℝ, 0 ≤ x ∧ p.exact.distance q.exact = .number x :=
  ⟨_, dist_nonneg, p.distance_exact q⟩

/-- Distances are the same both ways. -/
theorem distance_comm_float (p q : Point3 Float) : p.distance q = q.distance p := by
  simp only [Point3.distance, Point3.norm, Point3.normSquared, Point3.sub,
    Binary64.sub_mul_sub_comm p.x, Binary64.sub_mul_sub_comm p.y, Binary64.sub_mul_sub_comm p.z]

theorem distance_comm_exact (p q : Point3 Exact) : p.distance q = q.distance p := by
  have hsub : ∀ a b : Exact, (a - b) * (a - b) = (b - a) * (b - a) := by
    rintro (x | _) (y | _)
    · show Exact.number ((x - y) * (x - y)) = Exact.number ((y - x) * (y - x))
      congr 1
      ring
    · rfl
    · rfl
    · rfl
  simp only [Point3.distance, Point3.norm, Point3.normSquared, Point3.sub, hsub p.x, hsub p.y,
    hsub p.z]

variable {vs : List (Point3 ℝ)} {faces : List Triangle}

/-- Whatever stands at an index has real coordinates. -/
theorem exists_vertexAt (vs : List (Point3 ℝ)) (i : Nat) :
    ∃ q : Point3 ℝ, vertexAt (vs.map Point3.exact).toArray i = q.exact := by
  rw [vertexAt, List.getElem?_toArray, List.getElem?_map]
  cases vs[i]? with
  | some q => exact ⟨q, rfl⟩
  | none =>
      refine ⟨⟨0, 0, 0⟩, ?_⟩
      simp only [Point3.exact, Option.map_none, Option.getD_none, Exact.zero_eq]

theorem exists_length {e : Nat × Nat × Exact}
    (he : e ∈ Mesh.lengths (vs.map Point3.exact).toArray faces) :
    ∃ x : ℝ, 0 ≤ x ∧ e.2.2 = .number x := by
  obtain ⟨u, v, w⟩ := e
  obtain ⟨-, rfl⟩ := mem_lengths.mp he
  obtain ⟨p, hp⟩ := exists_vertexAt vs u
  obtain ⟨q, hq⟩ := exists_vertexAt vs v
  rw [hp, hq]
  exact exists_distance p q

section Exact

variable (h : CornersIn vs.length faces)
include h

theorem edgesAgree_exact : (ofFaces (vs.map Point3.exact) faces).EdgesAgree := by
  refine edgesAgree_ofFaces distance_comm_exact ?_
  rwa [List.length_map]

/-- The matrix of a mesh holds lengths. -/
theorem lengthMatrix_edges :
    Graph.LengthMatrix vs.length (ofFaces (vs.map Point3.exact) faces).edges := by
  obtain ⟨hmem, hsorted⟩ : (∀ e, e ∈ (ofFaces (vs.map Point3.exact) faces).edges ↔
      e ∈ (lengths (vs.map Point3.exact).toArray faces).map upright) ∧
        (ofFaces (vs.map Point3.exact) faces).edges.Pairwise Before :=
    edges_ofFaces distance_comm_exact
  refine ⟨fun e he => ?_, fun e he => ?_, hsorted⟩
  · obtain ⟨e', he', rfl⟩ := List.mem_map.mp ((hmem e).mp he)
    obtain ⟨hu, hv⟩ := lt_of_mem_lengths h he'
    exact ⟨(min_le_left _ _).trans_lt hu, max_lt hu hv⟩
  · obtain ⟨e', he', rfl⟩ := List.mem_map.mp ((hmem e).mp he)
    have hlength : ∃ x : ℝ, 0 ≤ x ∧ e'.2.2 = .number x := exists_length he'
    exact hlength

/-- The entries of the matrix, passed both ways, are the arcs. -/
theorem mem_around_edges (u v : Nat) (w : Exact) :
    (v, w) ∈ (Graph.ofEdges vs.length (ofFaces (vs.map Point3.exact) faces).edges).around u ↔
      (v, w) ∈ (ofFaces (vs.map Point3.exact) faces).graph.around u := by
  have hagree := edgesAgree_exact h
  rw [Graph.mem_around_ofEdges, hagree.stored]
  constructor
  · rintro ⟨-, hmem | hmem⟩
    · have hle : u ≤ v := hagree.lowerFirst _ hmem
      rwa [upright, min_eq_left hle, max_eq_right hle]
    · have hle : v ≤ u := hagree.lowerFirst _ hmem
      rwa [upright, min_eq_right hle, max_eq_left hle]
  · intro hmem
    obtain ⟨hmin, hmax⟩ := (lengthMatrix_edges h).inRange _ hmem
    refine ⟨(le_max_left u v).trans_lt hmax, ?_⟩
    rcases le_total u v with hle | hle
    · rw [upright, min_eq_left hle, max_eq_right hle] at hmem
      exact Or.inl hmem
    · rw [upright, min_eq_right hle, max_eq_left hle] at hmem
      exact Or.inr hmem

omit h in
theorem size_graph : (ofFaces (vs.map Point3.exact) faces).graph.size = vs.length := by
  rw [ofFaces, Graph.size_ofEdges, List.length_map]

/-- The arcs of a mesh lead to vertices and have lengths. -/
theorem metric_ofFaces : (ofFaces (vs.map Point3.exact) faces).graph.Metric := by
  intro u a ha
  have ha' := (lengthMatrix_edges h).metric u a ((mem_around_edges h u a.1 a.2).mpr ha)
  rwa [Graph.size_ofEdges, ← size_graph] at ha'

/-- What is found over the matrix are the lengths of the paths along the
arcs. -/
theorem finder_eq_shortestPath?
    {finder : Nat → List (Nat × Nat × Exact) → Nat → List (Option Exact)}
    (hfinder : Graph.FindsDistances finder) {u : Nat} (hu : u < vs.length) :
    (finder vs.length (ofFaces (vs.map Point3.exact) faces).edges u).length = vs.length ∧
      ∀ v < vs.length, (finder vs.length (ofFaces (vs.map Point3.exact) faces).edges u)[v]? =
        some (((ofFaces (vs.map Point3.exact) faces).graph.shortestPath? u v).map Prod.snd) := by
  obtain ⟨hlength, hfound⟩ := hfinder _ _ u hu (lengthMatrix_edges h)
  refine ⟨hlength, fun v hv => ?_⟩
  rw [List.getElem?_eq_getElem (by omega)]
  congr 1
  have hdistance := hfound v _ (List.getElem?_eq_getElem (by omega))
  have hpath := Graph.isDistance_shortestPath? (metric_ofFaces h) (size_graph.symm ▸ hu) v
  exact hdistance.unique (hpath.congr fun a b w => mem_around_edges h a b w)

end Exact

/-! ## From points -/

/-- Every point with real coordinates has a nearest vertex, and it is
found with an index too. -/
theorem exists_snap (hne : vs ≠ []) (indexed : Bool) (p : Point3 ℝ) :
    ∃ u < vs.length, (ofFaces (vs.map Point3.exact) faces).nearest? p.exact = some u ∧
      (ofFaces (vs.map Point3.exact) faces).snap? indexed p.exact = .ok (some u) := by
  have hfinite : ∀ q : Point3 ℝ, q.exact.isFinite = true := fun _ => rfl
  have hvertices : (ofFaces (vs.map Point3.exact) faces).vertices.toList = vs.map Point3.exact := rfl
  have hlengths : ((vs.map Point3.exact).map fun v => v.distance p.exact) ≠ [] := by simpa using hne
  obtain ⟨u, hu, hnearest⟩ := Scalar.leastIndex?_lt hlengths
  rw [List.length_map, List.length_map] at hu
  have hnear : (ofFaces (vs.map Point3.exact) faces).nearest? p.exact = some u := hnearest
  refine ⟨u, hu, hnear, ?_⟩
  rw [snap?, hnear]
  cases indexed with
  | false => rfl
  | true =>
      have hpoints : (p.exact :: vs.map Point3.exact).all Point3.isFinite = true := by
        rw [List.all_eq_true, List.forall_mem_cons, List.forall_mem_map]
        exact ⟨hfinite p, fun q _ => hfinite q⟩
      -- No vertex is infinitely far away, and there is one.
      have hnot : (ofFaces (vs.map Point3.exact) faces).isBeyond p.exact = false := by
        obtain ⟨q, qs, rfl⟩ := List.exists_cons_of_ne_nil hne
        obtain ⟨x, -, hx⟩ := exists_distance q p
        rw [isBeyond, ← Array.all_toList, hvertices, List.map_cons, List.all_cons, hx]
        rfl
      simp [hvertices, hpoints, hnot]

/-! ## Meshes with their indices in range -/

/-- All indices are those of vertices. -/
def IndicesIn (n : Nat) (faces : List (Int × Int × Int)) : Prop :=
  ∀ t ∈ faces, (0 ≤ t.1 ∧ t.1 < n) ∧ (0 ≤ t.2.1 ∧ t.2.1 < n) ∧ 0 ≤ t.2.2 ∧ t.2.2 < n

def cornersOf (t : Int × Int × Int) : Triangle := (t.1.toNat, t.2.1.toNat, t.2.2.toNat)

theorem index?_of_lt {n : Nat} {i : Int} (h : 0 ≤ i ∧ i < n) : index? n i = .ok i.toNat := by
  rw [index?, if_pos (by simpa using h)]

theorem ofFaces?_of_indicesIn {α : Type} [Scalar α] {vs : List (Point3 α)}
    {faces : List (Int × Int × Int)} (h : IndicesIn vs.length faces) :
    ofFaces? vs faces = .ok (ofFaces vs (faces.map cornersOf)) ∧
      CornersIn vs.length (faces.map cornersOf) := by
  constructor
  · rw [ofFaces?]
    dsimp only
    rw [mapM_eq_map (g := cornersOf) fun t ht => ?_]
    · rfl
    · obtain ⟨ha, hb, hc⟩ := h t ht
      rw [index?_of_lt ha, index?_of_lt hb, index?_of_lt hc]
      rfl
  · rw [CornersIn, List.forall_mem_map]
    intro t ht
    obtain ⟨ha, hb, hc⟩ := h t ht
    simp only [cornersOf]
    omega

theorem shortestPath_of_lt {α : Type} [Scalar α] {m : Mesh α} {u v : Nat}
    (hu : u < m.vertices.size) (hv : v < m.vertices.size) :
    m.shortestPath u v = .ok (m.graph.shortestPath? u v) := by
  rw [shortestPath, index?_of_lt (by omega), index?_of_lt (by omega)]
  rfl

/-- The two representations of the edges of a mesh agree; in exact
arithmetic, the distances that are found over the one are those of the
paths along the other, from the vertex nearest to any point. -/
theorem representations_agree
    {finder : Nat → List (Nat × Nat × Exact) → Nat → List (Option Exact)}
    (hfinder : Graph.FindsDistances finder) :
    (∀ (vs : List (Point3 Float)) (faces : List (Int × Int × Int)), IndicesIn vs.length faces →
      ∃ m, ofFaces? vs faces = .ok m ∧ m.EdgesAgree) ∧
    ∀ (vs : List (Point3 ℝ)) (faces : List (Int × Int × Int)), IndicesIn vs.length faces →
      ∃ m, ofFaces? (vs.map Point3.exact) faces = .ok m ∧ m.EdgesAgree ∧
        (vs ≠ [] → ∀ (indexed : Bool) (p : Point3 ℝ), ∃ u ds,
          m.nearest? p.exact = some u ∧ m.snap? indexed p.exact = .ok (some u) ∧
          m.distancesBy finder indexed p.exact = .ok ds ∧ ds.length = vs.length ∧
          ∀ v < vs.length, ∃ way, m.shortestPath u v = .ok way ∧
            ds[v]? = some (way.map Prod.snd)) := by
  constructor
  · intro vs faces h
    obtain ⟨hmesh, hcorners⟩ := ofFaces?_of_indicesIn h
    exact ⟨_, hmesh, edgesAgree_ofFaces distance_comm_float hcorners⟩
  · intro vs faces h
    have h' : IndicesIn (vs.map Point3.exact).length faces := by rwa [List.length_map]
    obtain ⟨hmesh, hcorners⟩ := ofFaces?_of_indicesIn h'
    rw [List.length_map] at hcorners
    refine ⟨_, hmesh, edgesAgree_exact hcorners, fun hne indexed p => ?_⟩
    obtain ⟨u, hu, hnearest, hsnap⟩ := exists_snap hne indexed p
    obtain ⟨hlength, hfound⟩ := finder_eq_shortestPath? hcorners hfinder hu
    have hsize : (ofFaces (vs.map Point3.exact) (faces.map cornersOf)).vertices.size = vs.length :=
      List.length_map Point3.exact
    refine ⟨u, _, hnearest, hsnap, ?_, hlength, fun v hv => ⟨_, ?_, hfound v hv⟩⟩
    · rw [distancesBy, hsnap]
      show (if u < _ then _ else _) = _
      rw [hsize, if_pos hu]
      rfl
    · exact shortestPath_of_lt (hsize.symm ▸ hu) (hsize.symm ▸ hv)

/-- Two triangles with the same corners in opposite order, two of which
are in one place, a corner that is taken three times, and a vertex by
itself. -/
theorem representations_agree_folded :
    ∃ m : Mesh Exact, ofFaces? ([⟨0, 0, 0⟩, ⟨3, 4, 0⟩, ⟨0, 0, 0⟩, ⟨1, 1, 1⟩].map Point3.exact)
        [(0, 1, 2), (2, 1, 0), (1, 1, 1)] = .ok m ∧ m.EdgesAgree ∧
      ∃ u ds, m.snap? true (Point3.exact ⟨3, 4, 1⟩) = .ok (some u) ∧
        m.distancesFrom true (Point3.exact ⟨3, 4, 1⟩) = .ok ds ∧ ds.length = 4 ∧
        ∀ v : Nat, v < 4 → ∃ way, m.shortestPath u v = .ok way ∧ ds[v]? = some (way.map Prod.snd) := by
  obtain ⟨m, hm, hagree, hways⟩ :=
    (representations_agree Graph.findsDistances_distancesOver).2
      [⟨0, 0, 0⟩, ⟨3, 4, 0⟩, ⟨0, 0, 0⟩, ⟨1, 1, 1⟩] [(0, 1, 2), (2, 1, 0), (1, 1, 1)]
      (by simp [IndicesIn])
  obtain ⟨u, ds, -, hsnap, hdistances, hlength, hfound⟩ :=
    hways (List.cons_ne_nil _ _) true ⟨3, 4, 1⟩
  exact ⟨m, hm, hagree, u, ds, hsnap, hdistances, hlength, hfound⟩

end Mesh

end FieldScript
