import FieldScript.Proofs.MeshDistances

/-!
# Lengths of geodesics

A way between two points of space joins them to the vertices nearest to
them and follows edges between these. Its points are put together case by
case: a point that is a vertex itself is not repeated, and a way that
stays in one point has it twice. Its length is added up apart from its
points. In exact arithmetic both agree (`Mesh.splice_line`), so that a way
is never shorter than the straight line between its ends; and as edges
have one length in both directions, the way back is as long as the way
there (`Mesh.geodesics_measured`).
-/

namespace FieldScript

/-! ## Lines in space -/

namespace Point3

theorem place_injective : Function.Injective place := by
  rintro ⟨x, y, z⟩ ⟨x', y', z'⟩ h
  have hat : ∀ i, place ⟨x, y, z⟩ i = place ⟨x', y', z'⟩ i := fun i => congrFun (congrArg _ h) i
  have hx : x = x' := hat 0
  have hy : y = y' := hat 1
  have hz : z = z' := hat 2
  rw [hx, hy, hz]

/-- The length of the line through the points. -/
noncomputable def lineLength : List (Point3 ℝ) → ℝ
  | p :: q :: rest => dist p.place q.place + lineLength (q :: rest)
  | _ => 0

theorem pathLength_exact (line : List (Point3 ℝ)) :
    pathLength (line.map exact) = .number (lineLength line) := by
  induction line with
  | nil => exact Exact.zero_eq
  | cons p line ih =>
      cases line with
      | nil => exact Exact.zero_eq
      | cons q line =>
          rw [List.map_cons] at ih
          rw [List.map_cons, List.map_cons, pathLength, ih, distance_exact, Exact.number_add,
            dist_comm, lineLength]

variable {p q r : Point3 ℝ} {line : List (Point3 ℝ)}

theorem lineLength_cons (h : line.head? = some q) :
    lineLength (p :: line) = dist p.place q.place + lineLength line := by
  cases line with
  | nil => cases h
  | cons q' line =>
      cases h
      rfl

theorem lineLength_concat (h : line.getLast? = some q) :
    lineLength (line ++ [r]) = lineLength line + dist q.place r.place := by
  induction line with
  | nil => cases h
  | cons p line ih =>
      cases line with
      | nil =>
          cases h
          simp [lineLength]
      | cons p' line =>
          rw [List.getLast?_cons_cons] at h
          have hhead : (p' :: line ++ [r]).head? = some p' := rfl
          rw [List.cons_append, lineLength_cons hhead, ih h, lineLength, add_assoc]

/-- No line is shorter than the straight one between its ends. -/
theorem dist_le_lineLength (hhead : line.head? = some p) (hlast : line.getLast? = some q) :
    dist p.place q.place ≤ lineLength line := by
  induction line generalizing p with
  | nil => cases hhead
  | cons p' line ih =>
      cases hhead
      cases line with
      | nil =>
          cases hlast
          exact (dist_self _).le
      | cons r line =>
          rw [List.getLast?_cons_cons] at hlast
          rw [lineLength]
          exact (dist_triangle _ _ _).trans (add_le_add_right (ih rfl hlast) _)

end Point3

/-! ## Walks there and back -/

namespace Graph

variable {g : Graph Exact} {u v source : Nat} {x : ℝ} {d : Option Exact}

/-- Every arc can be passed both ways. -/
def Undirected (g : Graph Exact) : Prop := ∀ u v x, g.Arc u v x → g.Arc v u x

theorem Walk.reverse (hg : g.Undirected) (h : g.Walk source v x) : g.Walk v source x := by
  induction h with
  | start => exact .start
  | @step u v x w _ harc ih =>
      have hback : g.Walk v u (0 + w) := .step .start (hg _ _ _ harc)
      have hall := hback.trans ih
      rwa [zero_add, add_comm] at hall

theorem IsDistance.reverse (hg : g.Undirected) (h : g.IsDistance u v d) : g.IsDistance v u d := by
  have hwalks : ∀ x, g.Walk v u x ↔ g.Walk u v x := fun x => ⟨Walk.reverse hg, Walk.reverse hg⟩
  cases d with
  | none => exact fun x hx => h x ((hwalks x).mp hx)
  | some d =>
      obtain ⟨x, rfl, hx⟩ := h
      exact ⟨x, rfl, by simpa only [hwalks] using hx⟩

/-- The shortest path back is as long as the one there. -/
theorem shortestPath?_reverse (hg : g.Metric) (hback : g.Undirected) (hu : u < g.size)
    (hv : v < g.size) :
    (g.shortestPath? v u).map Prod.snd = (g.shortestPath? u v).map Prod.snd :=
  (isDistance_shortestPath? hg hv u).unique ((isDistance_shortestPath? hg hu v).reverse hback)

end Graph

/-! ## Ways on a mesh -/

namespace Mesh

variable {vs : List (Point3 ℝ)} {faces : List Triangle} {u v : Nat} {x : ℝ} {path : List Nat}

/-- The vertex at an index, with real coordinates. -/
def corner (vs : List (Point3 ℝ)) (i : Nat) : Point3 ℝ := vs.getD i ⟨0, 0, 0⟩

theorem vertexAt_exact (vs : List (Point3 ℝ)) (i : Nat) :
    vertexAt (vs.map Point3.exact).toArray i = (corner vs i).exact := by
  have hzero : (⟨0, 0, 0⟩ : Point3 Exact) = Point3.exact ⟨0, 0, 0⟩ := by
    simp only [Point3.exact, Exact.zero_eq]
  rw [vertexAt, List.getElem?_toArray, ← List.getD_eq_getElem?_getD, hzero, List.getD_map, corner]

section Arcs

variable (h : CornersIn vs.length faces)
include h

theorem undirected_ofFaces : (ofFaces (vs.map Point3.exact) faces).graph.Undirected := by
  have hmem : ∀ {u v : Nat} {w : Exact},
      w ∈ (ofFaces (vs.map Point3.exact) faces).graph.lengthsTo u v ↔
        (v, w) ∈ (ofFaces (vs.map Point3.exact) faces).graph.around u := by
    simp [Graph.lengthsTo]
  intro u v x harc
  rwa [Graph.Arc, ← hmem, (edgesAgree_exact h).symmetric v u, hmem]

omit h in
/-- An arc is as long as the straight line between its ends. -/
theorem eq_dist_of_arc (harc : (ofFaces (vs.map Point3.exact) faces).graph.Arc u v x) :
    x = dist (corner vs u).place (corner vs v).place := by
  have hlength : ∀ {u v : Nat},
      (u, v, Exact.number x) ∈ lengths (vs.map Point3.exact).toArray faces →
      x = dist (corner vs u).place (corner vs v).place := by
    intro u v hmem
    have hnumber := (mem_lengths.mp hmem).2
    rw [vertexAt_exact, vertexAt_exact, Point3.distance_exact] at hnumber
    exact Exact.number.inj hnumber
  rcases (Graph.mem_around_ofEdges.mp harc).2 with hmem | hmem
  · exact hlength hmem
  · rw [dist_comm]
    exact hlength hmem

omit h in
/-- A way is as long as the line through its vertices. -/
theorem eq_lineLength_of_way (hway : (ofFaces (vs.map Point3.exact) faces).graph.Way path x) :
    x = Point3.lineLength (path.map (corner vs)) := by
  induction hway with
  | single u => rfl
  | cons hleast hway ih =>
      rw [eq_dist_of_arc hleast.1, ih]
      rfl

end Arcs

/-- A point in front of a way, unless the way begins there. -/
theorem exists_started {p a : Point3 ℝ} {way : List (Point3 ℝ)} (hhead : way.head? = some a) :
    ∃ line : List (Point3 ℝ),
      (if Scalar.less 0 (Exact.number (dist p.place a.place)) = true then
        p.exact :: way.map Point3.exact else way.map Point3.exact) = line.map Point3.exact ∧
      line.head? = some p ∧ line.getLast? = way.getLast? ∧
      Point3.lineLength line = dist p.place a.place + Point3.lineLength way := by
  rw [Exact.zero_eq, Exact.less_number]
  by_cases hpos : 0 < dist p.place a.place
  · rw [if_pos (decide_eq_true hpos)]
    refine ⟨p :: way, rfl, rfl, ?_, Point3.lineLength_cons hhead⟩
    cases way with
    | nil => cases hhead
    | cons _ _ => rw [List.getLast?_cons_cons]
  · rw [dist_pos, not_not] at hpos
    obtain rfl := Point3.place_injective hpos
    rw [dist_self, if_neg (by simp)]
    exact ⟨way, rfl, hhead, rfl, (zero_add _).symm⟩

/-- A point behind a way, unless the way ends there. -/
theorem exists_finished {q b : Point3 ℝ} {way : List (Point3 ℝ)} (hlast : way.getLast? = some b) :
    ∃ line : List (Point3 ℝ),
      (if Scalar.less 0 (Exact.number (dist q.place b.place)) = true then
        way.map Point3.exact ++ [q.exact] else way.map Point3.exact) = line.map Point3.exact ∧
      line.head? = way.head? ∧ line.getLast? = some q ∧
      Point3.lineLength line = Point3.lineLength way + dist q.place b.place := by
  rw [Exact.zero_eq, Exact.less_number]
  by_cases hpos : 0 < dist q.place b.place
  · rw [if_pos (decide_eq_true hpos), dist_comm]
    refine ⟨way ++ [q], by simp, ?_, by simp, Point3.lineLength_concat hlast⟩
    cases way with
    | nil => cases hlast
    | cons _ _ => rfl
  · rw [dist_pos, not_not] at hpos
    obtain rfl := Point3.place_injective hpos
    rw [dist_self, if_neg (by simp)]
    exact ⟨way, rfl, rfl, hlast, (add_zero _).symm⟩

/-- The points of a way lead from the start over the vertices to the end,
and the line through them is as long as the parts are together. -/
theorem splice_line {p q a b : Point3 ℝ} {way : List (Point3 ℝ)} (hhead : way.head? = some a)
    (hlast : way.getLast? = some b) :
    ∃ line : List (Point3 ℝ),
      splice p.exact q.exact (.number (dist p.place a.place)) (.number (dist q.place b.place))
        (way.map Point3.exact) = line.map Point3.exact ∧
      2 ≤ line.length ∧ line.head? = some p ∧ line.getLast? = some q ∧
      Point3.lineLength line =
        dist p.place a.place + Point3.lineLength way + dist q.place b.place := by
  obtain ⟨started, hstarted, hhead', hlast', hlength⟩ := exists_started (p := p) hhead
  obtain ⟨line, hline, hfirst, hend, htotal⟩ :=
    exists_finished (q := q) (hlast'.trans hlast)
  rw [splice, hstarted, hline]
  rw [hhead'] at hfirst
  rw [hlength] at htotal
  match line, hfirst, hend with
  | [r], hfirst, hend =>
      -- The way stays in one point.
      refine ⟨[r, r], rfl, le_rfl, hfirst, hend, ?_⟩
      rw [← htotal, Point3.lineLength, dist_self, zero_add]
  | r :: r' :: rest, hfirst, hend =>
      exact ⟨r :: r' :: rest, rfl, by simp, hfirst, hend, htotal⟩

/-! ## Ways between points -/

/-- Over two vertices there is no way, or one as long as its line, which
is that of a shortest path and of the two pieces that join it. -/
theorem wayOver_cases (h : CornersIn vs.length faces) (hu : u < vs.length) (hv : v < vs.length)
    (p q : Point3 ℝ) :
    ((ofFaces (vs.map Point3.exact) faces).graph.shortestPath? u v = none ∧
      (ofFaces (vs.map Point3.exact) faces).wayOver p.exact q.exact u v =
        .ok ⟨[p.exact, q.exact], none, [], false⟩) ∨
    ∃ path x, (ofFaces (vs.map Point3.exact) faces).graph.shortestPath? u v =
        some (path, .number x) ∧
      ∃ line : List (Point3 ℝ), 2 ≤ line.length ∧ line.head? = some p ∧ line.getLast? = some q ∧
        Point3.lineLength line =
          dist p.place (corner vs u).place + x + dist q.place (corner vs v).place ∧
        (ofFaces (vs.map Point3.exact) faces).wayOver p.exact q.exact u v =
          .ok ⟨line.map Point3.exact, some (.number (Point3.lineLength line)), path, true⟩ := by
  have hsize : (ofFaces (vs.map Point3.exact) faces).vertices.size = vs.length :=
    List.length_map Point3.exact
  have hpath := shortestPath_of_lt (hsize.symm ▸ hu) (hsize.symm ▸ hv)
  rw [wayOver, hpath]
  cases hshortest : (ofFaces (vs.map Point3.exact) faces).graph.shortestPath? u v with
  | none => exact Or.inl ⟨rfl, rfl⟩
  | some r =>
      obtain ⟨path, d⟩ := r
      obtain ⟨x, rfl, hleast⟩ := (Graph.shortestPath?_isShortestPath (metric_ofFaces h)
        (size_graph.symm ▸ hu)).2 path d hshortest
      have hhead : (path.map (corner vs)).head? = some (corner vs u) := by
        rw [List.head?_map, hleast.head, Option.map_some]
      have hlast : (path.map (corner vs)).getLast? = some (corner vs v) := by
        rw [List.getLast?_map, hleast.last, Option.map_some]
      obtain ⟨line, hline, htwo, hfirst, hend, hlength⟩ := splice_line (p := p) (q := q) hhead hlast
      rw [← eq_lineLength_of_way hleast.way] at hlength
      have hcorners : path.map (vertexAt (ofFaces (vs.map Point3.exact) faces).vertices) =
          (path.map (corner vs)).map Point3.exact := by
        rw [List.map_map]
        exact List.map_congr_left fun i _ => vertexAt_exact vs i
      have hdistance : ∀ (r : Point3 ℝ) (i : Nat),
          r.exact.distance (vertexAt (ofFaces (vs.map Point3.exact) faces).vertices i) =
            .number (dist r.place (corner vs i).place) := by
        intro r i
        rw [← Point3.distance_exact, ← vertexAt_exact]
        rfl
      refine Or.inr ⟨path, x, rfl, line, htwo, hfirst, hend, hlength, ?_⟩
      show Except.ok (Geodesic.mk _ _ _ _) = _
      rw [hdistance, hdistance, hcorners, hline, hlength]
      rfl

/-- In exact arithmetic, a way between two points leads from the one to
the other, its length is that of the line through its points and at least
the straight distance, and the way back is as long. There is a way back if
there is a way. -/
theorem geodesics_measured (vs : List (Point3 ℝ)) (faces : List (Int × Int × Int)) (hne : vs ≠ [])
    (h : IndicesIn vs.length faces) :
    ∃ m, ofFaces? (vs.map Point3.exact) faces = .ok m ∧ ∀ p q : Point3 ℝ, ∃ there back,
      m.geodesic? false p.exact q.exact = .ok there ∧
      m.geodesic? false q.exact p.exact = .ok back ∧
      back.reachable = there.reachable ∧ back.distance = there.distance ∧
      (there.reachable = false → there.distance = none) ∧
      (there.reachable = true → ∃ line : List (Point3 ℝ),
        there.points = line.map Point3.exact ∧ 2 ≤ line.length ∧
        line.head? = some p ∧ line.getLast? = some q ∧
        there.distance = some (.number (Point3.lineLength line)) ∧
        dist p.place q.place ≤ Point3.lineLength line) := by
  have h' : IndicesIn (vs.map Point3.exact).length faces := by rwa [List.length_map]
  obtain ⟨hmesh, hcorners⟩ := ofFaces?_of_indicesIn h'
  rw [List.length_map] at hcorners
  refine ⟨_, hmesh, fun p q => ?_⟩
  obtain ⟨u, hu, -, hsnapu⟩ := @exists_snap _ (faces.map cornersOf) hne false p
  obtain ⟨v, hv, -, hsnapv⟩ := @exists_snap _ (faces.map cornersOf) hne false q
  have hway : ∀ {p q : Point3 ℝ} {u v : Nat},
      (ofFaces (vs.map Point3.exact) (faces.map cornersOf)).snap? false p.exact = .ok (some u) →
      (ofFaces (vs.map Point3.exact) (faces.map cornersOf)).snap? false q.exact = .ok (some v) →
      (ofFaces (vs.map Point3.exact) (faces.map cornersOf)).geodesic? false p.exact q.exact =
        (ofFaces (vs.map Point3.exact) (faces.map cornersOf)).wayOver p.exact q.exact u v := by
    intro p q u v hp hq
    rw [geodesic?, hp, hq]
    rfl
  have hback := Graph.shortestPath?_reverse (metric_ofFaces hcorners) (undirected_ofFaces hcorners)
    (size_graph.symm ▸ hu) (size_graph.symm ▸ hv)
  rw [hway hsnapu hsnapv, hway hsnapv hsnapu]
  rcases wayOver_cases hcorners hu hv p q with
    ⟨hnone, hthere⟩ | ⟨path, x, hsome, line, htwo, hhead, hlast, hlength, hthere⟩
  · rcases wayOver_cases hcorners hv hu q p with ⟨-, hback'⟩ | ⟨path', x', hsome', -⟩
    · exact ⟨_, _, hthere, hback', rfl, rfl, fun _ => rfl, fun htrue => by cases htrue⟩
    · rw [hnone, hsome'] at hback
      cases hback
  · rcases wayOver_cases hcorners hv hu q p with
      ⟨hnone', -⟩ | ⟨path', x', hsome', line', -, -, -, hlength', hback'⟩
    · rw [hsome, hnone'] at hback
      cases hback
    · rw [hsome, hsome'] at hback
      obtain rfl : x' = x := Exact.number.inj (Option.some.inj hback)
      have hsame : Point3.lineLength line' = Point3.lineLength line := by
        rw [hlength, hlength']
        ring
      refine ⟨_, _, hthere, hback', rfl, ?_, fun hfalse => (by cases hfalse), fun _ =>
        ⟨line, rfl, htwo, hhead, hlast, rfl, Point3.dist_le_lineLength hhead hlast⟩⟩
      show some (Exact.number _) = some (Exact.number _)
      rw [hsame]

/-- A triangle and a vertex by itself, which no way reaches. -/
theorem geodesics_measured_triangle :
    ∃ m : Mesh Exact, ofFaces? ([⟨0, 0, 0⟩, ⟨4, 0, 0⟩, ⟨0, 3, 0⟩, ⟨9, 9, 9⟩].map Point3.exact)
        [(0, 1, 2)] = .ok m ∧
      ∃ there back,
        m.geodesic? false (Point3.exact ⟨0, 0, 0⟩) (Point3.exact ⟨3, 1, 1⟩) = .ok there ∧
        m.geodesic? false (Point3.exact ⟨3, 1, 1⟩) (Point3.exact ⟨0, 0, 0⟩) = .ok back ∧
        back.reachable = there.reachable ∧ back.distance = there.distance ∧
        (there.reachable = true → ∃ line : List (Point3 ℝ), 2 ≤ line.length ∧
          there.distance = some (.number (Point3.lineLength line)) ∧
          dist (Point3.place ⟨0, 0, 0⟩) (Point3.place ⟨3, 1, 1⟩) ≤ Point3.lineLength line) := by
  obtain ⟨m, hm, hways⟩ := geodesics_measured
    [⟨0, 0, 0⟩, ⟨4, 0, 0⟩, ⟨0, 3, 0⟩, ⟨9, 9, 9⟩] [(0, 1, 2)]
    (List.cons_ne_nil _ _) (by simp [IndicesIn])
  obtain ⟨there, back, hthere, hback, hreachable, hdistance, -, hline⟩ :=
    hways ⟨0, 0, 0⟩ ⟨3, 1, 1⟩
  refine ⟨m, hm, there, back, hthere, hback, hreachable, hdistance, fun htrue => ?_⟩
  obtain ⟨line, -, htwo, -, -, hlength, hle⟩ := hline htrue
  exact ⟨line, htwo, hlength, hle⟩

end Mesh
end FieldScript
