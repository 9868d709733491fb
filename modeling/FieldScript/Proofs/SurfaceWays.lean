import FieldScript.Proofs.FloatLengths
import FieldScript.Proofs.Outcome
import FieldScript.Proofs.Reachability
import FieldScript.Proofs.SurfaceTriangles

/-!
# Ways on a surface

The mesh of a field is a triangulation (`SurfaceMesh.sample_triangulated`).
On a triangulation whose edges have finite lengths the search joins any two
vertices: the lengths are square roots and far from the bound up to which
sums stay finite (`Mesh.measured_ofFaces`). So there is a way between any
two points, if there are vertices at which it can begin and end. A mesh
that is indexed for quick look-up finds none for a point that is infinitely
far from all vertices, and goes on with an index out of range.
-/

namespace FieldScript

open Binary64

/-! ## The lengths of edges -/

theorem Point3.isFinite_of_distance {p q : Point3 Float} (h : Scalar.isFinite (p.distance q) = true) :
    p.isFinite = true ∧ q.isFinite = true := by
  have hsum := isFinite_of_sqrt h
  obtain ⟨hxy, hz⟩ := isFinite_of_add hsum
  obtain ⟨hx, hy⟩ := isFinite_of_add hxy
  have hside : ∀ {a b : Float}, ((a - b) * (a - b)).isFinite = true → a.isFinite = true ∧ b.isFinite = true :=
    fun h => isFinite_of_sub (isFinite_of_mul h).1
  have hx := hside hx
  have hy := hside hy
  have hz := hside hz
  constructor
  · exact Bool.and_eq_true_iff.mpr ⟨Bool.and_eq_true_iff.mpr ⟨hx.1, hy.1⟩, hz.1⟩
  · exact Bool.and_eq_true_iff.mpr ⟨Bool.and_eq_true_iff.mpr ⟨hx.2, hy.2⟩, hz.2⟩

theorem Point3.isLength_distance {p q : Point3 Float} (h : Scalar.isFinite (p.distance q) = true) :
    IsLength (p.distance q) ∧ magnitude (p.distance q) ≤ 2 ^ (960 : ℤ) := by
  have hroot : p.distance q = (p.sub q).normSquared.sqrt := rfl
  rw [hroot] at h ⊢
  exact sqrt_isLength h

namespace Mesh

variable {vs : List (Point3 Float)} {faces : List Triangle} {border : List (Nat × Nat)}
  {u v : Nat} {w : Float}

theorem mem_lengths {α : Type} [Scalar α] {points : Array (Point3 α)} {w : α} :
    (u, v, w) ∈ lengths points faces ↔
      (u, v) ∈ sidesOf faces ∧ w = (vertexAt points u).distance (vertexAt points v) := by
  simp only [lengths, sidesOf, List.mem_flatMap, List.mem_map, Prod.mk.injEq, Prod.exists]
  constructor
  · rintro ⟨a, b, c, ht, u', v', hside, rfl, rfl, rfl⟩
    exact ⟨⟨a, b, c, ht, hside⟩, rfl⟩
  · rintro ⟨⟨a, b, c, ht, hside⟩, rfl⟩
    exact ⟨a, b, c, ht, u, v, hside, rfl, rfl, rfl⟩

/-- The lengths of all edges are finite. -/
def FiniteEdges (vs : List (Point3 Float)) (faces : List Triangle) : Prop :=
  ∀ e ∈ lengths vs.toArray faces, Scalar.isFinite e.2.2 = true

theorem isLength_of_mem (h : FiniteEdges vs faces) (hw : (u, v, w) ∈ lengths vs.toArray faces) :
    IsLength w ∧ magnitude w ≤ 2 ^ (960 : ℤ) := by
  have hfinite : Scalar.isFinite w = true := h (u, v, w) hw
  obtain ⟨-, hdistance⟩ := mem_lengths.mp hw
  rw [hdistance] at hfinite ⊢
  exact Point3.isLength_distance hfinite

theorem edge_lt {size : Nat} (h : ∀ t ∈ faces, Proper size t) (huv : Edge faces u v) :
    u < size ∧ v < size := by
  have hside : ∀ {u v}, (u, v) ∈ sidesOf faces → u < size ∧ v < size := by
    intro u v huv
    obtain ⟨⟨a, b, c⟩, ht, hside⟩ := List.mem_flatMap.mp huv
    obtain ⟨⟨ha, hb, hc⟩, -⟩ := h _ ht
    simp only [sides, List.mem_cons, Prod.mk.injEq, List.not_mem_nil, or_false] at hside
    rcases hside with ⟨rfl, rfl⟩ | ⟨rfl, rfl⟩ | ⟨rfl, rfl⟩
    · exact ⟨ha, hb⟩
    · exact ⟨hb, hc⟩
    · exact ⟨hc, ha⟩
  rcases huv with huv | hvu
  · exact hside huv
  · exact (hside hvu).symm

/-- Arcs lead along edges, and there is one each way. -/
theorem mem_around_ofFaces (h : ∀ t ∈ faces, Proper vs.length t) :
    (v, w) ∈ (ofFaces vs faces).graph.around u ↔
      (u, v, w) ∈ lengths vs.toArray faces ∨ (v, u, w) ∈ lengths vs.toArray faces := by
  rw [ofFaces, Graph.mem_around_ofEdges, and_iff_right_of_imp]
  rintro (hw | hw)
  · exact (edge_lt h (Or.inl (mem_lengths.mp hw).1)).1
  · exact (edge_lt h (Or.inr (mem_lengths.mp hw).1)).1

/-- The sums of finite edge lengths stay finite and in order. -/
theorem measured_ofFaces (h : ∀ t ∈ faces, Proper vs.length t) (hfinite : FiniteEdges vs faces) :
    (ofFaces vs faces).graph.Measured
      (fun d => IsLength d ∧ magnitude d ≤ 2 ^ (1020 : ℤ)) magnitude where
  zero := by
    have hzero : (Scalar.ofInt 0 : Float).toModel.unpack = .zero .positive := rfl
    show IsLength (Scalar.ofInt 0) ∧ magnitude (Scalar.ofInt 0) ≤ 2 ^ (1020 : ℤ)
    rw [isLength_iff, magnitude, hzero]
    exact ⟨trivial, by simp only [size]; positivity⟩
  arc := by
    intro u v w hw
    rw [mem_around_ofFaces h] at hw
    have hedge : Edge faces u v := hw.imp (fun hw => (mem_lengths.mp hw).1) fun hw => (mem_lengths.mp hw).1
    have hlength := hw.elim (isLength_of_mem hfinite) (isLength_of_mem hfinite)
    refine ⟨?_, fun d hd => ?_⟩
    · rw [ofFaces, Graph.size_ofEdges]
      exact (edge_lt h hedge).2
    · obtain ⟨hsum, hle, hbound⟩ := add_isLength hd.1 hlength.1 hd.2 hlength.2
      exact ⟨⟨hsum, hbound⟩, hle⟩
  less_iff := fun a b ha hb => decide_eq_true_iff.trans (ha.1.lt_iff hb.1)
  eq_of_equal := fun a b ha hb heq => ha.1.magnitude_eq hb.1 heq
  isFinite := fun a ha => ha.1.1

/-- Any two vertices of a triangulation are joined by a path. -/
theorem exists_shortestPath (h : Triangulation vs.length faces border) (hfinite : FiniteEdges vs faces)
    (hu : u < vs.length) (hv : v < vs.length) :
    ∃ path d, (ofFaces vs faces).shortestPath u v = .ok (some (path, d)) := by
  have hsize : (ofFaces vs faces).graph.size = vs.length := Graph.size_ofEdges _ _
  have hjoined : ∀ u v, Edge faces u v → (ofFaces vs faces).graph.Joined u v := by
    rintro u v (hside | hside)
    · exact ⟨_, (mem_around_ofFaces h.proper).mpr (Or.inl (mem_lengths.mpr ⟨hside, rfl⟩))⟩
    · exact ⟨_, (mem_around_ofFaces h.proper).mpr (Or.inr (mem_lengths.mpr ⟨hside, rfl⟩))⟩
  obtain ⟨path, d, hpath⟩ := Graph.exists_shortestPath? (measured_ofFaces h.proper hfinite)
    (hsize ▸ hu) (Relation.ReflTransGen.mono hjoined _ _ (h.connected u hu v hv))
  have hindex : ∀ {i : Nat}, i < vs.length → index? (ofFaces vs faces).vertices.size i = .ok i := by
    intro i hi
    have hsize : (ofFaces vs faces).vertices.size = vs.length := by simp [ofFaces]
    rw [index?, hsize, if_pos (by simp [hi]), Int.toNat_natCast]
  refine ⟨path, d, ?_⟩
  rw [shortestPath, hindex hu, hindex hv]
  exact congrArg Except.ok hpath

/-! ## Where ways begin -/

end Mesh

theorem Scalar.leastIndex?_lt {α : Type} [Scalar α] {xs : List α} (h : xs ≠ []) :
    ∃ i < xs.length, Scalar.leastIndex? xs = some i := by
  have hfold : ∀ (better : Nat × α → Nat × α → Nat × α),
      (∀ best next, better best next = next ∨ better best next = best) →
      ∀ (rest : List (Nat × α)) (first : Nat × α), rest.foldl better first ∈ first :: rest := by
    intro better hbetter rest
    induction rest with
    | nil => simp
    | cons next rest ih =>
        intro first
        rw [List.foldl_cons]
        have hmem := ih (better first next)
        rcases hbetter first next with heq | heq <;> rw [heq] at hmem ⊢ <;> grind
  have hlt : ∀ p ∈ xs.zipIdx.map fun p => (p.2, p.1), p.1 < xs.length := by
    intro p hp
    obtain ⟨⟨x, i⟩, hmem, rfl⟩ := List.mem_map.mp hp
    exact List.snd_lt_of_mem_zipIdx hmem
  rw [Scalar.leastIndex?]
  split
  · rename_i hnil
    rw [List.map_eq_nil_iff, List.zipIdx_eq_nil_iff] at hnil
    exact absurd hnil h
  · rename_i first rest hcons
    refine ⟨_, hlt _ ?_, rfl⟩
    rw [hcons]
    refine hfold _ (fun best next => ?_) rest first
    split
    · exact Or.inl rfl
    · exact Or.inr rfl

namespace Mesh

variable {m : Mesh Float} {a b p : Point3 Float} {vs : List (Point3 Float)}
  {faces : List Triangle} {border : List (Nat × Nat)}

theorem exists_nearest (h : 0 < m.vertices.size) (p : Point3 Float) :
    ∃ u < m.vertices.size, m.nearest? p = some u := by
  have hne : (m.vertices.toList.map fun v => v.distance p) ≠ [] := by
    rw [Ne, List.map_eq_nil_iff, ← List.length_eq_zero_iff, Array.length_toList]
    exact h.ne'
  obtain ⟨u, hu, hleast⟩ := Scalar.leastIndex?_lt hne
  rw [List.length_map, Array.length_toList] at hu
  exact ⟨u, hu, hleast⟩

/-- The look-up in an index goes wrong for the point. -/
def Misses (m : Mesh Float) (indexed : Bool) (p : Point3 Float) : Prop :=
  indexed = true ∧ m.isBeyond p = true

instance (m : Mesh Float) (indexed : Bool) (p : Point3 Float) : Decidable (m.Misses indexed p) :=
  inferInstanceAs (Decidable (_ ∧ _))

/-- A way begins at a vertex, unless the look-up goes wrong: then the number
of vertices stands for one. -/
theorem snap_cases (indexed : Bool) (hsize : 0 < m.vertices.size)
    (hvertices : ∀ q ∈ m.vertices.toList, Point3.isFinite q = true) (hp : p.isFinite = true) :
    (¬ m.Misses indexed p ∧ ∃ u < m.vertices.size, m.snap? indexed p = .ok (some u)) ∨
      (m.Misses indexed p ∧ m.snap? indexed p = .ok (some m.vertices.size)) := by
  obtain ⟨u, hu, hnearest⟩ := exists_nearest hsize p
  have hfinite : (p :: m.vertices.toList).all Point3.isFinite = true :=
    List.all_eq_true.mpr (List.forall_mem_cons.mpr ⟨hp, hvertices⟩)
  rw [snap?, hnearest]
  cases indexed with
  | false => exact Or.inl ⟨fun h => (by cases h.1), u, hu, rfl⟩
  | true =>
      cases hbeyond : m.isBeyond p with
      | false => exact Or.inl ⟨fun h => (by cases hbeyond.symm.trans h.2), u, hu, by simp [hfinite]⟩
      | true => exact Or.inr ⟨⟨rfl, hbeyond⟩, by simp [hfinite]⟩

theorem size_ofFaces (vs : List (Point3 Float)) (faces : List Triangle) :
    (ofFaces vs faces).vertices.size = vs.length := by
  simp [ofFaces]

/-- Every vertex has an edge, so that its coordinates are finite. -/
theorem isFinite_of_finiteEdges (h : Triangulation vs.length faces border) (hfinite : FiniteEdges vs faces)
    (hsize : 1 < vs.length) {q : Point3 Float} (hq : q ∈ vs) : q.isFinite = true := by
  obtain ⟨v, hv, rfl⟩ := List.mem_iff_getElem.mp hq
  obtain ⟨u, hu, hne⟩ : ∃ u < vs.length, v ≠ u := by
    by_cases hzero : v = 0
    · exact ⟨1, hsize, by omega⟩
    · exact ⟨0, by omega, hzero⟩
  have hvertex : vertexAt vs.toArray v = vs[v] := by simp [vertexAt, hv]
  rcases (h.connected v hv u hu).cases_head with heq | ⟨w, hedge, -⟩
  · exact absurd heq hne
  · rw [← hvertex]
    rcases hedge with hside | hside
    · exact (Point3.isFinite_of_distance (hfinite (v, w, _) (mem_lengths.mpr ⟨hside, rfl⟩))).1
    · exact (Point3.isFinite_of_distance (hfinite (w, v, _) (mem_lengths.mpr ⟨hside, rfl⟩))).2

/-- There is a way between any two points, unless the look-up of one of
them goes wrong. -/
theorem geodesic?_cases (indexed : Bool) (h : Triangulation vs.length faces border) (hfinite : FiniteEdges vs faces)
    (hsize : 1 < vs.length) (ha : a.isFinite = true) (hb : b.isFinite = true) :
    (¬ (ofFaces vs faces).Misses indexed a ∧ ¬ (ofFaces vs faces).Misses indexed b ∧
      ∃ way, (ofFaces vs faces).geodesic? indexed a b = .ok way ∧ way.reachable = true) ∨
    (((ofFaces vs faces).Misses indexed a ∨ (ofFaces vs faces).Misses indexed b) ∧
      (ofFaces vs faces).geodesic? indexed a b = .error .outOfBounds) := by
  have hvertices : ∀ q ∈ (ofFaces vs faces).vertices.toList, Point3.isFinite q = true := by
    intro q hq
    exact isFinite_of_finiteEdges h hfinite hsize (by simpa [ofFaces] using hq)
  have hpos : 0 < (ofFaces vs faces).vertices.size := size_ofFaces vs faces ▸ (by omega)
  have hbeyond : ∀ {n : Nat}, index? n n = .error .outOfBounds := by
    intro n
    simp [index?]
  have hinside : ∀ {n u : Nat}, u < n → index? n u = .ok u := by
    intro n u hu
    simp [index?, hu]
  rcases snap_cases indexed hpos hvertices ha with ⟨hna, u, hu, hsnap⟩ | ⟨hma, hsnap⟩
  · rcases snap_cases indexed hpos hvertices hb with ⟨hnb, v, hv, hsnap'⟩ | ⟨hmb, hsnap'⟩
    · refine Or.inl ⟨hna, hnb, ?_⟩
      rw [size_ofFaces] at hu hv
      obtain ⟨path, d, hpath⟩ := exists_shortestPath h hfinite hu hv
      rw [geodesic?, hsnap, hsnap']
      show ∃ way, wayOver _ _ _ _ _ = _ ∧ _
      rw [wayOver, hpath]
      exact ⟨_, rfl, rfl⟩
    · refine Or.inr ⟨Or.inr hmb, ?_⟩
      rw [geodesic?, hsnap, hsnap']
      show wayOver _ _ _ _ _ = _
      rw [wayOver, shortestPath, hinside hu, hbeyond]
      rfl
  · refine Or.inr ⟨Or.inl hma, ?_⟩
    have hover : ∀ v : Nat, (ofFaces vs faces).wayOver a b (ofFaces vs faces).vertices.size v =
        .error .outOfBounds := by
      intro v
      rw [wayOver, shortestPath, hbeyond]
      rfl
    rcases snap_cases indexed hpos hvertices hb with ⟨-, v, -, hsnap'⟩ | ⟨-, hsnap'⟩ <;>
    · rw [geodesic?, hsnap, hsnap']
      exact hover _

end Mesh

/-! ## The mesh of a field -/

theorem Interval.length_spaced (r : Interval Float) (count : Nat) : (r.spaced count).length = count := by
  rw [Interval.spaced]
  split
  · rename_i hone
    exact (beq_iff_eq.mp hone).symm
  · simp

/-- One coordinate for each point of the grid. -/
theorem Lattice.size_grid {xRange yRange : Interval Float} {nx ny : Int} {x y : Samples}
    (h : Lattice.grid xRange yRange nx ny = .ok (x, y)) : x.data.size = ny.toNat * nx.toNat := by
  have hspaced : ∀ {r : Interval Float} {n : Int} {vs : List Float}, r.spaced? n = .ok vs →
      vs.length = n.toNat := by
    intro r n vs hvs
    rw [Interval.spaced?] at hvs
    split at hvs
    · cases hvs
    · cases hvs
      exact Interval.length_spaced r _
  obtain ⟨xs, hxs, h⟩ := bind_eq_ok.mp h
  obtain ⟨ys, hys, h⟩ := bind_eq_ok.mp h
  obtain ⟨rfl, -⟩ := Prod.mk.inj (Except.ok.inj h)
  simp [hspaced hxs, hspaced hys]

namespace SurfaceMesh

variable {f : Field} {xRange yRange : Interval Float} {steps : Int} {h : Float} {m : SurfaceMesh}

/-- A mesh has the triangles of a lattice and one vertex for each of its
points. -/
theorem sample_eq (hsteps : 0 ≤ steps) (hm : sample f xRange yRange steps h = .ok m) :
    m.faces = Lattice.triangles steps.toNat ∧ m.vertices.length = (steps.toNat + 1) ^ 2 := by
  obtain ⟨⟨x, y⟩, hgrid, hm⟩ := bind_eq_ok.mp hm
  obtain ⟨values, -, hm⟩ := bind_eq_ok.mp hm
  obtain ⟨z, -, hm⟩ := bind_eq_ok.mp hm
  obtain ⟨sizes, -, hm⟩ := bind_eq_ok.mp hm
  obtain ⟨slopes, -, hm⟩ := bind_eq_ok.mp hm
  obtain rfl := Except.ok.inj hm
  have hcount : (steps + 1).toNat = steps.toNat + 1 := by omega
  refine ⟨rfl, ?_⟩
  rw [pointsOf, List.length_map, List.length_range, Lattice.size_grid hgrid, hcount, sq]

/-- The mesh of a field cuts a connected surface into triangles, whatever
the field. If its edges have finite lengths, then there is a way between
any two points of finite coordinates, except where the look-up in an index
goes wrong: for a point that is infinitely far from all vertices. -/
theorem sample_joined (hsteps : 1 ≤ steps) (hm : sample f xRange yRange steps h = .ok m) :
    m.vertices.length = (steps.toNat + 1) ^ 2 ∧ m.faces.length = 2 * steps.toNat ^ 2 ∧
      (Lattice.border steps.toNat).length = 4 * steps.toNat ∧
      Mesh.Triangulation m.vertices.length m.faces (Lattice.border steps.toNat) ∧
      (Mesh.FiniteEdges m.vertices m.faces →
        ∀ (indexed : Bool) (a b : Point3 Float), a.isFinite = true → b.isFinite = true →
          if (Mesh.ofSurface m).Misses indexed a ∨ (Mesh.ofSurface m).Misses indexed b then
            (Mesh.ofSurface m).geodesic? indexed a b = .error .outOfBounds
          else ∃ way, (Mesh.ofSurface m).geodesic? indexed a b = .ok way ∧ way.reachable = true) := by
  obtain ⟨hfaces, hvertices⟩ := sample_eq (by omega) hm
  have hpos : 0 < steps.toNat := by omega
  have htriangulation : Mesh.Triangulation m.vertices.length m.faces (Lattice.border steps.toNat) := by
    rw [hvertices, hfaces]
    exact Lattice.triangulation hpos
  refine ⟨hvertices, hfaces ▸ Lattice.length_triangles _, Lattice.length_border _, htriangulation, ?_⟩
  intro hfinite indexed a b ha hb
  have hmany : 1 < m.vertices.length := by
    rw [hvertices]
    exact Nat.one_lt_pow two_ne_zero (by omega)
  have hcases := Mesh.geodesic?_cases indexed htriangulation hfinite hmany ha hb
  rw [Mesh.ofSurface]
  rcases hcases with ⟨hna, hnb, hway⟩ | ⟨hmisses, herror⟩
  · rw [if_neg (not_or.mpr ⟨hna, hnb⟩)]
    exact hway
  · rw [if_pos hmisses]
    exact herror

/-- The plane that rises with the first coordinate. -/
def ramp : Field := fun x _ => .ok x

/-- What is computed of the mesh of a plane: its edges have finite lengths, a
point above it is not beyond it, a point far away is, and the look-up of
that one goes wrong. -/
theorem exists_sample_ramp : ∃ m, sample ramp .standard .standard 2 = .ok m ∧
    Mesh.FiniteEdges m.vertices m.faces ∧ (Mesh.ofSurface m).isBeyond ⟨0, 0, 5⟩ = false ∧
    (Mesh.ofSurface m).isBeyond ⟨1, 1, 1⟩ = false ∧ (Mesh.ofSurface m).isBeyond ⟨1e200, 0, 0⟩ = true := by
  have hchecked : ((sample ramp .standard .standard 2).toOption.map fun m =>
      (Mesh.lengths m.vertices.toArray m.faces).all (fun e => Scalar.isFinite e.2.2) &&
        !(Mesh.ofSurface m).isBeyond ⟨0, 0, 5⟩ && !(Mesh.ofSurface m).isBeyond ⟨1, 1, 1⟩ &&
        (Mesh.ofSurface m).isBeyond ⟨1e200, 0, 0⟩) = some true := by
    decide +kernel
  obtain ⟨m, hm, hchecks⟩ := Option.map_eq_some_iff.mp hchecked
  simp only [Bool.and_eq_true, Bool.not_eq_true', List.all_eq_true] at hchecks
  obtain ⟨⟨⟨hfinite, habove⟩, hcorner⟩, hfar⟩ := hchecks
  exact ⟨m, eq_ok_of_toOption hm, hfinite, habove, hcorner, hfar⟩

theorem sample_joined_ramp : ∃ m, sample ramp .standard .standard 2 = .ok m ∧
    m.vertices.length = 9 ∧ m.faces.length = 8 ∧ (Lattice.border 2).length = 8 ∧
    Mesh.Triangulation m.vertices.length m.faces (Lattice.border 2) ∧
    (∃ way, (Mesh.ofSurface m).geodesic? true ⟨0, 0, 5⟩ ⟨1, 1, 1⟩ = .ok way ∧ way.reachable = true) ∧
    (Mesh.ofSurface m).geodesic? true ⟨1e200, 0, 0⟩ ⟨1, 1, 1⟩ = .error .outOfBounds := by
  obtain ⟨m, hm, hfinite, habove, hcorner, hfar⟩ := exists_sample_ramp
  have hjoined := sample_joined (by decide) hm
  obtain ⟨hvertices, hfaces, hborder, htriangulation, hways⟩ := hjoined
  have hways := hways hfinite true
  refine ⟨m, hm, hvertices, hfaces, hborder, htriangulation, ?_, ?_⟩
  · have hway := hways ⟨0, 0, 5⟩ ⟨1, 1, 1⟩ (by decide +kernel) (by decide +kernel)
    rwa [if_neg] at hway
    rintro (⟨-, hbeyond⟩ | ⟨-, hbeyond⟩)
    · exact absurd (habove.symm.trans hbeyond) Bool.false_ne_true
    · exact absurd (hcorner.symm.trans hbeyond) Bool.false_ne_true
  · have hway := hways ⟨1e200, 0, 0⟩ ⟨1, 1, 1⟩ (by decide +kernel) (by decide +kernel)
    rwa [if_pos (Or.inl ⟨rfl, hfar⟩)] at hway

/-- Not every point has a way: the index of a plane has no vertex for one
that is far away. -/
theorem not_joined_far : ¬ ∀ (f : Field) (xRange yRange : Interval Float) (steps : Int) (h : Float)
    (m : SurfaceMesh), 1 ≤ steps → sample f xRange yRange steps h = .ok m →
    Mesh.FiniteEdges m.vertices m.faces →
    ∀ (indexed : Bool) (a b : Point3 Float), a.isFinite = true → b.isFinite = true →
      ∃ way, (Mesh.ofSurface m).geodesic? indexed a b = .ok way ∧ way.reachable = true := by
  intro hclaim
  obtain ⟨m, hm, hfinite, -⟩ := exists_sample_ramp
  obtain ⟨way, hway, -⟩ := hclaim ramp _ _ 2 _ m (by decide) hm hfinite true ⟨1e200, 0, 0⟩ ⟨1, 1, 1⟩
    (by decide +kernel) (by decide +kernel)
  have hfails : ((sample ramp .standard .standard 2).toOption.map fun m =>
      ((Mesh.ofSurface m).geodesic? true ⟨1e200, 0, 0⟩ ⟨1, 1, 1⟩).isOk) = some false := by
    decide +kernel
  rw [hm] at hfails
  have hnone : ((Mesh.ofSurface m).geodesic? true ⟨1e200, 0, 0⟩ ⟨1, 1, 1⟩).isOk = false :=
    Option.some.inj hfails
  rw [hway] at hnone
  cases hnone

end SurfaceMesh
end FieldScript
