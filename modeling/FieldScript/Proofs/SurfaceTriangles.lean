import FieldScript.Geodesic
import Mathlib.Data.List.Nodup
import Mathlib.Data.List.Pairwise
import Mathlib.Logic.Relation
import Mathlib.Tactic.Ring

/-!
# The triangles of a surface

The triangles of a lattice fit together: every edge is a side of one or
two of them, of one exactly on the border, and two triangles run along a
common edge in opposite directions. All of this is in the list of the
sides, each from one end to the other: no side stands there twice
(`nodup_sides`), and which sides stand there is read off the coordinates of
their ends (`side_iff`). An edge then belongs to as many triangles as its
two directions stand in the list (`Mesh.facesAt_eq`).
-/

namespace FieldScript

/-! ## Meshes of triangles -/

namespace Mesh

/-- The sides of all triangles. -/
def sidesOf (faces : List Triangle) : List (Nat × Nat) := faces.flatMap sides

/-- A side of a triangle, in either direction. -/
def Edge (faces : List Triangle) (u v : Nat) : Prop := (u, v) ∈ sidesOf faces ∨ (v, u) ∈ sidesOf faces

/-- How many triangles have this edge. -/
def facesAt (faces : List Triangle) (u v : Nat) : Nat :=
  faces.countP fun t => (u, v) ∈ sides t ∨ (v, u) ∈ sides t

/-- Three different vertices of a mesh with this many. -/
def Proper (size : Nat) : Triangle → Prop
  | (a, b, c) => (a < size ∧ b < size ∧ c < size) ∧ a ≠ b ∧ b ≠ c ∧ c ≠ a

/-- A connected surface that is cut into triangles: every edge belongs to
one or two, to one exactly at the border, and neighbours run along their
edge in opposite directions. -/
structure Triangulation (size : Nat) (faces : List Triangle) (border : List (Nat × Nat)) : Prop where
  proper : ∀ t ∈ faces, Proper size t
  nodup : faces.Nodup
  shared : ∀ u v, Edge faces u v → facesAt faces u v = 1 ∨ facesAt faces u v = 2
  border_iff : ∀ u v, facesAt faces u v = 1 ↔ (u, v) ∈ border ∨ (v, u) ∈ border
  border_nodup : border.Nodup
  border_lt : ∀ e ∈ border, e.1 < e.2
  oriented : ∀ s ∈ faces, ∀ t ∈ faces, s ≠ t → ∀ u v, (u, v) ∈ sides s →
    (u, v) ∈ sides t ∨ (v, u) ∈ sides t → (v, u) ∈ sides t ∧ (u, v) ∉ sides t
  connected : ∀ u < size, ∀ v < size, Relation.ReflTransGen (Edge faces) u v

variable {faces : List Triangle} {size u v : Nat}

theorem Edge.symm (h : Edge faces u v) : Edge faces v u := Or.symm h

theorem edge_reachable_symm (h : Relation.ReflTransGen (Edge faces) u v) :
    Relation.ReflTransGen (Edge faces) v u := by
  induction h with
  | refl => exact .refl
  | tail _ hedge ih => exact (Relation.ReflTransGen.single hedge.symm).trans ih

/-- A triangle has an edge in one direction at most. -/
theorem count_sides {t : Triangle} (h : Proper size t) (u v : Nat) :
    (sides t).count (u, v) + (sides t).count (v, u) =
      if (u, v) ∈ sides t ∨ (v, u) ∈ sides t then 1 else 0 := by
  obtain ⟨a, b, c⟩ := t
  obtain ⟨-, hab, hbc, hca⟩ := h
  have hnodup : (sides (a, b, c)).Nodup := by
    simp [sides, hab, hbc, hca, hab.symm, hca.symm]
  have honce : ¬ ((u, v) ∈ sides (a, b, c) ∧ (v, u) ∈ sides (a, b, c)) := by
    simp only [sides, List.mem_cons, Prod.mk.injEq, List.not_mem_nil, or_false]
    omega
  by_cases huv : (u, v) ∈ sides (a, b, c)
  · rw [if_pos (Or.inl huv), List.count_eq_one_of_mem hnodup huv,
      List.count_eq_zero_of_not_mem fun hvu => honce ⟨huv, hvu⟩]
  · rw [List.count_eq_zero_of_not_mem huv]
    by_cases hvu : (v, u) ∈ sides (a, b, c)
    · rw [if_pos (Or.inr hvu), List.count_eq_one_of_mem hnodup hvu]
    · rw [if_neg (not_or.mpr ⟨huv, hvu⟩), List.count_eq_zero_of_not_mem hvu]

/-- An edge belongs to a triangle for each direction in which it is a
side. -/
theorem facesAt_eq (h : ∀ t ∈ faces, Proper size t) (u v : Nat) :
    facesAt faces u v = (sidesOf faces).count (u, v) + (sidesOf faces).count (v, u) := by
  induction faces with
  | nil => rfl
  | cons t faces ih =>
      obtain ⟨ht, hfaces⟩ := List.forall_mem_cons.mp h
      have hfirst := count_sides ht u v
      rw [facesAt] at ih ⊢
      rw [List.countP_cons, ih hfaces, sidesOf, sidesOf, List.flatMap_cons, List.count_append,
        List.count_append]
      simp only [decide_eq_true_eq]
      omega

theorem facesAt_of_nodup (h : ∀ t ∈ faces, Proper size t) (hnodup : (sidesOf faces).Nodup) (u v : Nat) :
    facesAt faces u v = (if (u, v) ∈ sidesOf faces then 1 else 0) +
      if (v, u) ∈ sidesOf faces then 1 else 0 := by
  have hcount : ∀ e, (sidesOf faces).count e = if e ∈ sidesOf faces then 1 else 0 := by
    intro e
    split
    · exact List.count_eq_one_of_mem hnodup ‹_›
    · exact List.count_eq_zero_of_not_mem ‹_›
  rw [facesAt_eq h, hcount, hcount]

/-- If no side stands twice, no two triangles have a side in common. -/
theorem disjoint_of_nodup (hnodup : (sidesOf faces).Nodup) {s t : Triangle} (hs : s ∈ faces)
    (ht : t ∈ faces) (hne : s ≠ t) : (sides s).Disjoint (sides t) := by
  have hsymm : Std.Symm (Function.onFun List.Disjoint sides) := ⟨fun _ _ h _ hs ht => h ht hs⟩
  exact (List.nodup_flatMap.mp hnodup).2.forall hs ht hne

theorem nodup_of_sides (hnodup : (sidesOf faces).Nodup) : faces.Nodup := by
  refine (List.nodup_flatMap.mp hnodup).2.imp fun {s t} hdisjoint heq => ?_
  subst heq
  obtain ⟨a, b, c⟩ := s
  have hmem : (a, b) ∈ sides (a, b, c) := List.mem_cons_self
  exact hdisjoint hmem hmem

end Mesh

/-! ## Lattices -/

namespace Lattice

open Mesh

/-- The index of the vertex in column `i` of row `j`. -/
def vertex (n i j : Nat) : Nat := j * (n + 1) + i

variable {n i j k l p q : Nat}

theorem vertex_inj (hi : i ≤ n) (hk : k ≤ n) (h : vertex n i j = vertex n k l) : i = k ∧ j = l := by
  rw [vertex, vertex] at h
  have hcolumns : i = k := by
    have hmod := congrArg (· % (n + 1)) h
    simpa [Nat.mul_add_mod', Nat.mod_eq_of_lt (Nat.lt_succ_of_le hi),
      Nat.mod_eq_of_lt (Nat.lt_succ_of_le hk)] using hmod
  subst hcolumns
  exact ⟨rfl, Nat.eq_of_mul_eq_mul_right n.succ_pos (Nat.add_right_cancel h)⟩

theorem vertex_lt (hi : i ≤ n) (hj : j ≤ n) : vertex n i j < (n + 1) ^ 2 := by
  have hrows : j * (n + 1) ≤ n * (n + 1) := Nat.mul_le_mul_right _ hj
  have hsquare : (n + 1) ^ 2 = n * (n + 1) + (n + 1) := by ring
  rw [vertex, hsquare]
  omega

/-- Every index is that of a vertex. -/
theorem exists_vertex {u : Nat} (hu : u < (n + 1) ^ 2) : ∃ i j, i ≤ n ∧ j ≤ n ∧ u = vertex n i j := by
  refine ⟨u % (n + 1), u / (n + 1), Nat.lt_succ_iff.mp (Nat.mod_lt _ n.succ_pos), ?_, ?_⟩
  · rw [← Nat.lt_succ_iff]
    exact Nat.div_lt_of_lt_mul (by rwa [← pow_two])
  · rw [vertex, Nat.mul_comm, Nat.div_add_mod]

theorem cellTriangles_eq (n i j : Nat) : cellTriangles n i j =
    [(vertex n i j, vertex n i (j + 1), vertex n (i + 1) j),
      (vertex n (i + 1) j, vertex n i (j + 1), vertex n (i + 1) (j + 1))] := by
  have habove : j * (n + 1) + i + (n + 1) = (j + 1) * (n + 1) + i := by ring
  simp only [cellTriangles, vertex, habove]
  simp only [Nat.add_assoc]

/-- A side of a triangle of the cell in column `i` of row `j`, by the
coordinates of its ends: from column `k` of row `l` to column `p` of
row `q`. -/
def RunsIn (i j k l p q : Nat) : Prop :=
  (k = i ∧ l = j ∧ p = i ∧ q = j + 1) ∨ (k = i ∧ l = j + 1 ∧ p = i + 1 ∧ q = j) ∨
  (k = i + 1 ∧ l = j ∧ p = i ∧ q = j) ∨ (k = i + 1 ∧ l = j ∧ p = i ∧ q = j + 1) ∨
  (k = i ∧ l = j + 1 ∧ p = i + 1 ∧ q = j + 1) ∨ (k = i + 1 ∧ l = j + 1 ∧ p = i + 1 ∧ q = j)

theorem RunsIn.unique {i' j' : Nat} (h : RunsIn i j k l p q) (h' : RunsIn i' j' k l p q) :
    i = i' ∧ j = j' := by
  unfold RunsIn at h h'
  rcases h with h | h | h | h | h | h <;> omega

theorem mem_sidesOf_cell {u v : Nat} : (u, v) ∈ sidesOf (cellTriangles n i j) ↔
    ∃ k l p q, u = vertex n k l ∧ v = vertex n p q ∧ RunsIn i j k l p q := by
  rw [cellTriangles_eq]
  simp only [sidesOf, sides, List.flatMap_cons, List.flatMap_nil, List.append_nil, List.cons_append,
    List.nil_append, List.mem_cons, Prod.mk.injEq, List.not_mem_nil, or_false]
  constructor
  · rintro (h | h | h | h | h | h)
    · exact ⟨i, j, i, j + 1, h.1, h.2, Or.inl ⟨rfl, rfl, rfl, rfl⟩⟩
    · exact ⟨i, j + 1, i + 1, j, h.1, h.2, Or.inr (Or.inl ⟨rfl, rfl, rfl, rfl⟩)⟩
    · exact ⟨i + 1, j, i, j, h.1, h.2, by simp [RunsIn]⟩
    · exact ⟨i + 1, j, i, j + 1, h.1, h.2, by simp [RunsIn]⟩
    · exact ⟨i, j + 1, i + 1, j + 1, h.1, h.2, by simp [RunsIn]⟩
    · exact ⟨i + 1, j + 1, i + 1, j, h.1, h.2, by simp [RunsIn]⟩
  · rintro ⟨k, l, p, q, rfl, rfl, hruns⟩
    rcases hruns with ⟨rfl, rfl, rfl, rfl⟩ | ⟨rfl, rfl, rfl, rfl⟩ | ⟨rfl, rfl, rfl, rfl⟩ |
      ⟨rfl, rfl, rfl, rfl⟩ | ⟨rfl, rfl, rfl, rfl⟩ | ⟨rfl, rfl, rfl, rfl⟩ <;> simp

/-- The ends of a side decide which cell it is a side of. -/
theorem cell_unique {u v i' j' : Nat} (hi : i < n) (hi' : i' < n)
    (h : (u, v) ∈ sidesOf (cellTriangles n i j)) (h' : (u, v) ∈ sidesOf (cellTriangles n i' j')) :
    i = i' ∧ j = j' := by
  obtain ⟨k, l, p, q, rfl, rfl, hruns⟩ := mem_sidesOf_cell.mp h
  obtain ⟨k', l', p', q', hu, hv, hruns'⟩ := mem_sidesOf_cell.mp h'
  have hcolumns : k ≤ n ∧ p ≤ n := by
    unfold RunsIn at hruns
    omega
  have hcolumns' : k' ≤ n ∧ p' ≤ n := by
    unfold RunsIn at hruns'
    omega
  obtain ⟨rfl, rfl⟩ := vertex_inj hcolumns.1 hcolumns'.1 hu
  obtain ⟨rfl, rfl⟩ := vertex_inj hcolumns.2 hcolumns'.2 hv
  exact hruns.unique hruns'

theorem sidesOf_triangles (n : Nat) : sidesOf (triangles n) =
    (List.range n).flatMap fun j => (List.range n).flatMap fun i => sidesOf (cellTriangles n i j) := by
  simp only [sidesOf, triangles, List.flatMap_assoc]

/-- No side stands twice. -/
theorem nodup_sides (hn : 0 < n) : (sidesOf (triangles n)).Nodup := by
  have hcell : ∀ i j, (sidesOf (cellTriangles n i j)).Nodup := by
    intro i j
    simp [sidesOf, sides, cellTriangles]
    omega
  rw [sidesOf_triangles]
  refine List.nodup_flatMap.mpr ⟨fun j _ => List.nodup_flatMap.mpr ⟨fun i _ => hcell i j, ?_⟩, ?_⟩
  · refine (List.nodup_range (n := n)).imp_of_mem fun hi hi' hne (u, v) hmem hmem' => hne ?_
    exact (cell_unique (List.mem_range.mp hi) (List.mem_range.mp hi') hmem hmem').1
  · refine (List.nodup_range (n := n)).imp fun hne (u, v) hmem hmem' => hne ?_
    obtain ⟨i, hi, hmem⟩ := List.mem_flatMap.mp hmem
    obtain ⟨i', hi', hmem'⟩ := List.mem_flatMap.mp hmem'
    exact (cell_unique (List.mem_range.mp hi) (List.mem_range.mp hi') hmem hmem').2

/-- One of the triangles runs from column `k` of row `l` to column `p` of
row `q`: up, except along the last column, and down, except along the
first; to the right, except along the first row, and to the left, except
along the last; and both ways across each cell. -/
def Runs (n k l p q : Nat) : Prop :=
  (p = k ∧ q = l + 1 ∧ k < n ∧ l < n) ∨ (p = k ∧ l = q + 1 ∧ 0 < k ∧ k ≤ n ∧ q < n) ∨
  (p = k + 1 ∧ q = l ∧ k < n ∧ 0 < l ∧ l ≤ n) ∨ (k = p + 1 ∧ q = l ∧ p < n ∧ l < n) ∨
  (p = k + 1 ∧ l = q + 1 ∧ k < n ∧ q < n) ∨ (k = p + 1 ∧ q = l + 1 ∧ p < n ∧ l < n)

theorem runs_iff : Runs n k l p q ↔ ∃ i j, i < n ∧ j < n ∧ RunsIn i j k l p q := by
  constructor
  · unfold Runs RunsIn
    rintro (h | h | h | h | h | h)
    · exact ⟨k, l, by omega⟩
    · exact ⟨k - 1, q, by omega⟩
    · exact ⟨k, l - 1, by omega⟩
    · exact ⟨p, l, by omega⟩
    · exact ⟨k, q, by omega⟩
    · exact ⟨p, l, by omega⟩
  · rintro ⟨i, j, hi, hj, h⟩
    rcases h with h | h | h | h | h | h
    · exact Or.inl (by omega)
    · exact Or.inr (Or.inr (Or.inr (Or.inr (Or.inl (by omega)))))
    · exact Or.inr (Or.inr (Or.inr (Or.inl (by omega))))
    · exact Or.inr (Or.inr (Or.inr (Or.inr (Or.inr (by omega)))))
    · exact Or.inr (Or.inr (Or.inl (by omega)))
    · exact Or.inr (Or.inl (by omega))

/-- The sides of the triangles, by the coordinates of their ends. -/
theorem mem_sidesOf_triangles {u v : Nat} : (u, v) ∈ sidesOf (triangles n) ↔
    ∃ k l p q, u = vertex n k l ∧ v = vertex n p q ∧ Runs n k l p q := by
  simp only [sidesOf_triangles, List.mem_flatMap, List.mem_range, mem_sidesOf_cell, runs_iff]
  constructor
  · rintro ⟨j, hj, i, hi, k, l, p, q, hu, hv, h⟩
    exact ⟨k, l, p, q, hu, hv, i, j, hi, hj, h⟩
  · rintro ⟨k, l, p, q, hu, hv, i, j, hi, hj, h⟩
    exact ⟨j, hj, i, hi, k, l, p, q, hu, hv, h⟩

theorem side_iff (hk : k ≤ n) (hp : p ≤ n) :
    (vertex n k l, vertex n p q) ∈ sidesOf (triangles n) ↔ Runs n k l p q := by
  rw [mem_sidesOf_triangles]
  constructor
  · rintro ⟨k', l', p', q', hu, hv, h⟩
    have hcolumns : k' ≤ n ∧ p' ≤ n := by
      unfold Runs at h
      omega
    obtain ⟨rfl, rfl⟩ := vertex_inj hk hcolumns.1 hu
    obtain ⟨rfl, rfl⟩ := vertex_inj hp hcolumns.2 hv
    exact h
  · exact fun h => ⟨k, l, p, q, rfl, rfl, h⟩

/-! ### The border -/

/-- The `m`-th edges of the first and the last row, and of the first and the
last column. -/
def borderAt (n m : Nat) : List (Nat × Nat) :=
  [(vertex n m 0, vertex n (m + 1) 0), (vertex n m n, vertex n (m + 1) n),
    (vertex n 0 m, vertex n 0 (m + 1)), (vertex n n m, vertex n n (m + 1))]

def border (n : Nat) : List (Nat × Nat) := (List.range n).flatMap (borderAt n)

theorem length_border (n : Nat) : (border n).length = 4 * n := by
  simp [border, borderAt, List.length_flatMap, Nat.mul_comm]

/-- From column `k` of row `l` to column `p` of row `q` is one of the
`m`-th edges. -/
def BordersAt (n m k l p q : Nat) : Prop :=
  (k = m ∧ l = 0 ∧ p = m + 1 ∧ q = 0) ∨ (k = m ∧ l = n ∧ p = m + 1 ∧ q = n) ∨
  (k = 0 ∧ l = m ∧ p = 0 ∧ q = m + 1) ∨ (k = n ∧ l = m ∧ p = n ∧ q = m + 1)

theorem mem_borderAt {m u v : Nat} : (u, v) ∈ borderAt n m ↔
    ∃ k l p q, u = vertex n k l ∧ v = vertex n p q ∧ BordersAt n m k l p q := by
  simp only [borderAt, List.mem_cons, Prod.mk.injEq, List.not_mem_nil, or_false]
  constructor
  · rintro (h | h | h | h)
    · exact ⟨m, 0, m + 1, 0, h.1, h.2, Or.inl ⟨rfl, rfl, rfl, rfl⟩⟩
    · exact ⟨m, n, m + 1, n, h.1, h.2, Or.inr (Or.inl ⟨rfl, rfl, rfl, rfl⟩)⟩
    · exact ⟨0, m, 0, m + 1, h.1, h.2, Or.inr (Or.inr (Or.inl ⟨rfl, rfl, rfl, rfl⟩))⟩
    · exact ⟨n, m, n, m + 1, h.1, h.2, Or.inr (Or.inr (Or.inr ⟨rfl, rfl, rfl, rfl⟩))⟩
  · rintro ⟨k, l, p, q, rfl, rfl, h⟩
    rcases h with ⟨rfl, rfl, rfl, rfl⟩ | ⟨rfl, rfl, rfl, rfl⟩ | ⟨rfl, rfl, rfl, rfl⟩ |
      ⟨rfl, rfl, rfl, rfl⟩ <;> simp

theorem mem_border {u v : Nat} : (u, v) ∈ border n ↔
    ∃ m k l p q, m < n ∧ u = vertex n k l ∧ v = vertex n p q ∧ BordersAt n m k l p q := by
  simp only [border, List.mem_flatMap, List.mem_range, mem_borderAt]
  constructor
  · rintro ⟨m, hm, k, l, p, q, h⟩
    exact ⟨m, k, l, p, q, hm, h⟩
  · rintro ⟨m, k, l, p, q, hm, h⟩
    exact ⟨m, hm, k, l, p, q, h⟩

theorem border_lt {e : Nat × Nat} (he : e ∈ border n) : e.1 < e.2 := by
  have hrow : ∀ i j, vertex n i j < vertex n (i + 1) j := fun i j => Nat.lt_succ_self _
  have hcolumn : ∀ i j, vertex n i j < vertex n i (j + 1) := by
    intro i j
    rw [vertex, vertex, Nat.succ_mul]
    omega
  obtain ⟨u, v⟩ := e
  obtain ⟨m, k, l, p, q, -, rfl, rfl, h⟩ := mem_border.mp he
  clear he
  rcases h with ⟨rfl, rfl, rfl, rfl⟩ | ⟨rfl, rfl, rfl, rfl⟩ | ⟨rfl, rfl, rfl, rfl⟩ |
    ⟨rfl, rfl, rfl, rfl⟩
  · exact hrow _ _
  · exact hrow _ _
  · exact hcolumn _ _
  · exact hcolumn _ _

theorem BordersAt.le {m : Nat} (h : BordersAt n m k l p q) (hm : m < n) : k ≤ n ∧ l ≤ n ∧ p ≤ n ∧ q ≤ n := by
  unfold BordersAt at h
  omega

theorem nodup_border (hn : 0 < n) : (border n).Nodup := by
  refine List.nodup_flatMap.mpr ⟨fun m _ => ?_, ?_⟩
  · have harea : 0 < n * (n + 1) := Nat.mul_pos hn n.succ_pos
    have hnext : (m + 1) * (n + 1) = m * (n + 1) + (n + 1) := Nat.succ_mul _ _
    simp only [borderAt, vertex, hnext, List.nodup_cons, List.mem_cons, Prod.mk.injEq,
      List.not_mem_nil, or_false, not_false_eq_true, List.nodup_nil, and_true]
    omega
  · refine (List.nodup_range (n := n)).imp_of_mem fun {m m'} hm hm' hne (u, v) hmem hmem' => hne ?_
    obtain ⟨k, l, p, q, rfl, rfl, h⟩ := mem_borderAt.mp hmem
    obtain ⟨k', l', p', q', hu, hv, h'⟩ := mem_borderAt.mp hmem'
    have hle := h.le (List.mem_range.mp hm)
    have hle' := h'.le (List.mem_range.mp hm')
    obtain ⟨rfl, rfl⟩ := vertex_inj hle.1 hle'.1 hu
    obtain ⟨rfl, rfl⟩ := vertex_inj hle.2.2.1 hle'.2.2.1 hv
    unfold BordersAt at h h'
    rcases h with h | h | h | h <;> omega

/-- An edge of the border is a side in one direction only. -/
theorem BordersAt.runs {m : Nat} (h : BordersAt n m k l p q) (hn : 0 < n) (hm : m < n) :
    (Runs n k l p q ∧ ¬ Runs n p q k l) ∨ (¬ Runs n k l p q ∧ Runs n p q k l) := by
  rcases h with ⟨rfl, rfl, rfl, rfl⟩ | ⟨rfl, rfl, rfl, rfl⟩ | ⟨rfl, rfl, rfl, rfl⟩ |
    ⟨rfl, rfl, rfl, rfl⟩
  · -- the first row is passed to the left
    exact Or.inr ⟨by unfold Runs; omega, Or.inr (Or.inr (Or.inr (Or.inl (by omega))))⟩
  · exact Or.inl ⟨Or.inr (Or.inr (Or.inl (by omega))), by unfold Runs; omega⟩
  · exact Or.inl ⟨Or.inl (by omega), by unfold Runs; omega⟩
  · -- the last column is passed downwards
    exact Or.inr ⟨by unfold Runs; omega, Or.inr (Or.inl (by omega))⟩

/-- A side whose other direction is no side is on the border. -/
theorem borders_of_runs (h : Runs n k l p q) (hback : ¬ Runs n p q k l) :
    ∃ m < n, BordersAt n m k l p q ∨ BordersAt n m p q k l := by
  have hup : ¬ (k = p ∧ l = q + 1 ∧ p < n ∧ q < n) := fun h => hback (Or.inl h)
  have hdown : ¬ (k = p ∧ q = l + 1 ∧ 0 < p ∧ p ≤ n ∧ l < n) := fun h => hback (Or.inr (Or.inl h))
  have hright : ¬ (k = p + 1 ∧ l = q ∧ p < n ∧ 0 < q ∧ q ≤ n) := fun h =>
    hback (Or.inr (Or.inr (Or.inl h)))
  have hleft : ¬ (p = k + 1 ∧ l = q ∧ k < n ∧ q < n) := fun h =>
    hback (Or.inr (Or.inr (Or.inr (Or.inl h))))
  rcases h with h | h | h | h | h | h
  · exact ⟨l, by omega, Or.inl (Or.inr (Or.inr (Or.inl (by omega))))⟩
  · exact ⟨q, by omega, Or.inr (Or.inr (Or.inr (Or.inr (by omega))))⟩
  · exact ⟨k, by omega, Or.inl (Or.inr (Or.inl (by omega)))⟩
  · exact ⟨p, by omega, Or.inr (Or.inl (by omega))⟩
  · exact absurd (Or.inr (Or.inr (Or.inr (Or.inr (Or.inr (by omega)))))) hback
  · exact absurd (Or.inr (Or.inr (Or.inr (Or.inr (Or.inl (by omega)))))) hback

/-! ### The mesh -/

theorem length_triangles (n : Nat) : (triangles n).length = 2 * n ^ 2 := by
  simp [triangles, cellTriangles, List.length_flatMap]
  ring

theorem proper_triangles {t : Triangle} (ht : t ∈ triangles n) : Proper ((n + 1) ^ 2) t := by
  obtain ⟨j, hj, ht⟩ := List.mem_flatMap.mp ht
  obtain ⟨i, hi, ht⟩ := List.mem_flatMap.mp ht
  have hj := List.mem_range.mp hj
  have hi := List.mem_range.mp hi
  have hlt : ∀ {i j}, i ≤ n → j ≤ n → vertex n i j < (n + 1) ^ 2 := vertex_lt
  have hne : ∀ {i j k l}, i ≤ n → k ≤ n → (i ≠ k ∨ j ≠ l) → vertex n i j ≠ vertex n k l := by
    intro i j k l hi hk hdiffer heq
    have := vertex_inj hi hk heq
    omega
  rw [cellTriangles_eq, List.mem_cons, List.mem_singleton] at ht
  rcases ht with rfl | rfl
  · exact ⟨⟨hlt (by omega) (by omega), hlt (by omega) (by omega), hlt (by omega) (by omega)⟩,
      hne (by omega) (by omega) (by omega), hne (by omega) (by omega) (by omega),
      hne (by omega) (by omega) (by omega)⟩
  · exact ⟨⟨hlt (by omega) (by omega), hlt (by omega) (by omega), hlt (by omega) (by omega)⟩,
      hne (by omega) (by omega) (by omega), hne (by omega) (by omega) (by omega),
      hne (by omega) (by omega) (by omega)⟩

/-- The ends of an edge that belongs to one triangle. -/
theorem facesAt_eq_one_iff (hn : 0 < n) (u v : Nat) :
    facesAt (triangles n) u v = 1 ↔ (u, v) ∈ border n ∨ (v, u) ∈ border n := by
  rw [facesAt_of_nodup (fun _ => proper_triangles) (nodup_sides hn)]
  have hborder : ∀ {u v}, (u, v) ∈ sidesOf (triangles n) → (v, u) ∉ sidesOf (triangles n) →
      (u, v) ∈ border n ∨ (v, u) ∈ border n := by
    intro u v huv hvu
    obtain ⟨k, l, p, q, rfl, rfl, hruns⟩ := mem_sidesOf_triangles.mp huv
    have hback : ¬ Runs n p q k l := fun h =>
      hvu (mem_sidesOf_triangles.mpr ⟨p, q, k, l, rfl, rfl, h⟩)
    obtain ⟨m, hm, h | h⟩ := borders_of_runs hruns hback
    · exact Or.inl (mem_border.mpr ⟨m, k, l, p, q, hm, rfl, rfl, h⟩)
    · exact Or.inr (mem_border.mpr ⟨m, p, q, k, l, hm, rfl, rfl, h⟩)
  have honce : ∀ {u v}, (u, v) ∈ border n →
      ((u, v) ∈ sidesOf (triangles n) ∧ (v, u) ∉ sidesOf (triangles n)) ∨
        ((u, v) ∉ sidesOf (triangles n) ∧ (v, u) ∈ sidesOf (triangles n)) := by
    intro u v huv
    obtain ⟨m, k, l, p, q, hm, rfl, rfl, h⟩ := mem_border.mp huv
    have hle := h.le hm
    rw [side_iff hle.1 hle.2.2.1, side_iff hle.2.2.1 hle.1]
    exact h.runs hn hm
  constructor
  · intro hone
    by_cases huv : (u, v) ∈ sidesOf (triangles n)
    · by_cases hvu : (v, u) ∈ sidesOf (triangles n)
      · rw [if_pos huv, if_pos hvu] at hone
        cases hone
      · exact hborder huv hvu
    · by_cases hvu : (v, u) ∈ sidesOf (triangles n)
      · exact (hborder hvu huv).symm
      · rw [if_neg huv, if_neg hvu] at hone
        cases hone
  · rintro (h | h)
    · rcases honce h with ⟨huv, hvu⟩ | ⟨huv, hvu⟩ <;> simp [huv, hvu]
    · rcases honce h with ⟨hvu, huv⟩ | ⟨hvu, huv⟩ <;> simp [huv, hvu]

/-- Neighbours along a row or a column are joined by an edge. -/
theorem edge_up (hn : 0 < n) (hi : i ≤ n) (hj : j < n) :
    Edge (triangles n) (vertex n i j) (vertex n i (j + 1)) := by
  rw [Edge, side_iff hi hi, side_iff hi hi]
  by_cases h : i < n
  · exact Or.inl (Or.inl ⟨rfl, rfl, h, hj⟩)
  · exact Or.inr (Or.inr (Or.inl (by omega)))

theorem edge_right (hn : 0 < n) (hi : i < n) (hj : j ≤ n) :
    Edge (triangles n) (vertex n i j) (vertex n (i + 1) j) := by
  rw [Edge, side_iff hi.le hi, side_iff hi hi.le]
  by_cases h : 0 < j
  · exact Or.inl (Or.inr (Or.inr (Or.inl (by omega))))
  · exact Or.inr (Or.inr (Or.inr (Or.inr (Or.inl (by omega)))))

/-- Every vertex is joined to the first one: down its column, then along
the first row. -/
theorem connected_first (hn : 0 < n) (hi : i ≤ n) (hj : j ≤ n) :
    Relation.ReflTransGen (Edge (triangles n)) (vertex n 0 0) (vertex n i j) := by
  induction j with
  | zero =>
      induction i with
      | zero => exact .refl
      | succ i ih => exact (ih (by omega)).tail (edge_right hn hi hj)
  | succ j ih => exact (ih (by omega)).tail (edge_up hn hi hj)

/-- The triangles of a lattice cut a connected surface, with one edge on
the border for each side of a cell that is there. -/
theorem triangulation (hn : 0 < n) : Triangulation ((n + 1) ^ 2) (triangles n) (border n) where
  proper := fun _ => proper_triangles
  nodup := nodup_of_sides (nodup_sides hn)
  shared := by
    intro u v h
    rw [facesAt_of_nodup (fun _ => proper_triangles) (nodup_sides hn)]
    rcases h with h | h
    · rw [if_pos h]
      split
      · exact Or.inr rfl
      · exact Or.inl rfl
    · rw [if_pos h]
      split
      · exact Or.inr rfl
      · exact Or.inl rfl
  border_iff := facesAt_eq_one_iff hn
  border_nodup := nodup_border hn
  border_lt := fun _ => border_lt
  oriented := by
    intro s hs t ht hne u v huv hshared
    have hdisjoint := disjoint_of_nodup (nodup_sides hn) hs ht hne
    exact ⟨hshared.resolve_left (hdisjoint huv), hdisjoint huv⟩
  connected := by
    intro u hu v hv
    obtain ⟨i, j, hi, hj, rfl⟩ := exists_vertex hu
    obtain ⟨k, l, hk, hl, rfl⟩ := exists_vertex hv
    exact (edge_reachable_symm (connected_first hn hi hj)).trans (connected_first hn hk hl)

end Lattice
end FieldScript
