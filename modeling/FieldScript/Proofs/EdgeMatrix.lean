import FieldScript.Proofs.SurfaceWays

/-!
# The matrix of edge lengths

The edges of a mesh are kept twice: as arcs from each vertex, where an
edge stands once for every side of a triangle that it is, and as the
entries of a sparse matrix. Filling a matrix adds up what falls into one
place, so the edges go through a table first, in which a later length
replaces an earlier one. Both tell the same edges (`Mesh.EdgesAgree`):

- the places of the table are distinct (`nodup_putEdge`), so that nothing
  is added up and the matrix has the entries of the table, in order
  (`foldl_addEntry`);
- no length is lost in the table, because distances are the same both ways
  and a side that comes again has the length it had (`foldl_putEdge`).

Nothing is asked of the triangles but that their corners are vertices.
-/

namespace FieldScript

variable {α : Type}

/-! ## Arcs -/

namespace Graph

/-- The lengths of the arcs from `u` to `v`, in order. -/
def lengthsTo (g : Graph α) (u v : Nat) : List α :=
  (g.around u).filterMap fun a => if a.1 = v then some a.2 else none

variable {g : Graph α} {a b u v n : Nat} {w : α}

theorem around_addArc (ha : a < g.size) (u : Nat) :
    (g.addArc a b w).around u = g.around u ++ if u = a then [(b, w)] else [] := by
  rw [around, around, addArc, Array.getElem?_modify]
  by_cases hu : a = u
  · subst hu
    have hlt : a < g.neighbours.size := ha
    simp [hlt]
  · rw [if_neg hu, if_neg (Ne.symm hu), List.append_nil]

theorem lengthsTo_addEdge (ha : a < g.size) (hb : b < g.size) (u v : Nat) :
    (g.addEdge a b w).lengthsTo u v = g.lengthsTo u v ++
      ((if u = a ∧ v = b then [w] else []) ++ if u = b ∧ v = a then [w] else []) := by
  have hone : ∀ i j : Nat, (if u = i then [(j, w)] else []).filterMap
      (fun a => if a.1 = v then some a.2 else none) = if u = i ∧ v = j then [w] else [] := by
    intro i j
    by_cases hu : u = i <;> by_cases hv : v = j <;> simp [hu, hv, Ne.symm]
  rw [addEdge, lengthsTo, around_addArc (by rwa [size_addArc]), around_addArc ha,
    List.filterMap_append, List.filterMap_append, hone, hone, List.append_assoc]
  rfl

/-- There are the same arcs both ways, however many. -/
theorem lengthsTo_ofEdges_comm {edges : List (Nat × Nat × α)}
    (h : ∀ e ∈ edges, e.1 < n ∧ e.2.1 < n) (u v : Nat) :
    (ofEdges n edges).lengthsTo u v = (ofEdges n edges).lengthsTo v u := by
  have hfold : ∀ (es : List (Nat × Nat × α)) (g : Graph α),
      (∀ e ∈ es, e.1 < g.size ∧ e.2.1 < g.size) → g.lengthsTo u v = g.lengthsTo v u →
      (es.foldl (fun g e => g.addEdge e.1 e.2.1 e.2.2) g).lengthsTo u v =
        (es.foldl (fun g e => g.addEdge e.1 e.2.1 e.2.2) g).lengthsTo v u := by
    intro es
    induction es with
    | nil => exact fun _ _ hg => hg
    | cons e es ih =>
        intro g hes hg
        obtain ⟨⟨ha, hb⟩, hes⟩ := List.forall_mem_cons.mp hes
        rw [List.foldl_cons]
        refine ih _ (fun e' he' => ?_) ?_
        · have hsize : (g.addEdge e.1 e.2.1 e.2.2).size = g.size := by simp [addEdge]
          rw [hsize]
          exact hes e' he'
        · have hswap : ∀ i j : Nat, (if v = i ∧ u = j then [e.2.2] else []) =
              if u = j ∧ v = i then [e.2.2] else [] := fun i j => if_congr and_comm rfl rfl
          rw [lengthsTo_addEdge ha hb, lengthsTo_addEdge ha hb, hg, hswap, hswap]
          congr 1
          -- The length is put in front of itself or of nothing.
          split <;> split <;> rfl
  rw [ofEdges_eq]
  refine hfold edges _ (by rwa [size_isolated]) ?_
  rw [lengthsTo, lengthsTo, around_isolated, around_isolated, List.filterMap_nil, List.filterMap_nil]

end Graph

/-! ## Tables and matrices -/

namespace Mesh

/-- Row and column of an entry. -/
def place (e : Nat × Nat × α) : Nat × Nat := (e.1, e.2.1)

/-- The edge with its lower end first. -/
def upright (e : Nat × Nat × α) : Nat × Nat × α := (min e.1 e.2.1, max e.1 e.2.1, e.2.2)

/-- The entry stands before the other one, by rows and then by columns. -/
def Before (e f : Nat × Nat × α) : Prop := e.1 < f.1 ∨ e.1 = f.1 ∧ e.2.1 < f.2.1

variable {e f : Nat × Nat × α} {es ns : List (Nat × Nat × α)}

theorem same_place_iff : (e.1 == f.1 && e.2.1 == f.2.1) = true ↔ place e = place f := by
  rw [Bool.and_eq_true, beq_iff_eq, beq_iff_eq, place, place, Prod.mk.injEq]

theorem mem_putEdge (h : (es.map place).Nodup) :
    f ∈ putEdge e es ↔ f = e ∨ f ∈ es ∧ place f ≠ place e := by
  induction es with
  | nil => simp [putEdge]
  | cons g es ih =>
      obtain ⟨hg, hes⟩ := List.nodup_cons.mp h
      rw [putEdge]
      by_cases hplace : place e = place g
      · rw [if_pos (same_place_iff.mpr hplace), List.mem_cons, List.mem_cons]
        refine or_congr_right ⟨fun hf => ⟨Or.inr hf, fun heq => hg ?_⟩, ?_⟩
        · rw [← hplace, ← heq]
          exact List.mem_map_of_mem hf
        · rintro ⟨rfl | hf, hne⟩
          · exact absurd hplace.symm hne
          · exact hf
      · rw [if_neg (mt same_place_iff.mp hplace), List.mem_cons, List.mem_cons, ih hes]
        constructor
        · rintro (rfl | rfl | ⟨hf, hne⟩)
          · exact Or.inr ⟨Or.inl rfl, Ne.symm hplace⟩
          · exact Or.inl rfl
          · exact Or.inr ⟨Or.inr hf, hne⟩
        · rintro (rfl | ⟨rfl | hf, hne⟩)
          · exact Or.inr (Or.inl rfl)
          · exact Or.inl rfl
          · exact Or.inr (Or.inr ⟨hf, hne⟩)

/-- A table has one entry for each place. -/
theorem nodup_putEdge (e : Nat × Nat × α) (h : (es.map place).Nodup) :
    ((putEdge e es).map place).Nodup := by
  induction es with
  | nil => exact List.nodup_singleton _
  | cons g es ih =>
      obtain ⟨hg, hes⟩ := List.nodup_cons.mp h
      rw [putEdge]
      by_cases hplace : place e = place g
      · rw [if_pos (same_place_iff.mpr hplace), List.map_cons, hplace]
        exact h
      · rw [if_neg (mt same_place_iff.mp hplace), List.map_cons]
        refine List.nodup_cons.mpr ⟨fun hmem => ?_, ih hes⟩
        obtain ⟨f, hf, heq⟩ := List.mem_map.mp hmem
        rcases (mem_putEdge hes).mp hf with rfl | ⟨hf, -⟩
        · exact hplace heq
        · exact hg (heq ▸ List.mem_map_of_mem hf)

/-- Nothing is lost in the table if a place that comes again has the
length it had. -/
theorem foldl_putEdge (hsame : ∀ e ∈ es ++ ns, ∀ f ∈ es ++ ns, place e = place f → e = f)
    (h : (es.map place).Nodup) :
    ((ns.foldl (fun es e => putEdge e es) es).map place).Nodup ∧
      ∀ f, f ∈ ns.foldl (fun es e => putEdge e es) es ↔ f ∈ es ++ ns := by
  induction ns generalizing es with
  | nil => exact ⟨h, fun f => by rw [List.foldl_nil, List.append_nil]⟩
  | cons e ns ih =>
      have hput : ∀ f, f ∈ putEdge e es ↔ f ∈ es ∨ f = e := by
        intro f
        rw [mem_putEdge h, or_comm, or_congr_left']
        intro hne
        refine ⟨fun hf => hf.1, fun hf => ⟨hf, fun hplace => hne ?_⟩⟩
        exact hsame f (List.mem_append_left _ hf) e
          (List.mem_append_right _ List.mem_cons_self) hplace
      have hmem : ∀ f, f ∈ putEdge e es ++ ns ↔ f ∈ es ++ e :: ns := by
        intro f
        rw [List.mem_append, hput, List.mem_append, List.mem_cons, or_assoc]
      obtain ⟨hnodup, hall⟩ := ih (fun e' he' f' hf' =>
        hsame e' ((hmem e').mp he') f' ((hmem f').mp hf')) (nodup_putEdge e h)
      exact ⟨hnodup, fun f => (hall f).trans (hmem f)⟩

variable [Scalar α]

/-- An entry for a new place goes in its order, and is added to none. -/
theorem addEntry_of_new (hnew : ∀ f ∈ es, place e ≠ place f) (h : es.Pairwise Before) :
    (addEntry e es).Perm (e :: es) ∧ (addEntry e es).Pairwise Before := by
  induction es with
  | nil => exact ⟨List.Perm.refl _, List.pairwise_singleton _ _⟩
  | cons g es ih =>
      obtain ⟨hg, hnew⟩ := List.forall_mem_cons.mp hnew
      obtain ⟨hfirst, hsorted⟩ := List.pairwise_cons.mp h
      have hbefore : (decide (e.1 < g.1) || (e.1 == g.1 && decide (e.2.1 < g.2.1))) = true ↔
          Before e g := by
        simp [Before]
      rw [addEntry, if_neg (mt same_place_iff.mp hg)]
      by_cases hlt : Before e g
      · rw [if_pos (hbefore.mpr hlt)]
        refine ⟨List.Perm.refl _, List.pairwise_cons.mpr ⟨fun f hf => ?_, h⟩⟩
        rcases List.mem_cons.mp hf with rfl | hf
        · exact hlt
        · have hgf := hfirst f hf
          simp only [Before] at hlt hgf ⊢
          omega
      · rw [if_neg (mt hbefore.mp hlt)]
        obtain ⟨hperm, hpairwise⟩ := ih hnew hsorted
        refine ⟨(hperm.cons g).trans (List.Perm.swap e g es), ?_⟩
        refine List.pairwise_cons.mpr ⟨fun f hf => ?_, hpairwise⟩
        rcases List.mem_cons.mp (hperm.mem_iff.mp hf) with rfl | hf
        · rw [place, place, Ne, Prod.mk.injEq] at hg
          simp only [Before] at hlt ⊢
          omega
        · exact hfirst f hf

/-- Where no place comes twice, the matrix has the entries that it was
made of. -/
theorem foldl_addEntry (hnodup : ((es ++ ns).map place).Nodup) (h : es.Pairwise Before) :
    (ns.foldl (fun es e => addEntry e es) es).Perm (es ++ ns) ∧
      (ns.foldl (fun es e => addEntry e es) es).Pairwise Before := by
  induction ns generalizing es with
  | nil =>
      rw [List.append_nil]
      exact ⟨List.Perm.refl _, h⟩
  | cons e ns ih =>
      have hnew : ∀ f ∈ es, place e ≠ place f := by
        intro f hf heq
        rw [List.map_append, List.map_cons] at hnodup
        exact (List.nodup_append.mp hnodup).2.2 _ (List.mem_map_of_mem hf) _
          List.mem_cons_self heq.symm
      obtain ⟨hperm, hsorted⟩ := addEntry_of_new hnew h
      have hmiddle : (addEntry e es ++ ns).Perm (es ++ e :: ns) :=
        (hperm.append_right ns).trans List.perm_middle.symm
      obtain ⟨hall, hordered⟩ := ih ((hmiddle.map place).nodup_iff.mpr hnodup) hsorted
      exact ⟨hall.trans hmiddle, hordered⟩

/-! ## The edges of a mesh -/

/-- The arcs and the matrix tell the same edges: there are the same arcs
both ways, the lengths of arcs are the entries of the matrix, and that one
has a single entry for each pair of ends. -/
structure EdgesAgree (m : Mesh α) : Prop where
  symmetric : ∀ u v, m.graph.lengthsTo u v = m.graph.lengthsTo v u
  stored : ∀ u v w, (v, w) ∈ m.graph.around u ↔ upright (u, v, w) ∈ m.edges
  lowerFirst : ∀ e ∈ m.edges, e.1 ≤ e.2.1
  sorted : m.edges.Pairwise Before

/-- All corners are vertices. -/
def CornersIn (n : Nat) (faces : List Triangle) : Prop :=
  ∀ t ∈ faces, t.1 < n ∧ t.2.1 < n ∧ t.2.2 < n

variable {vs : List (Point3 α)} {faces : List Triangle}

theorem lt_of_mem_lengths {n : Nat} (h : CornersIn n faces)
    (he : e ∈ lengths vs.toArray faces) : e.1 < n ∧ e.2.1 < n := by
  obtain ⟨u, v, w⟩ := e
  obtain ⟨⟨a, b, c⟩, ht, hside⟩ := List.mem_flatMap.mp (mem_lengths.mp he).1
  obtain ⟨ha, hb, hc⟩ := h _ ht
  simp only [sides, List.mem_cons, Prod.mk.injEq, List.not_mem_nil, or_false] at hside
  rcases hside with ⟨rfl, rfl⟩ | ⟨rfl, rfl⟩ | ⟨rfl, rfl⟩
  · exact ⟨ha, hb⟩
  · exact ⟨hb, hc⟩
  · exact ⟨hc, ha⟩

section Symmetric

variable (hsymm : ∀ p q : Point3 α, p.distance q = q.distance p)
include hsymm

/-- The ends of a side determine its length, whichever comes first. -/
theorem eq_of_place (he : e ∈ (lengths vs.toArray faces).map upright)
    (hf : f ∈ (lengths vs.toArray faces).map upright) (h : place e = place f) : e = f := by
  obtain ⟨⟨u, v, w⟩, hu, rfl⟩ := List.mem_map.mp he
  obtain ⟨⟨u', v', w'⟩, hu', rfl⟩ := List.mem_map.mp hf
  obtain ⟨-, rfl⟩ := mem_lengths.mp hu
  obtain ⟨-, rfl⟩ := mem_lengths.mp hu'
  simp only [place, upright, Prod.mk.injEq] at h ⊢
  refine ⟨h.1, h.2, ?_⟩
  obtain ⟨rfl, rfl⟩ | ⟨rfl, rfl⟩ : u = u' ∧ v = v' ∨ u = v' ∧ v = u' := by omega
  · rfl
  · exact hsymm _ _

/-- The matrix has the lengths of all sides, each pair of ends once. -/
theorem edges_ofFaces :
    (∀ e, e ∈ (ofFaces vs faces).edges ↔ e ∈ (lengths vs.toArray faces).map upright) ∧
      (ofFaces vs faces).edges.Pairwise Before := by
  have htable : (ofFaces vs faces).edgeTable =
      ((lengths vs.toArray faces).map upright).foldl (fun es e => putEdge e es) [] := by
    rw [List.foldl_map]
    rfl
  have hsame : ∀ e ∈ [] ++ (lengths vs.toArray faces).map upright,
      ∀ f ∈ [] ++ (lengths vs.toArray faces).map upright, place e = place f → e = f :=
    fun _ he _ hf => eq_of_place hsymm he hf
  obtain ⟨hnodup, hmem⟩ := foldl_putEdge hsame List.nodup_nil
  rw [← htable] at hnodup hmem
  obtain ⟨hperm, hsorted⟩ := foldl_addEntry hnodup List.Pairwise.nil
  exact ⟨fun e => hperm.mem_iff.trans (hmem e), hsorted⟩

/-- The two representations of the edges agree. -/
theorem edgesAgree_ofFaces (h : CornersIn vs.length faces) : (ofFaces vs faces).EdgesAgree where
  symmetric := Graph.lengthsTo_ofEdges_comm fun _ he => lt_of_mem_lengths h he
  stored u v w := by
    have hside : ∀ {u v}, (u, v, w) ∈ lengths vs.toArray faces → u < vs.length ∧ v < vs.length :=
      fun hmem => lt_of_mem_lengths h hmem
    rw [(edges_ofFaces hsymm).1, ofFaces, Graph.mem_around_ofEdges, List.mem_map]
    constructor
    · rintro ⟨-, hmem | hmem⟩
      · exact ⟨_, hmem, rfl⟩
      · refine ⟨_, hmem, ?_⟩
        simp only [upright, min_comm, max_comm]
    · rintro ⟨⟨u', v', w'⟩, hmem, heq⟩
      simp only [upright, Prod.mk.injEq] at heq
      obtain ⟨hmin, hmax, rfl⟩ := heq
      obtain ⟨rfl, rfl⟩ | ⟨rfl, rfl⟩ : u' = u ∧ v' = v ∨ u' = v ∧ v' = u := by omega
      · exact ⟨(hside hmem).1, Or.inl hmem⟩
      · exact ⟨(hside hmem).2, Or.inr hmem⟩
  lowerFirst e he := by
    obtain ⟨e', -, rfl⟩ := List.mem_map.mp (((edges_ofFaces hsymm).1 e).mp he)
    exact le_trans (min_le_left _ _) (le_max_left _ _)
  sorted := (edges_ofFaces hsymm).2

end Symmetric

end Mesh
end FieldScript
