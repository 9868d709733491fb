import FieldScript.Proofs.ExactNumbers
import FieldScript.Proofs.IsolineEnds

/-!
# Crossings of a level in exact arithmetic

A lattice of real samples has an edge between any two neighbouring nodes.
The level crosses an edge when one of its samples lies below the level
and the other does not; the crossing is where the samples, interpolated
along the edge, reach it (`RealGrid.isCrossing`). Marching squares finds
these crossings and nothing else: the ends of the segments of a cell are
the crossings of its edges, each once (`RealGrid.ends_cell`), so an edge
contributes its one crossing as often as cells have it
(`RealGrid.perm_edges`) — twice inside the lattice, once on its boundary
(`RealGrid.cellCount_eq`).

Nothing is assumed about the coordinates, which may even fall together.
-/

namespace FieldScript

/-- The point in exact arithmetic. -/
def Point2.exact (p : Point2 ℝ) : Point2 Exact := ⟨.number p.x, .number p.y⟩

namespace Contour

/-! ## Edges and cells -/

deriving instance DecidableEq for Edge

namespace Edge

/-- Row and column of the node at the left or lower end. -/
def start : Edge → Nat × Nat
  | horizontal j i => (j, i)
  | vertical j i => (j, i)

/-- Row and column of the node at the right or upper end. -/
def stop : Edge → Nat × Nat
  | horizontal j i => (j, i + 1)
  | vertical j i => (j + 1, i)

end Edge

/-- The four edges of the cell in a row and a column. -/
def cellEdges (c : Nat × Nat) : List Edge := [0, 1, 2, 3].map (Grid.cellEdge c.1 c.2)

theorem nodup_cellEdges (c : Nat × Nat) : (cellEdges c).Nodup := by
  simp [cellEdges, Grid.cellEdge]

/-- The ends of the segments, in order. -/
def endsOfSegments {α : Type} (segments : List (Segment α)) : List (Point2 α) :=
  segments.flatMap fun s => [s.1, s.2]

/-! ## Lattices of real samples -/

/-- Real samples at the nodes of a lattice, row by row. -/
structure RealGrid where
  xs : List ℝ
  ys : List ℝ
  rows : List (List ℝ)
  height : rows.length = ys.length
  width : ∀ row ∈ rows, row.length = xs.length

namespace RealGrid

/-- The isoline of a level in exact arithmetic. -/
noncomputable def segments (g : RealGrid) (level : ℝ) : List (Segment Exact) :=
  marchingSquares (g.rows.map (·.map .number)) (g.xs.map .number) (g.ys.map .number) (.number level)

/-- The place of the node in a row and a column. -/
def node (g : RealGrid) (n : Nat × Nat) : Point2 ℝ := ⟨g.xs.getD n.2 0, g.ys.getD n.1 0⟩

/-- The sample in a row and a column. -/
def sample (g : RealGrid) (n : Nat × Nat) : ℝ := (g.rows.getD n.1 []).getD n.2 0

/-- The edges between neighbouring nodes. -/
def edges (g : RealGrid) : List Edge :=
  (List.range g.ys.length ×ˢ List.range (g.xs.length - 1)).map (fun n => .horizontal n.1 n.2) ++
    (List.range (g.ys.length - 1) ×ˢ List.range g.xs.length).map fun n => .vertical n.1 n.2

/-- Row and column of each cell. -/
def cellPlaces (g : RealGrid) : List (Nat × Nat) :=
  List.range (g.ys.length - 1) ×ˢ List.range (g.xs.length - 1)

/-- How many cells have the edge. -/
def cellCount (g : RealGrid) (e : Edge) : Nat := g.cellPlaces.countP fun c => e ∈ cellEdges c

/-- The edge lies on the boundary of the lattice. -/
def OnBoundary (g : RealGrid) : Edge → Prop
  | .horizontal row _ => row = 0 ∨ row + 1 = g.ys.length
  | .vertical _ column => column = 0 ∨ column + 1 = g.xs.length

/-- One end of the edge has a sample below the level, the other one not. -/
def Straddles (g : RealGrid) (level : ℝ) (e : Edge) : Prop :=
  ¬ (g.sample e.start < level ↔ g.sample e.stop < level)

/-- The point that divides the edge at a share of its length. -/
def along (g : RealGrid) (e : Edge) (t : ℝ) : Point2 ℝ :=
  ⟨(g.node e.start).x + ((g.node e.stop).x - (g.node e.start).x) * t,
    (g.node e.start).y + ((g.node e.stop).y - (g.node e.start).y) * t⟩

/-- The samples interpolated at a share of the length of the edge. -/
def interpolant (g : RealGrid) (e : Edge) (t : ℝ) : ℝ :=
  g.sample e.start + (g.sample e.stop - g.sample e.start) * t

/-- The level crosses the edge in this point and in no other. -/
def IsCrossing (g : RealGrid) (level : ℝ) (e : Edge) (p : Point2 ℝ) : Prop :=
  ∃ t, (0 ≤ t ∧ t ≤ 1) ∧ p = g.along e t ∧ ∀ s, g.interpolant e s = level ↔ s = t

/-- Where the level divides the samples at the ends of the edge. -/
noncomputable def crossing (g : RealGrid) (level : ℝ) (e : Edge) : Point2 ℝ :=
  g.along e ((level - g.sample e.start) / (g.sample e.stop - g.sample e.start))

variable {g : RealGrid} {level : ℝ} {e : Edge} {c : Nat × Nat}

noncomputable instance : Decidable (g.Straddles level e) := inferInstanceAs (Decidable (¬ _))

theorem straddles_iff : g.Straddles level e ↔
    (g.sample e.start < level ∧ level ≤ g.sample e.stop) ∨
      (g.sample e.stop < level ∧ level ≤ g.sample e.start) := by
  rw [Straddles, ← not_lt, ← not_lt]
  tauto

theorem Straddles.ne (h : g.Straddles level e) : g.sample e.start ≠ g.sample e.stop := by
  intro heq
  rw [Straddles, heq] at h
  exact h Iff.rfl

/-- The samples reach the level on the edge, and only there. -/
theorem isCrossing (h : g.Straddles level e) : g.IsCrossing level e (g.crossing level e) := by
  have hne : g.sample e.stop - g.sample e.start ≠ 0 := sub_ne_zero.mpr h.ne.symm
  refine ⟨_, ?_, rfl, fun s => ?_⟩
  · rcases straddles_iff.mp h with ⟨hstart, hstop⟩ | ⟨hstop, hstart⟩
    · have hpos : 0 < g.sample e.stop - g.sample e.start := by linarith
      rw [div_le_one hpos]
      exact ⟨div_nonneg (by linarith) hpos.le, by linarith⟩
    · have hneg : g.sample e.stop - g.sample e.start < 0 := by linarith
      rw [div_le_one_of_neg hneg]
      exact ⟨div_nonneg_of_nonpos (by linarith) hneg.le, by linarith⟩
  · rw [interpolant, eq_div_iff hne]
    constructor <;> intro heq <;> linarith

/-! ## Cells -/

/-- The cell in a row and a column. -/
noncomputable def cell (g : RealGrid) (c : Nat × Nat) : Cell Exact where
  bottomLeft := .number (g.sample c)
  bottomRight := .number (g.sample (c.1, c.2 + 1))
  topRight := .number (g.sample (c.1 + 1, c.2 + 1))
  topLeft := .number (g.sample (c.1 + 1, c.2))
  left := .number (g.xs.getD c.2 0)
  right := .number (g.xs.getD (c.2 + 1) 0)
  bottom := .number (g.ys.getD c.1 0)
  top := .number (g.ys.getD (c.1 + 1) 0)

end RealGrid

/-- The cells between two rows, by their columns. -/
theorem rowCells_eq {α : Type} (d bottom top : α) {xs as ds : List α} (has : as.length = xs.length)
    (hds : ds.length = xs.length) :
    rowCells bottom top xs as ds = (List.range (xs.length - 1)).map fun i =>
      ⟨as.getD i d, as.getD (i + 1) d, ds.getD (i + 1) d, ds.getD i d, xs.getD i d,
        xs.getD (i + 1) d, bottom, top⟩ := by
  fun_induction rowCells bottom top xs as ds with
  | case1 x0 x1 xs a b as d' c ds ih =>
      rw [ih (Nat.succ.inj has) (Nat.succ.inj hds)]
      show _ = (List.range (xs.length + 1)).map _
      rw [List.range_succ_eq_map, List.map_cons, List.map_map]
      rfl
  | case2 xs as ds hne =>
      have hshort : xs.length - 1 = 0 := by
        rcases xs with _ | ⟨x0, _ | ⟨x1, xs⟩⟩
        · rfl
        · rfl
        · obtain ⟨a, as, rfl⟩ := List.exists_cons_of_length_eq_add_one has
          obtain ⟨b, as, rfl⟩ := List.exists_cons_of_length_eq_add_one (Nat.succ.inj has)
          obtain ⟨d', ds, rfl⟩ := List.exists_cons_of_length_eq_add_one hds
          obtain ⟨c, ds, rfl⟩ := List.exists_cons_of_length_eq_add_one (Nat.succ.inj hds)
          exact absurd rfl (hne x0 x1 xs a b as d' c ds rfl rfl)
      rw [hshort]
      rfl

theorem map_succ_product {α : Type} (m : Nat) (ns : List Nat) (f : Nat × Nat → α) :
    (List.range (m + 1) ×ˢ ns).map f =
      ns.map (fun i => f (0, i)) ++ (List.range m ×ˢ ns).map fun c => f (c.1 + 1, c.2) := by
  rw [List.range_succ_eq_map, List.product_cons, List.map_append, List.map_map]
  congr 1
  simp only [SProd.sprod, List.product, List.flatMap_map, List.map_flatMap, List.map_map]
  rfl

/-- The cells of a lattice, by their rows and columns. -/
theorem cells_eq {α : Type} (d : α) {xs ys : List α} {rows : List (List α)}
    (hrows : rows.length = ys.length) (hwidth : ∀ row ∈ rows, row.length = xs.length) :
    cells xs ys rows =
      (List.range (ys.length - 1) ×ˢ List.range (xs.length - 1)).map fun c =>
        ⟨(rows.getD c.1 []).getD c.2 d, (rows.getD c.1 []).getD (c.2 + 1) d,
          (rows.getD (c.1 + 1) []).getD (c.2 + 1) d, (rows.getD (c.1 + 1) []).getD c.2 d,
          xs.getD c.2 d, xs.getD (c.2 + 1) d, ys.getD c.1 d, ys.getD (c.1 + 1) d⟩ := by
  fun_induction cells xs ys rows with
  | case1 y0 y1 ys r0 r1 rows ih =>
      obtain ⟨h0, hwidth'⟩ := List.forall_mem_cons.mp hwidth
      have h1 := hwidth' r1 List.mem_cons_self
      rw [ih (Nat.succ.inj hrows) hwidth', rowCells_eq d y0 y1 h0 h1]
      show _ = (List.range (ys.length + 1) ×ˢ _).map _
      rw [map_succ_product]
      rfl
  | case2 ys rows hne =>
      have hshort : ys.length - 1 = 0 := by
        rcases ys with _ | ⟨y0, _ | ⟨y1, ys⟩⟩
        · rfl
        · rfl
        · obtain ⟨r0, rows, rfl⟩ := List.exists_cons_of_length_eq_add_one hrows
          obtain ⟨r1, rows, rfl⟩ := List.exists_cons_of_length_eq_add_one (Nat.succ.inj hrows)
          exact absurd rfl (hne y0 y1 ys r0 r1 rows rfl)
      rw [hshort]
      rfl

namespace RealGrid

variable {g : RealGrid} {level : ℝ} {e : Edge} {c : Nat × Nat}

theorem cells_exact (g : RealGrid) :
    cells (g.xs.map Exact.number) (g.ys.map Exact.number) (g.rows.map (·.map Exact.number)) =
      g.cellPlaces.map g.cell := by
  have hwidth : ∀ row ∈ g.rows.map (·.map Exact.number),
      row.length = (g.xs.map Exact.number).length := by
    rw [List.forall_mem_map]
    intro row hrow
    rw [List.length_map, List.length_map, g.width row hrow]
  have hsample : ∀ j i, ((g.rows.map (·.map Exact.number)).getD j []).getD i (.number 0) =
      .number (g.sample (j, i)) := by
    intro j i
    rw [sample, show ([] : List Exact) = ([] : List ℝ).map Exact.number from rfl, List.getD_map,
      List.getD_map]
  rw [cells_eq (.number 0) (by simpa using g.height) hwidth, List.length_map, List.length_map]
  refine List.map_congr_left fun c _ => ?_
  simp only [hsample, List.getD_map]
  rfl

theorem segments_eq (g : RealGrid) (level : ℝ) :
    g.segments level = g.cellPlaces.flatMap fun c => (g.cell c).segments (.number level) := by
  rw [segments, marchingSquares, cells_exact, List.flatMap_map]

/-! ## Ends of the segments of a cell -/

theorem interpolate_number {v0 v1 t0 t1 level : ℝ} (h : v0 ≠ v1) :
    interpolate (Exact.number v0) (.number v1) (.number t0) (.number t1) (.number level) =
      .number (t0 + (t1 - t0) * ((level - v0) / (v1 - v0))) := by
  have hdiv : Exact.number (level - v0) / Exact.number (v1 - v0) =
      .number ((level - v0) / (v1 - v0)) :=
    congrArg Exact.ofOption (if_neg (sub_ne_zero.mpr h.symm))
  rw [interpolate, Exact.equal_number, if_neg (by simpa using h.symm)]
  show _ + _ * (Exact.number (level - v0) / Exact.number (v1 - v0)) = _
  rw [hdiv]
  rfl

theorem crossing_horizontal {j i : Nat} (h : g.Straddles level (.horizontal j i)) :
    (g.crossing level (.horizontal j i)).exact =
      ⟨interpolate (.number (g.sample (j, i))) (.number (g.sample (j, i + 1)))
        (.number (g.xs.getD i 0)) (.number (g.xs.getD (i + 1) 0)) (.number level),
        .number (g.ys.getD j 0)⟩ := by
  have hy : g.ys.getD j 0 + (g.ys.getD j 0 - g.ys.getD j 0) * ((level - g.sample (j, i)) /
      (g.sample (j, i + 1) - g.sample (j, i))) = g.ys.getD j 0 := by ring
  have hne : g.sample (j, i) ≠ g.sample (j, i + 1) := h.ne
  rw [interpolate_number hne]
  exact congrArg (Point2.mk _) (congrArg Exact.number hy)

theorem crossing_vertical {j i : Nat} (h : g.Straddles level (.vertical j i)) :
    (g.crossing level (.vertical j i)).exact =
      ⟨.number (g.xs.getD i 0),
        interpolate (.number (g.sample (j, i))) (.number (g.sample (j + 1, i)))
          (.number (g.ys.getD j 0)) (.number (g.ys.getD (j + 1) 0)) (.number level)⟩ := by
  have hx : g.xs.getD i 0 + (g.xs.getD i 0 - g.xs.getD i 0) * ((level - g.sample (j, i)) /
      (g.sample (j + 1, i) - g.sample (j, i))) = g.xs.getD i 0 := by ring
  have hne : g.sample (j, i) ≠ g.sample (j + 1, i) := h.ne
  rw [interpolate_number hne]
  exact congrArg (fun x => Point2.mk x _) (congrArg Exact.number hx)

/-- A cell takes the crossing of the level on each of its edges that it
crosses. -/
theorem crossing_cell {n : Nat} (h : g.Straddles level (Grid.cellEdge c.1 c.2 n)) :
    (g.cell c).crossing (.number level) n = (g.crossing level (Grid.cellEdge c.1 c.2 n)).exact := by
  match n with
  | 0 => exact (crossing_horizontal h).symm
  | 1 => exact (crossing_vertical h).symm
  | 2 => exact (crossing_horizontal h).symm
  | _ + 3 => exact (crossing_vertical h).symm

/-- The corners at the ends of an edge of a cell are different if the
level crosses the edge. -/
theorem differ_cell (g : RealGrid) (level : ℝ) (c : Nat × Nat) (n : Nat) :
    differ (Scalar.less (g.cell c).bottomLeft (.number level))
        (Scalar.less (g.cell c).bottomRight (.number level))
        (Scalar.less (g.cell c).topRight (.number level))
        (Scalar.less (g.cell c).topLeft (.number level)) n =
      decide (g.Straddles level (Grid.cellEdge c.1 c.2 n)) := by
  have hne : ∀ a b : ℝ, (decide (a < level) != decide (b < level)) =
      decide (¬ (a < level ↔ b < level)) := by
    intro a b
    by_cases ha : a < level <;> by_cases hb : b < level <;> simp [ha, hb]
  match n with
  | 0 | 1 | 2 | _ + 3 => exact hne _ _

/-- The ends of the segments of a cell are the crossings of its edges,
each once. -/
theorem ends_cell (g : RealGrid) (level : ℝ) (c : Nat × Nat) :
    (endsOfSegments ((g.cell c).segments (.number level))).Perm
      (((cellEdges c).filter (g.Straddles level ·)).map fun e => (g.crossing level e).exact) := by
  have hends : endsOfSegments ((g.cell c).segments (.number level)) =
      (endsOf ((g.cell c).case (.number level))).map ((g.cell c).crossing (.number level)) := by
    simp only [endsOfSegments, Cell.segments, endsOf, List.flatMap_map, List.map_flatMap,
      List.map_cons, List.map_nil]
  have hcase : (endsOf ((g.cell c).case (.number level))).Perm
      ([0, 1, 2, 3].filter fun n => decide (g.Straddles level (Grid.cellEdge c.1 c.2 n))) := by
    rw [← funext (g.differ_cell level c)]
    exact endsOf_case _ _ _ _
  rw [hends, cellEdges, List.filter_map, List.map_map]
  refine (hcase.map _).trans (List.Perm.of_eq (List.map_congr_left fun n hn => ?_))
  exact crossing_cell (of_decide_eq_true (List.mem_filter.mp hn).2)

/-! ## Edges and the cells that have them -/

/-- Lists of members of `es`, one after another: each member as often as
there are lists that hold it. -/
theorem flatMap_perm_replicate {α β : Type} [DecidableEq β] {f : α → List β} {l : List α}
    {es : List β} (hes : es.Nodup) (hf : ∀ a ∈ l, (f a).Nodup ∧ f a ⊆ es) :
    (l.flatMap f).Perm (es.flatMap fun b => List.replicate (l.countP fun a => b ∈ f a) b) := by
  rw [List.perm_iff_count]
  intro b
  have hleft : (l.flatMap f).count b = l.countP fun a => b ∈ f a := by
    clear hes
    induction l with
    | nil => rfl
    | cons a l ih =>
        obtain ⟨ha, hl⟩ := List.forall_mem_cons.mp hf
        rw [List.flatMap_cons, List.count_append, ha.1.count, ih hl, List.countP_cons, add_comm]
        simp only [decide_eq_true_eq]
  have hright : ∀ (n : β → Nat) (es : List β),
      (es.flatMap fun b => List.replicate (n b) b).count b = n b * es.count b := by
    intro n es
    induction es with
    | nil => rfl
    | cons b' es ih =>
        rw [List.flatMap_cons, List.count_append, List.count_replicate, ih, List.count_cons]
        by_cases heq : b' = b
        · subst heq
          simp [Nat.mul_add, Nat.add_comm]
        · simp [heq]
  rw [hleft, hright]
  by_cases hb : b ∈ es
  · rw [List.count_eq_one_of_mem hes hb, mul_one]
  · rw [List.count_eq_zero_of_not_mem hb, mul_zero, List.countP_eq_zero]
    exact fun a ha hmem => hb ((hf a ha).2 (of_decide_eq_true hmem))

theorem nodup_edges (g : RealGrid) : g.edges.Nodup := by
  have hrange : ∀ m n : Nat, (List.range m ×ˢ List.range n).Nodup := fun m n =>
    List.nodup_range.product List.nodup_range
  refine List.Nodup.append ?_ ?_ ?_
  · exact (hrange _ _).map fun a b h => by cases a; cases b; cases h; rfl
  · exact (hrange _ _).map fun a b h => by cases a; cases b; cases h; rfl
  · intro e hhorizontal hvertical
    obtain ⟨_, -, rfl⟩ := List.mem_map.mp hhorizontal
    obtain ⟨_, -, heq⟩ := List.mem_map.mp hvertical
    cases heq

theorem nodup_cellPlaces (g : RealGrid) : g.cellPlaces.Nodup :=
  List.nodup_range.product List.nodup_range

theorem mem_edges_horizontal {j i : Nat} :
    Edge.horizontal j i ∈ g.edges ↔ j < g.ys.length ∧ i + 1 < g.xs.length := by
  simp [edges, Nat.lt_sub_iff_add_lt]

theorem mem_edges_vertical {j i : Nat} :
    Edge.vertical j i ∈ g.edges ↔ j + 1 < g.ys.length ∧ i < g.xs.length := by
  simp [edges, Nat.lt_sub_iff_add_lt]

theorem mem_cellPlaces : c ∈ g.cellPlaces ↔ c.1 + 1 < g.ys.length ∧ c.2 + 1 < g.xs.length := by
  obtain ⟨j, i⟩ := c
  simp [cellPlaces, Nat.lt_sub_iff_add_lt]

theorem mem_cellEdges_horizontal {j i : Nat} :
    Edge.horizontal j i ∈ cellEdges c ↔ c = (j, i) ∨ (c.1 + 1, c.2) = (j, i) := by
  obtain ⟨a, b⟩ := c
  simp [cellEdges, Grid.cellEdge, eq_comm]

theorem mem_cellEdges_vertical {j i : Nat} :
    Edge.vertical j i ∈ cellEdges c ↔ (c.1, c.2 + 1) = (j, i) ∨ c = (j, i) := by
  obtain ⟨a, b⟩ := c
  simp [cellEdges, Grid.cellEdge, eq_comm]

/-- The edges of a cell are edges of the lattice. -/
theorem mem_edges_of_cell (hc : c ∈ g.cellPlaces) (he : e ∈ cellEdges c) : e ∈ g.edges := by
  rw [mem_cellPlaces] at hc
  cases e with
  | horizontal j i =>
      rw [mem_cellEdges_horizontal] at he
      rw [mem_edges_horizontal]
      rcases he with rfl | he <;> grind
  | vertical j i =>
      rw [mem_cellEdges_vertical] at he
      rw [mem_edges_vertical]
      rcases he with he | rfl <;> grind

/-- The edges of all cells: every edge of the lattice, once for each cell
that has it. -/
theorem perm_edges (g : RealGrid) :
    (g.cellPlaces.flatMap cellEdges).Perm
      (g.edges.flatMap fun e => List.replicate (g.cellCount e) e) :=
  flatMap_perm_replicate g.nodup_edges fun c hc =>
    ⟨nodup_cellEdges c, fun _ he => mem_edges_of_cell hc he⟩

theorem cellCount_eq_length (places : List (Nat × Nat)) (hnodup : places.Nodup)
    (hplaces : ∀ c, c ∈ places ↔ c ∈ g.cellPlaces ∧ e ∈ cellEdges c) :
    g.cellCount e = places.length := by
  rw [cellCount, List.countP_eq_length_filter]
  refine List.Perm.length_eq
    ((List.perm_ext_iff_of_nodup (g.nodup_cellPlaces.filter _) hnodup).mpr fun c => ?_)
  rw [hplaces, List.mem_filter, decide_eq_true_eq]

/-- The cells of a horizontal edge lie above and below it. -/
theorem cellCount_horizontal {j i : Nat} (he : .horizontal j i ∈ g.edges) :
    g.cellCount (.horizontal j i) =
      (if j + 1 < g.ys.length then 1 else 0) + if 0 < j then 1 else 0 := by
  rw [mem_edges_horizontal] at he
  rw [cellCount_eq_length ((if j + 1 < g.ys.length then [(j, i)] else []) ++
    if 0 < j then [(j - 1, i)] else [])]
  · rw [List.length_append, apply_ite List.length, apply_ite List.length]
    rfl
  · split <;> split <;> simp
    omega
  · rintro ⟨a, b⟩
    rw [mem_cellPlaces, mem_cellEdges_horizontal]
    split <;> split <;> simp <;> omega

/-- The cells of a vertical edge lie on its right and on its left. -/
theorem cellCount_vertical {j i : Nat} (he : .vertical j i ∈ g.edges) :
    g.cellCount (.vertical j i) =
      (if i + 1 < g.xs.length then 1 else 0) + if 0 < i then 1 else 0 := by
  rw [mem_edges_vertical] at he
  rw [cellCount_eq_length ((if i + 1 < g.xs.length then [(j, i)] else []) ++
    if 0 < i then [(j, i - 1)] else [])]
  · rw [List.length_append, apply_ite List.length, apply_ite List.length]
    rfl
  · split <;> split <;> simp
    omega
  · rintro ⟨a, b⟩
    rw [mem_cellPlaces, mem_cellEdges_vertical]
    split <;> split <;> simp <;> omega

/-- Two cells share an edge inside the lattice, and one has an edge of its
boundary. -/
theorem cellCount_eq (hheight : 2 ≤ g.ys.length) (hwidth : 2 ≤ g.xs.length) (he : e ∈ g.edges) :
    (g.OnBoundary e → g.cellCount e = 1) ∧ (¬ g.OnBoundary e → g.cellCount e = 2) := by
  cases e with
  | horizontal j i =>
      have hmem := mem_edges_horizontal.mp he
      rw [cellCount_horizontal he, OnBoundary]
      split <;> split <;> omega
  | vertical j i =>
      have hmem := mem_edges_vertical.mp he
      rw [cellCount_vertical he, OnBoundary]
      split <;> split <;> omega

/-! ## Ends of all segments -/

/-- What the cells find are the crossings of the edges, each as often as
cells have its edge. -/
theorem perm_ends (g : RealGrid) (level : ℝ) :
    (endsOfSegments (g.segments level)).Perm
      ((g.edges.filter (g.Straddles level ·)).flatMap fun e =>
        List.replicate (g.cellCount e) (g.crossing level e).exact) := by
  have hcells : endsOfSegments (g.segments level) =
      g.cellPlaces.flatMap fun c => endsOfSegments ((g.cell c).segments (.number level)) := by
    rw [endsOfSegments, segments_eq, List.flatMap_assoc]
    rfl
  have hedges : (g.cellPlaces.flatMap fun c => ((cellEdges c).filter (g.Straddles level ·)).map
        fun e => (g.crossing level e).exact) =
      ((g.cellPlaces.flatMap cellEdges).filter (g.Straddles level ·)).map
        fun e => (g.crossing level e).exact := by
    rw [List.filter_flatMap, List.map_flatMap]
  have hreplicate : ∀ es : List Edge,
      (((es.flatMap fun e => List.replicate (g.cellCount e) e).filter (g.Straddles level ·)).map
        fun e => (g.crossing level e).exact) =
      (es.filter (g.Straddles level ·)).flatMap fun e =>
        List.replicate (g.cellCount e) (g.crossing level e).exact := by
    intro es
    induction es with
    | nil => rfl
    | cons e es ih =>
        rw [List.flatMap_cons, List.filter_append, List.map_append, ih, List.filter_replicate,
          List.filter_cons]
        by_cases he : g.Straddles level e
        · simp only [he, decide_true, if_true, List.map_replicate, List.flatMap_cons]
        · simp only [he, decide_false, Bool.false_eq_true, if_false, List.map_nil, List.nil_append]
  rw [hcells, ← hreplicate]
  refine (List.Perm.flatMap_left _ fun c _ => g.ends_cell level c).trans ?_
  rw [hedges]
  exact (g.perm_edges.filter _).map _

/-- The ends of the segments are the crossings of the edges that the level
crosses. Each stands there once for every cell that has its edge, twice
inside the lattice and once on its boundary, and the cells agree about
it. It lies on its edge, where the samples are different and interpolate
to the level. -/
theorem ends_segments (g : RealGrid) (level : ℝ) :
    (endsOfSegments (g.segments level)).Perm
        ((g.edges.filter (g.Straddles level ·)).flatMap fun e =>
          List.replicate (g.cellCount e) (g.crossing level e).exact) ∧
      (2 ≤ g.ys.length → 2 ≤ g.xs.length → ∀ e ∈ g.edges,
        (g.OnBoundary e → g.cellCount e = 1) ∧ (¬ g.OnBoundary e → g.cellCount e = 2)) ∧
      (g.segments level = g.cellPlaces.flatMap (fun c => (g.cell c).segments (.number level)) ∧
        ∀ c ∈ g.cellPlaces, (endsOfSegments ((g.cell c).segments (.number level))).Perm
          (((cellEdges c).filter (g.Straddles level ·)).map fun e => (g.crossing level e).exact)) ∧
      ∀ e ∈ g.edges, g.Straddles level e →
        g.sample e.start ≠ g.sample e.stop ∧ g.IsCrossing level e (g.crossing level e) :=
  ⟨g.perm_ends level, fun hheight hwidth _ he => cellCount_eq hheight hwidth he,
    ⟨g.segments_eq level, fun c _ => g.ends_cell level c⟩,
    fun _ _ he => ⟨he.ne, isCrossing he⟩⟩

/-- Nine samples with a saddle about zero in each cell. -/
def saddles : RealGrid where
  xs := [-1, 0, 1]
  ys := [-1, 0, 1]
  rows := [[-1, 1, -1], [1, -1, 1], [-1, 1, -1]]
  height := rfl
  width := by simp

theorem ends_segments_saddles :
    (endsOfSegments (saddles.segments 0)).Perm
        ((saddles.edges.filter (saddles.Straddles 0 ·)).flatMap fun e =>
          List.replicate (saddles.cellCount e) (saddles.crossing 0 e).exact) ∧
      saddles.cellCount (.vertical 0 0) = 1 ∧ saddles.cellCount (.horizontal 1 0) = 2 ∧
      saddles.IsCrossing 0 (.horizontal 1 0) (saddles.crossing 0 (.horizontal 1 0)) := by
  obtain ⟨hends, hcount, -, hcrossings⟩ := saddles.ends_segments 0
  have hvertical : Edge.vertical 0 0 ∈ saddles.edges := mem_edges_vertical.mpr (by decide)
  have hhorizontal : Edge.horizontal 1 0 ∈ saddles.edges := mem_edges_horizontal.mpr (by decide)
  have hstraddles : saddles.Straddles 0 (.horizontal 1 0) := by
    rw [straddles_iff]
    right
    simp [Edge.start, Edge.stop, sample, saddles]
  refine ⟨hends, ?_, ?_, (hcrossings _ hhorizontal hstraddles).2⟩
  · exact (hcount (by decide) (by decide) _ hvertical).1 (Or.inl rfl)
  · refine (hcount (by decide) (by decide) _ hhorizontal).2 ?_
    rintro (h | h) <;> revert h <;> decide

end RealGrid

end Contour
end FieldScript
