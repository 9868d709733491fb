import FieldScript.Proofs.LatticeEdges
import FieldScript.Proofs.RoundedNumbers

/-!
# Where isolines end

An isoline of a sampled field is closed or ends at crossings of the
boundary of the lattice, exactly as long as all crossings are numbers
(`enclosed_iff`). The samples may equal the level, the case of a cell may
be a saddle and crossings may fall together in a corner: none of this
opens an isoline. What does is an interpolation that overflows to
not-a-number, because nothing is joined to such a crossing.
-/

namespace FieldScript
namespace Contour

/-- An edge of a lattice, by row and column of its lower or left end. -/
inductive Edge where
  | horizontal (row column : Nat)
  | vertical (row column : Nat)

namespace Grid

/-- The sample in a row and a column. -/
def sample? (g : Grid) (row column : Nat) : Option Float :=
  (g.rows[row]?).bind (·[column]?)

/-- As many rows as there are `ys` and as many columns as there are `xs`,
at least two of each. -/
structure Rectangular (g : Grid) : Prop where
  width : 2 ≤ g.xs.length
  height : 2 ≤ g.ys.length
  rows : g.rows.length = g.ys.length
  columns : ∀ row ∈ g.rows, row.length = g.xs.length

/-- The edge has samples on both sides of the level, and the level
crosses it at this point. -/
inductive Crosses (g : Grid) (level : Float) : Edge → Point2 Float → Prop
  | horizontal {j i : Nat} {y x0 x1 v0 v1 : Float} (hy : g.ys[j]? = some y)
      (hx0 : g.xs[i]? = some x0) (hx1 : g.xs[i + 1]? = some x1) (h0 : g.sample? j i = some v0)
      (h1 : g.sample? j (i + 1) = some v1) (hs : straddles level v0 v1) :
      Crosses g level (.horizontal j i) ⟨interpolate v0 v1 x0 x1 level, y⟩
  | vertical {j i : Nat} {x y0 y1 v0 v1 : Float} (hx : g.xs[i]? = some x)
      (hy0 : g.ys[j]? = some y0) (hy1 : g.ys[j + 1]? = some y1) (h0 : g.sample? j i = some v0)
      (h1 : g.sample? (j + 1) i = some v1) (hs : straddles level v0 v1) :
      Crosses g level (.vertical j i) ⟨x, interpolate v0 v1 y0 y1 level⟩

/-- The edge lies on the boundary of the lattice. -/
def OnBoundary (g : Grid) : Edge → Prop
  | .horizontal row _ => row = 0 ∨ row + 1 = g.ys.length
  | .vertical _ column => column = 0 ∨ column + 1 = g.xs.length

/-- The key of a crossing on the boundary. -/
def BoundaryKey (g : Grid) (level : Float) (decimals : Int) (k : Key) : Prop :=
  ∃ e p, g.OnBoundary e ∧ g.Crosses level e p ∧ sameKey (keyOf decimals p) k = true

/-- The isolines of a level, as lists of points. -/
def lines (g : Grid) (level : Float) (decimals : Int) : List (List (Point2 Float)) :=
  stitch (marchingSquares g.rows g.xs g.ys level) decimals

/-! ## Cells by row and column -/

/-- The cell in a row and a column. -/
structure IsCell (g : Grid) (row column : Nat) (c : Cell Float) : Prop where
  bottom : g.ys[row]? = some c.bottom
  top : g.ys[row + 1]? = some c.top
  left : g.xs[column]? = some c.left
  right : g.xs[column + 1]? = some c.right
  bottomLeft : g.sample? row column = some c.bottomLeft
  bottomRight : g.sample? row (column + 1) = some c.bottomRight
  topRight : g.sample? (row + 1) (column + 1) = some c.topRight
  topLeft : g.sample? (row + 1) column = some c.topLeft

/-- The edge of a lattice that is an edge of a cell in it. -/
def cellEdge (row column : Nat) : Nat → Edge
  | 0 => .horizontal row column
  | 1 => .vertical row (column + 1)
  | 2 => .horizontal (row + 1) column
  | _ => .vertical row column

theorem exists_two_of_getElem? {α : Type} {l : List α} {i : Nat} {v : α} (h : l[i + 1]? = some v) :
    ∃ a b l', l = a :: b :: l' := by
  match l with
  | [] | [_] => cases h
  | a :: b :: l' => exact ⟨a, b, l', rfl⟩

theorem mem_rowCells {y0 y1 : Float} {xs as ds : List Float} {c : Cell Float} :
    c ∈ rowCells y0 y1 xs as ds ↔ c.bottom = y0 ∧ c.top = y1 ∧
      ∃ i : Nat, xs[i]? = some c.left ∧ xs[i + 1]? = some c.right ∧ as[i]? = some c.bottomLeft ∧
        as[i + 1]? = some c.bottomRight ∧ ds[i + 1]? = some c.topRight ∧
        ds[i]? = some c.topLeft := by
  fun_induction rowCells y0 y1 xs as ds with
  | case1 x0 x1 xs a b as d e ds ih =>
      rw [List.mem_cons, ih]
      constructor
      · rintro (rfl | ⟨hbottom, htop, i, h⟩)
        · exact ⟨rfl, rfl, 0, rfl, rfl, rfl, rfl, rfl, rfl⟩
        · exact ⟨hbottom, htop, i + 1, h⟩
      · rintro ⟨hbottom, htop, i, h⟩
        cases i with
        | succ i => exact Or.inr ⟨hbottom, htop, i, h⟩
        | zero =>
            obtain ⟨hleft, hright, hbl, hbr, htr, htl⟩ := h
            cases c
            cases hleft
            cases hright
            cases hbl
            cases hbr
            cases htr
            cases htl
            cases hbottom
            cases htop
            exact Or.inl rfl
  | case2 xs as ds hne =>
      refine ⟨fun h => (by cases h), ?_⟩
      rintro ⟨-, -, i, -, hright, -, hbr, htr, -⟩
      obtain ⟨x0, x1, xs, rfl⟩ := exists_two_of_getElem? hright
      obtain ⟨a, b, as, rfl⟩ := exists_two_of_getElem? hbr
      obtain ⟨d, e, ds, rfl⟩ := exists_two_of_getElem? htr
      exact absurd rfl (hne x0 x1 xs a b as d e ds rfl rfl)

theorem mem_cells {xs ys : List Float} {rows : List (List Float)} {c : Cell Float} :
    c ∈ cells xs ys rows ↔ ∃ j i, IsCell ⟨xs, ys, rows⟩ j i c := by
  fun_induction cells xs ys rows with
  | case1 y0 y1 ys r0 r1 rows ih =>
      rw [List.mem_append, mem_rowCells, ih]
      constructor
      · rintro (⟨rfl, rfl, i, hleft, hright, hbl, hbr, htr, htl⟩ | ⟨j, i, h⟩)
        · exact ⟨0, i, rfl, rfl, hleft, hright, hbl, hbr, htr, htl⟩
        · exact ⟨j + 1, i, h.1, h.2, h.3, h.4, h.5, h.6, h.7, h.8⟩
      · rintro ⟨j, i, h⟩
        cases j with
        | succ j => exact Or.inr ⟨j, i, h.1, h.2, h.3, h.4, h.5, h.6, h.7, h.8⟩
        | zero =>
            refine Or.inl ⟨(Option.some.inj h.bottom).symm, (Option.some.inj h.top).symm, i,
              h.left, h.right, h.bottomLeft, h.bottomRight, h.topRight, h.topLeft⟩
  | case2 ys rows hne =>
      refine ⟨fun h => (by cases h), ?_⟩
      rintro ⟨j, i, h⟩
      obtain ⟨y0, y1, ys, rfl⟩ := exists_two_of_getElem? h.top
      obtain ⟨row, hrow, -⟩ := Option.bind_eq_some_iff.mp h.topLeft
      obtain ⟨r0, r1, rows, rfl⟩ := exists_two_of_getElem? hrow
      exact absurd rfl (hne y0 y1 ys r0 r1 rows rfl)

/-- The crossings of a cell are those of the lattice. -/
theorem IsCell.crosses {g : Grid} {j i : Nat} {c : Cell Float} (h : g.IsCell j i c) {level : Float}
    {e : Nat} (hs : c.straddled level e = true) :
    g.Crosses level (cellEdge j i e) (c.crossing level e) := by
  match e with
  | 0 => exact .horizontal h.bottom h.left h.right h.bottomLeft h.bottomRight hs
  | 1 => exact .vertical h.right h.bottom h.top h.bottomRight h.topRight hs
  | 2 => exact .horizontal h.top h.left h.right h.topLeft h.topRight hs
  | _ + 3 => exact .vertical h.left h.bottom h.top h.bottomLeft h.topLeft hs

/-- A rectangular lattice has a cell wherever there are a next row and a
next column. -/
theorem Rectangular.exists_cell {g : Grid} (hg : g.Rectangular) {j i : Nat}
    (hj : j + 1 < g.ys.length) (hi : i + 1 < g.xs.length) : ∃ c, g.IsCell j i c := by
  have hsample : ∀ j' i', j' < g.ys.length → i' < g.xs.length → ∃ v, g.sample? j' i' = some v := by
    intro j' i' hj' hi'
    have hrow : j' < g.rows.length := by
      rw [hg.rows]
      exact hj'
    have hcolumn : i' < (g.rows[j']).length := by
      rw [hg.columns _ (List.getElem_mem hrow)]
      exact hi'
    refine ⟨(g.rows[j'])[i'], ?_⟩
    rw [sample?, List.getElem?_eq_getElem hrow, Option.bind_some, List.getElem?_eq_getElem hcolumn]
  obtain ⟨a, ha⟩ := hsample j i (by omega) (by omega)
  obtain ⟨b, hb⟩ := hsample j (i + 1) (by omega) hi
  obtain ⟨c, hc⟩ := hsample (j + 1) (i + 1) hj hi
  obtain ⟨d, hd⟩ := hsample (j + 1) i hj (by omega)
  exact ⟨⟨a, b, c, d, g.xs[i], g.xs[i + 1], g.ys[j], g.ys[j + 1]⟩,
    List.getElem?_eq_getElem _, List.getElem?_eq_getElem _, List.getElem?_eq_getElem _,
    List.getElem?_eq_getElem _, ha, hb, hc, hd⟩

/-- Every crossing of a rectangular lattice is one of a cell. -/
theorem Rectangular.exists_cell_of_crosses {g : Grid} (hg : g.Rectangular) {level : Float}
    {e : Edge} {p : Point2 Float} (h : g.Crosses level e p) :
    ∃ c ∈ cells g.xs g.ys g.rows, ∃ n ∈ [0, 1, 2, 3],
      c.straddled level n = true ∧ c.crossing level n = p := by
  have hlt : ∀ {α : Type} {l : List α} {n : Nat} {v : α}, l[n]? = some v → n < l.length :=
    fun h => (List.getElem?_eq_some_iff.mp h).1
  cases h with
  | @horizontal j i y x0 x1 v0 v1 hy hx0 hx1 h0 h1 hs =>
      have hwidth := hlt hx1
      by_cases hj : j + 1 < g.ys.length
      · obtain ⟨c, hc⟩ := hg.exists_cell hj hwidth
        refine ⟨c, mem_cells.mpr ⟨j, i, hc⟩, 0, by decide, ?_⟩
        obtain rfl := Option.some.inj (hc.bottom.symm.trans hy)
        obtain rfl := Option.some.inj (hc.left.symm.trans hx0)
        obtain rfl := Option.some.inj (hc.right.symm.trans hx1)
        obtain rfl := Option.some.inj (hc.bottomLeft.symm.trans h0)
        obtain rfl := Option.some.inj (hc.bottomRight.symm.trans h1)
        exact ⟨hs, rfl⟩
      · have hheight := hlt hy
        have htwo := hg.height
        obtain ⟨j, rfl⟩ := Nat.exists_eq_add_of_lt (show 0 < j by omega)
        rw [Nat.zero_add] at hy h0 h1 hheight
        obtain ⟨c, hc⟩ := hg.exists_cell (j := j) (by omega) hwidth
        refine ⟨c, mem_cells.mpr ⟨j, i, hc⟩, 2, by decide, ?_⟩
        obtain rfl := Option.some.inj (hc.top.symm.trans hy)
        obtain rfl := Option.some.inj (hc.left.symm.trans hx0)
        obtain rfl := Option.some.inj (hc.right.symm.trans hx1)
        obtain rfl := Option.some.inj (hc.topLeft.symm.trans h0)
        obtain rfl := Option.some.inj (hc.topRight.symm.trans h1)
        exact ⟨hs, rfl⟩
  | @vertical j i x y0 y1 v0 v1 hx hy0 hy1 h0 h1 hs =>
      have hheight := hlt hy1
      by_cases hi : i + 1 < g.xs.length
      · obtain ⟨c, hc⟩ := hg.exists_cell hheight hi
        refine ⟨c, mem_cells.mpr ⟨j, i, hc⟩, 3, by decide, ?_⟩
        obtain rfl := Option.some.inj (hc.left.symm.trans hx)
        obtain rfl := Option.some.inj (hc.bottom.symm.trans hy0)
        obtain rfl := Option.some.inj (hc.top.symm.trans hy1)
        obtain rfl := Option.some.inj (hc.bottomLeft.symm.trans h0)
        obtain rfl := Option.some.inj (hc.topLeft.symm.trans h1)
        exact ⟨hs, rfl⟩
      · have hwidth := hlt hx
        have htwo := hg.width
        obtain ⟨i, rfl⟩ := Nat.exists_eq_add_of_lt (show 0 < i by omega)
        rw [Nat.zero_add] at hx h0 h1 hwidth
        obtain ⟨c, hc⟩ := hg.exists_cell (i := i) hheight (by omega)
        refine ⟨c, mem_cells.mpr ⟨j, i, hc⟩, 1, by decide, ?_⟩
        obtain rfl := Option.some.inj (hc.right.symm.trans hx)
        obtain rfl := Option.some.inj (hc.bottom.symm.trans hy0)
        obtain rfl := Option.some.inj (hc.top.symm.trans hy1)
        obtain rfl := Option.some.inj (hc.bottomRight.symm.trans h0)
        obtain rfl := Option.some.inj (hc.topRight.symm.trans h1)
        exact ⟨hs, rfl⟩

/-! ## Ends of segments -/

theorem mem_endsOf {n e : Nat} :
    e ∈ endsOf n ↔ ∃ s ∈ caseSegments n, e = s.1 ∨ e = s.2 := by
  simp [endsOf]

/-- The ends of the segments are crossings. -/
theorem crosses_of_mem_marchingSquares {g : Grid} {level : Float} {s : Segment Float}
    (h : s ∈ marchingSquares g.rows g.xs g.ys level) :
    (∃ e, g.Crosses level e s.1) ∧ ∃ e, g.Crosses level e s.2 := by
  obtain ⟨c, hc, hs⟩ := List.mem_flatMap.mp h
  obtain ⟨j, i, hcell⟩ := mem_cells.mp hc
  obtain ⟨t, ht, rfl⟩ := List.mem_map.mp hs
  have hstraddled : ∀ e, e = t.1 ∨ e = t.2 → c.straddled level e = true := by
    intro e he
    have hmem := (c.endsOf_case level).subset (mem_endsOf.mpr ⟨t, ht, he⟩)
    exact (List.mem_filter.mp hmem).2
  exact ⟨⟨_, hcell.crosses (hstraddled _ (Or.inl rfl))⟩,
    ⟨_, hcell.crosses (hstraddled _ (Or.inr rfl))⟩⟩

/-- Every crossing is an end of a segment. -/
theorem Rectangular.exists_segment {g : Grid} (hg : g.Rectangular) {level : Float} {e : Edge}
    {p : Point2 Float} (h : g.Crosses level e p) :
    ∃ s ∈ marchingSquares g.rows g.xs g.ys level, s.1 = p ∨ s.2 = p := by
  obtain ⟨c, hc, n, hn, hs, rfl⟩ := hg.exists_cell_of_crosses h
  have hmem := (c.endsOf_case level).symm.subset (List.mem_filter.mpr ⟨hn, hs⟩)
  obtain ⟨t, ht, hend⟩ := mem_endsOf.mp hmem
  refine ⟨_, List.mem_flatMap.mpr ⟨c, hc, List.mem_map.mpr ⟨t, ht, rfl⟩⟩, ?_⟩
  rcases hend with rfl | rfl
  · exact Or.inl rfl
  · exact Or.inr rfl

/-! ## Parity -/

theorem boundaryKey_congr {g : Grid} {level : Float} {decimals : Int} {a b : Key}
    (h : sameKey a b = true) (ha : g.BoundaryKey level decimals a) :
    g.BoundaryKey level decimals b := by
  obtain ⟨e, p, he, hp, hkey⟩ := ha
  exact ⟨e, p, he, hp, sameKey_trans hkey h⟩

section Parity

variable {g : Grid} {level : Float} {decimals : Int} {K : Key}

/-- No crossing of the first or the last row lies at a key that is not
one of the boundary. -/
theorem rowHits_of_not_boundaryKey (hK : ¬ g.BoundaryKey level decimals K) {j : Nat} {y : Float}
    {row : List Float} (hj : j = 0 ∨ j + 1 = g.ys.length) (hy : g.ys[j]? = some y)
    (hrow : g.rows[j]? = some row) : rowHits level decimals K y g.xs row = 0 := by
  by_contra hne
  obtain ⟨i, x0, x1, v0, v1, hx0, hx1, h0, h1, hhit⟩ := exists_of_rowHits_ne_zero hne
  obtain ⟨hs, hkey⟩ := of_hits_ne_zero hhit
  have hsample : ∀ n, g.sample? j n = row[n]? := by
    intro n
    rw [sample?, hrow, Option.bind_some]
  refine hK ⟨.horizontal j i, _, hj, .horizontal hy hx0 hx1 ?_ ?_ hs, hkey⟩
  · rw [hsample, h0]
  · rw [hsample, h1]

/-- No crossing of the first or the last column lies at such a key. -/
theorem columnHit_of_not_boundaryKey (hK : ¬ g.BoundaryKey level decimals K) {j i : Nat}
    {x y0 y1 a d : Float} (hi : i = 0 ∨ i + 1 = g.xs.length) (hx : g.xs[i]? = some x)
    (hy0 : g.ys[j]? = some y0) (hy1 : g.ys[j + 1]? = some y1) (ha : g.sample? j i = some a)
    (hd : g.sample? (j + 1) i = some d) : columnHit level decimals K y0 y1 x a d = 0 := by
  by_contra hne
  obtain ⟨hs, hkey⟩ := of_hits_ne_zero hne
  exact hK ⟨.vertical j i, _, hi, .vertical hx hy0 hy1 ha hd hs, hkey⟩

/-- No crossing between two rows lies at such a key on the left or the right
side. -/
theorem Rectangular.sideHits_of_not_boundaryKey (hg : g.Rectangular)
    (hK : ¬ g.BoundaryKey level decimals K) {j : Nat} {y0 y1 : Float} {r0 r1 : List Float}
    (hy0 : g.ys[j]? = some y0) (hy1 : g.ys[j + 1]? = some y1)
    (hr0 : g.rows[j]? = some r0) (hr1 : g.rows[j + 1]? = some r1) :
    (∀ x a d, g.xs.head? = some x → r0.head? = some a → r1.head? = some d →
      columnHit level decimals K y0 y1 x a d = 0) ∧
    ∀ x a d, g.xs.getLast? = some x → r0.getLast? = some a → r1.getLast? = some d →
      columnHit level decimals K y0 y1 x a d = 0 := by
  have hsample : ∀ {n : Nat} {row : List Float} {i : Nat} {v : Float},
      g.rows[n]? = some row → row[i]? = some v → g.sample? n i = some v := by
    intro n row i v hrow hv
    rw [sample?, hrow]
    exact hv
  have hlast : ∀ {l : List Float} {v : Float}, l.length = g.xs.length →
      l.getLast? = some v → l[g.xs.length - 1]? = some v := by
    intro l v hlen hv
    rw [List.getLast?_eq_getElem?, hlen] at hv
    exact hv
  refine ⟨fun x a d hx ha hd => ?_, fun x a d hx ha hd => ?_⟩
  · rw [List.head?_eq_getElem?] at hx ha hd
    exact columnHit_of_not_boundaryKey hK (Or.inl rfl) hx hy0 hy1 (hsample hr0 ha)
      (hsample hr1 hd)
  · have hr0len := hg.columns r0 (List.mem_of_getElem? hr0)
    have hr1len := hg.columns r1 (List.mem_of_getElem? hr1)
    have hpos := hg.width
    exact columnHit_of_not_boundaryKey hK (Or.inr (by omega)) (hlast rfl hx) hy0 hy1
      (hsample hr0 (hlast hr0len ha)) (hsample hr1 (hlast hr1len hd))

/-- An even number of ends lies at every key that is not one of the
boundary. -/
theorem Rectangular.evenOutside (hg : g.Rectangular) :
    EvenOutside (g.BoundaryKey level decimals)
      (linksOf level decimals (cells g.xs g.ys g.rows)) := by
  intro K hK
  have hheight := hg.height
  have hrows := hg.rows
  cases hys : g.ys with
  | nil =>
      rw [hys] at hheight
      cases hheight
  | cons y ys =>
      cases hgrows : g.rows with
      | nil =>
          rw [hgrows, hys] at hrows
          cases hrows
      | cons r rows =>
          have hlen : rows.length = ys.length := by
            rw [hgrows, hys] at hrows
            exact Nat.succ.inj hrows
          have hfirst : rowHits level decimals K y g.xs r = 0 :=
            rowHits_of_not_boundaryKey hK (Or.inl rfl) (by rw [hys]; rfl) (by rw [hgrows]; rfl)
          suffices hcells : (degree K (linksOf level decimals (cells g.xs (y :: ys) (r :: rows)))
              + rowHits level decimals K y g.xs r) % 2 = 0 by
            rw [hfirst] at hcells
            exact hcells
          refine degree_cells hlen (hgrows ▸ hg.columns) ?_ ?_
          · intro j y0 y1 r0 r1 hy0 hy1 hr0 hr1
            rw [← hys] at hy0 hy1
            rw [← hgrows] at hr0 hr1
            exact hg.sideHits_of_not_boundaryKey hK hy0 hy1 hr0 hr1
          · intro y' r' hy' hr'
            rw [List.getLast?_eq_getElem?, ← hys] at hy'
            rw [List.getLast?_eq_getElem?, ← hgrows, hg.rows] at hr'
            exact rowHits_of_not_boundaryKey hK (Or.inr (by omega)) hy' hr'

end Parity

/-! ## Crossings that are numbers -/

/-- A crossing is a number when neither the side of the cell nor the
difference of the samples overflows. -/
theorem isNumber_interpolate {v0 v1 t0 t1 level : Float} (ht0 : t0.isFinite = true)
    (ht1 : t1.isFinite = true) (ht : Binary64.IsNonzero (t1 - t0)) (hv0 : v0.isFinite = true)
    (hv : (v1 == v0) = false → Binary64.IsNonzero (v1 - v0)) (hlevel : level.isFinite = true) :
    Binary64.IsNumber (interpolate v0 v1 t0 t1 level) := by
  rw [interpolate]
  split
  · have hsum := Binary64.isNumber_add ht0 (Binary64.isNumber_of_isFinite ht1)
    exact Binary64.isNumber_mul Binary64.isNonzero_half hsum
  · rename_i hne
    have hshare := Binary64.isNumber_div (Binary64.isNumber_sub hlevel hv0)
      (hv (Bool.eq_false_of_not_eq_true hne))
    exact Binary64.isNumber_add ht0 (Binary64.isNumber_mul ht hshare)

theorem keyed_keyOf_iff {decimals : Int} {p : Point2 Float} :
    Keyed (keyOf decimals p) ↔ p.x.isNaN = false ∧ p.y.isNaN = false := by
  have hself : ∀ x : Float, (roundPlaces x decimals == roundPlaces x decimals) = true ↔
      x.isNaN = false := by
    intro x
    rw [← Binary64.isNumber_iff, ← Binary64.isNumber_roundPlaces x decimals]
    exact ⟨fun h => (Binary64.isNumber_of_beq h).1, Binary64.beq_refl⟩
  rw [Keyed, sameKey_iff]
  exact and_congr (hself p.x) (hself p.y)

/-! ## Isolines -/

/-- Both ends of an enclosed polyline have keys that are the same as
themselves. -/
theorem keyed_of_enclosed {g : Grid} {level : Float} {decimals : Int}
    {line : List (Point2 Float)} {p : Point2 Float}
    (h : Enclosed decimals (g.BoundaryKey level decimals) line)
    (hp : line.head? = some p ∨ line.getLast? = some p) : Keyed (keyOf decimals p) := by
  obtain ⟨a, b, ha, hb, hab⟩ := h
  have hkeyed : Keyed (keyOf decimals a) ∧ Keyed (keyOf decimals b) := by
    rcases hab with hsame | ⟨⟨_, _, -, -, ha⟩, ⟨_, _, -, -, hb⟩⟩
    · exact keyed_of_sameKey hsame
    · exact ⟨(keyed_of_sameKey ha).2, (keyed_of_sameKey hb).2⟩
  rcases hp with hp | hp
  · obtain rfl := Option.some.inj (ha.symm.trans hp)
    exact hkeyed.1
  · obtain rfl := Option.some.inj (hb.symm.trans hp)
    exact hkeyed.2

theorem sound_of_mem_linksOf {level : Float} {decimals : Int} {cs : List (Cell Float)} {l : Link}
    (hl : l ∈ linksOf level decimals cs) : l.Sound decimals := by
  obtain ⟨s, -, rfl⟩ := List.mem_map.mp hl
  exact Link.sound_ofSegment decimals s

/-- Every isoline is closed or ends at crossings of the boundary on both
sides, exactly if no crossing of the level has a coordinate that is
not-a-number. -/
theorem enclosed_iff {g : Grid} (hg : g.Rectangular) (level : Float) (decimals : Int) :
    (∀ line ∈ g.lines level decimals, Enclosed decimals (g.BoundaryKey level decimals) line) ↔
      ∀ e p, g.Crosses level e p → p.x.isNaN = false ∧ p.y.isNaN = false := by
  constructor
  · intro henclosed e p hp
    rw [← keyed_keyOf_iff]
    by_contra hunkeyed
    obtain ⟨s, hs, hend⟩ := hg.exists_segment hp
    have hlink : Link.ofSegment decimals s ∈ linksOf level decimals (cells g.xs g.ys g.rows) :=
      List.mem_map.mpr ⟨s, hs, rfl⟩
    have hbad : ¬ (Link.ofSegment decimals s).Keyed := by
      rintro ⟨hfirst, hlast⟩
      rcases hend with rfl | rfl
      · exact hunkeyed hfirst
      · exact hunkeyed hlast
    obtain ⟨line, hline, q, hq, hqk⟩ := exists_line_of_unkeyed (fun l => sound_of_mem_linksOf)
      (by rw [linksOf, List.length_map]) hlink hbad
    exact hqk (keyed_of_enclosed (henclosed line hline) hq)
  · intro hnumbers
    refine enclosed_of_mem_stitchLinks (fun a b => boundaryKey_congr)
      (fun l => sound_of_mem_linksOf) ?_ hg.evenOutside
    intro l hl
    obtain ⟨s, hs, rfl⟩ := List.mem_map.mp hl
    obtain ⟨⟨e, he⟩, ⟨e', he'⟩⟩ := crosses_of_mem_marchingSquares hs
    exact ⟨keyed_keyOf_iff.mpr (hnumbers e _ he), keyed_keyOf_iff.mpr (hnumbers e' _ he')⟩

/-- Nine samples around the origin, the one in the middle apart. -/
def around (middle rim : Float) : Grid :=
  ⟨[-1, 0, 1], [-1, 0, 1], [[rim, rim, rim], [rim, middle, rim], [rim, rim, rim]]⟩

theorem rectangular_around (middle rim : Float) : (around middle rim).Rectangular :=
  ⟨Nat.le_succ 2, Nat.le_succ 2, rfl, by simp [around]⟩

theorem enclosed_around : (around 0 2).Rectangular ∧
    ((∀ line ∈ (around 0 2).lines 1 9, Enclosed 9 ((around 0 2).BoundaryKey 1 9) line) ↔
      ∀ e p, (around 0 2).Crosses 1 e p → p.x.isNaN = false ∧ p.y.isNaN = false) :=
  ⟨rectangular_around 0 2, enclosed_iff (rectangular_around 0 2) 1 9⟩

/-- Finite samples, coordinates and levels do not make isolines end
well: the difference of two samples may overflow. -/
theorem not_enclosed_of_overflow :
    ¬ ∀ (g : Grid) (level : Float), g.Rectangular → (∀ row ∈ g.rows, ∀ v ∈ row, v.isFinite = true) →
      g.xs.Pairwise (· < ·) → g.ys.Pairwise (· < ·) → level.isFinite = true →
      ∀ line ∈ g.lines level 9, Enclosed 9 (g.BoundaryKey level 9) line := by
  intro h
  have hclaim := h (around (-1e308) 1e308) 1e308 (rectangular_around _ _) (by decide +kernel)
    (by decide +kernel) (by decide +kernel) (by decide +kernel)
  have hopen : ((around (-1e308) 1e308).lines 1e308 9).any
      (·.head?.any fun p => p.x.isNaN || p.y.isNaN) = true := by decide +kernel
  obtain ⟨line, hline, hfirst⟩ := List.any_eq_true.mp hopen
  obtain ⟨p, hp, hnan⟩ := (Option.any_eq_true _ _).mp hfirst
  obtain ⟨hx, hy⟩ := keyed_keyOf_iff.mp (keyed_of_enclosed (hclaim line hline) (Or.inl hp))
  rw [hx, hy] at hnan
  cases hnan

end Grid
end Contour
end FieldScript
