import FieldScript.Proofs.Stitching

/-!
# Crossings on the edges of a lattice

A segment of marching squares joins two crossings, and the crossings are
those of the edges of its cell whose samples lie on different sides of
the level; the case table uses each such edge once
(`endsOf_case`). An edge inside the lattice belongs to two cells, which
compute the same crossing for it, and an edge of the boundary belongs to
one. So every crossing that is not at the boundary is an end of two
segments, and the number of ends at a key is even unless a crossing of
the boundary has that key (`evenOutside_links`).
-/

namespace FieldScript
namespace Contour

/-! ## Cases -/

/-- The samples lie on different sides of the level. -/
def straddles (level v0 v1 : Float) : Bool :=
  Scalar.less v0 level != Scalar.less v1 level

/-- The samples at the two ends of an edge of the cell. -/
def Cell.samples (c : Cell Float) : Nat → Float × Float
  | 0 => (c.bottomLeft, c.bottomRight)
  | 1 => (c.bottomRight, c.topRight)
  | 2 => (c.topLeft, c.topRight)
  | _ => (c.bottomLeft, c.topLeft)

def Cell.straddled (c : Cell Float) (level : Float) (e : Nat) : Bool :=
  straddles level (c.samples e).1 (c.samples e).2

/-- The edges at the ends of the segments of a case. -/
def endsOf (n : Nat) : List Nat := (caseSegments n).flatMap fun s => [s.1, s.2]

/-- Whether the corners at the ends of an edge are different. -/
def differ (b0 b1 b2 b3 : Bool) : Nat → Bool
  | 0 => b0 != b1
  | 1 => b1 != b2
  | 2 => b3 != b2
  | _ => b0 != b3

/-- The segments of a case use the edges whose corners are different,
each once. -/
theorem endsOf_case (b0 b1 b2 b3 : Bool) :
    (endsOf ((if b0 then 1 else 0) + (if b1 then 2 else 0) + (if b2 then 4 else 0)
        + (if b3 then 8 else 0))).Perm ([0, 1, 2, 3].filter (differ b0 b1 b2 b3)) := by
  revert b0 b1 b2 b3
  decide

theorem Cell.straddled_eq (c : Cell Float) (level : Float) :
    c.straddled level = differ (Scalar.less c.bottomLeft level) (Scalar.less c.bottomRight level)
      (Scalar.less c.topRight level) (Scalar.less c.topLeft level) := by
  funext e
  match e with
  | 0 | 1 | 2 | _ + 3 => rfl

theorem Cell.endsOf_case (c : Cell Float) (level : Float) :
    (endsOf (c.case level)).Perm ([0, 1, 2, 3].filter (c.straddled level)) := by
  rw [c.straddled_eq]
  exact Contour.endsOf_case _ _ _ _

/-! ## Ends at a key -/

section Counting

variable {level : Float} {decimals : Int} {K : Key}

/-- One, if the samples straddle the level and their crossing is at the
key. -/
def hits (level : Float) (decimals : Int) (K : Key) (v0 v1 : Float) (p : Point2 Float) : Nat :=
  if straddles level v0 v1 then atKey (keyOf decimals p) K else 0

def Cell.hits (c : Cell Float) (level : Float) (decimals : Int) (K : Key) (e : Nat) : Nat :=
  Contour.hits level decimals K (c.samples e).1 (c.samples e).2 (c.crossing level e)

/-- The ends of the segments of a cell that lie at a key. -/
theorem Cell.degree_links (c : Cell Float) :
    degree K ((c.segments level).map (Link.ofSegment decimals))
      = ([0, 1, 2, 3].map (c.hits level decimals K)).sum := by
  have hends : ∀ es : List (Nat × Nat),
      degree K ((es.map fun e => (c.crossing level e.1, c.crossing level e.2)).map
          (Link.ofSegment decimals))
        = ((es.flatMap fun e => [e.1, e.2]).map fun e =>
            atKey (keyOf decimals (c.crossing level e)) K).sum := by
    intro es
    induction es with
    | nil => rfl
    | cons e rest ih =>
        rw [List.map_cons, List.map_cons, degree_cons, ih, List.flatMap_cons, List.map_append,
          List.sum_append]
        show atKey _ K + atKey _ K + _ = (atKey _ K + (atKey _ K + 0)) + _
        rfl
  have hfilter : ∀ es : List Nat,
      ((es.filter (c.straddled level)).map fun e =>
          atKey (keyOf decimals (c.crossing level e)) K).sum
        = (es.map (c.hits level decimals K)).sum := by
    intro es
    induction es with
    | nil => rfl
    | cons e rest ih =>
        rw [List.filter_cons, List.map_cons, List.sum_cons, ← ih, Cell.hits, Contour.hits]
        show _ = (if c.straddled level e = true then _ else 0) + _
        split
        · rfl
        · exact (Nat.zero_add _).symm
  rw [Cell.segments, hends, ← hfilter]
  exact ((c.endsOf_case level).map _).sum_nat

/-- The links of some cells. -/
def linksOf (level : Float) (decimals : Int) (cs : List (Cell Float)) : List Link :=
  (cs.flatMap fun c => c.segments level).map (Link.ofSegment decimals)

theorem degree_linksOf_append (cs cs' : List (Cell Float)) :
    degree K (linksOf level decimals (cs ++ cs'))
      = degree K (linksOf level decimals cs) + degree K (linksOf level decimals cs') := by
  rw [linksOf, List.flatMap_append, List.map_append, degree_append, linksOf, linksOf]

theorem degree_linksOf_cons (c : Cell Float) (cs : List (Cell Float)) :
    degree K (linksOf level decimals (c :: cs))
      = ([0, 1, 2, 3].map (c.hits level decimals K)).sum
        + degree K (linksOf level decimals cs) := by
  rw [linksOf, List.flatMap_cons, List.map_append, degree_append, c.degree_links, linksOf]

/-- The hits of the crossings along a row of samples. -/
def rowHits (level : Float) (decimals : Int) (K : Key) (y : Float) :
    List Float → List Float → Nat
  | x0 :: x1 :: xs, a :: b :: as =>
    hits level decimals K a b ⟨interpolate a b x0 x1 level, y⟩
      + rowHits level decimals K y (x1 :: xs) (b :: as)
  | _, _ => 0

/-- The hit of the crossing between two rows. -/
def columnHit (level : Float) (decimals : Int) (K : Key) (y0 y1 x a d : Float) : Nat :=
  hits level decimals K a d ⟨x, interpolate a d y0 y1 level⟩

theorem of_hits_ne_zero {v0 v1 : Float} {p : Point2 Float}
    (h : hits level decimals K v0 v1 p ≠ 0) :
    straddles level v0 v1 = true ∧ sameKey (keyOf decimals p) K = true := by
  rw [hits, atKey] at h
  split at h
  · split at h
    · exact ⟨‹_›, ‹_›⟩
    · exact absurd rfl h
  · exact absurd rfl h

/-- A hit in a row is one of an edge of the row. -/
theorem exists_of_rowHits_ne_zero {y : Float} {xs as : List Float}
    (h : rowHits level decimals K y xs as ≠ 0) :
    ∃ (i : Nat) (x0 x1 v0 v1 : Float), xs[i]? = some x0 ∧ xs[i + 1]? = some x1 ∧
      as[i]? = some v0 ∧ as[i + 1]? = some v1 ∧
      hits level decimals K v0 v1 ⟨interpolate v0 v1 x0 x1 level, y⟩ ≠ 0 := by
  fun_induction rowHits level decimals K y xs as with
  | case1 x0 x1 xs a b as ih =>
      by_cases hedge : hits level decimals K a b ⟨interpolate a b x0 x1 level, y⟩ = 0
      · rw [hedge, Nat.zero_add] at h
        obtain ⟨i, x0', x1', v0, v1, hrest⟩ := ih h
        exact ⟨i + 1, x0', x1', v0, v1, hrest⟩
      · exact ⟨0, x0, x1, a, b, rfl, rfl, rfl, rfl, hedge⟩
  | case2 => exact absurd rfl h

/-- The cells between two rows: the edges between the rows are shared by
two cells but for the first and the last, so that what remains are the
two rows and the first edge, if the last one does not count. -/
theorem degree_rowCells {y0 y1 x a d : Float} {xs as ds : List Float}
    (has : as.length = xs.length) (hds : ds.length = xs.length)
    (hlast : ∀ x' a' d', (x :: xs).getLast? = some x' → (a :: as).getLast? = some a' →
      (d :: ds).getLast? = some d' → columnHit level decimals K y0 y1 x' a' d' = 0) :
    (degree K (linksOf level decimals (rowCells y0 y1 (x :: xs) (a :: as) (d :: ds)))
      + columnHit level decimals K y0 y1 x a d + rowHits level decimals K y0 (x :: xs) (a :: as)
      + rowHits level decimals K y1 (x :: xs) (d :: ds)) % 2 = 0 := by
  induction xs generalizing x a d as ds with
  | nil =>
      obtain rfl := List.length_eq_zero_iff.mp has
      obtain rfl := List.length_eq_zero_iff.mp hds
      rw [hlast x a d rfl rfl rfl]
      rfl
  | cons x' xs ih =>
      obtain ⟨b, as, rfl⟩ := List.exists_cons_of_length_eq_add_one has
      obtain ⟨c, ds, rfl⟩ := List.exists_cons_of_length_eq_add_one hds
      have hrest := ih (x := x') (a := b) (d := c) (Nat.succ.inj has) (Nat.succ.inj hds)
        (by simpa only [List.getLast?_cons_cons] using hlast)
      have hcell : ([0, 1, 2, 3].map
          ((Cell.mk a b c d x x' y0 y1).hits level decimals K)).sum
          = hits level decimals K a b ⟨interpolate a b x x' level, y0⟩
            + (columnHit level decimals K y0 y1 x' b c
              + (hits level decimals K d c ⟨interpolate d c x x' level, y1⟩
                + (columnHit level decimals K y0 y1 x a d + 0))) := rfl
      rw [rowCells, degree_linksOf_cons, hcell, rowHits, rowHits]
      omega

/-- The cells of a lattice, if the crossings of the first and the last
column and of the last row do not count: what remains is the first row. -/
theorem degree_cells {xs : List Float} {y : Float} {ys r : List Float} {rows : List (List Float)}
    (hrows : rows.length = ys.length) (hwidth : ∀ row ∈ r :: rows, row.length = xs.length)
    (hcolumn : ∀ j y0 y1 r0 r1, (y :: ys)[j]? = some y0 → (y :: ys)[j + 1]? = some y1 →
      (r :: rows)[j]? = some r0 → (r :: rows)[j + 1]? = some r1 →
      (∀ x a d, xs.head? = some x → r0.head? = some a → r1.head? = some d →
        columnHit level decimals K y0 y1 x a d = 0) ∧
      ∀ x a d, xs.getLast? = some x → r0.getLast? = some a → r1.getLast? = some d →
        columnHit level decimals K y0 y1 x a d = 0)
    (hlast : ∀ y' r', (y :: ys).getLast? = some y' → (r :: rows).getLast? = some r' →
      rowHits level decimals K y' xs r' = 0) :
    (degree K (linksOf level decimals (cells xs (y :: ys) (r :: rows)))
      + rowHits level decimals K y xs r) % 2 = 0 := by
  induction ys generalizing y r rows with
  | nil =>
      obtain rfl := List.length_eq_zero_iff.mp hrows
      rw [hlast y r rfl rfl]
      rfl
  | cons y' ys ih =>
      obtain ⟨r', rows, rfl⟩ := List.exists_cons_of_length_eq_add_one hrows
      obtain ⟨hr, hwidth⟩ := List.forall_mem_cons.mp hwidth
      have hr' := hwidth r' List.mem_cons_self
      have hrest := ih (y := y') (r := r') (Nat.succ.inj hrows) hwidth
        (fun j => by simpa using hcolumn (j + 1))
        (by simpa only [List.getLast?_cons_cons] using hlast)
      obtain ⟨hleft, hright⟩ := hcolumn 0 y y' r r' rfl rfl rfl rfl
      have hrow : (degree K (linksOf level decimals (rowCells y y' xs r r'))
          + rowHits level decimals K y xs r + rowHits level decimals K y' xs r') % 2 = 0 := by
        cases xs with
        | nil =>
            obtain rfl := List.length_eq_zero_iff.mp hr
            rfl
        | cons x xs =>
            obtain ⟨a, as, rfl⟩ := List.exists_cons_of_length_eq_add_one hr
            obtain ⟨d, ds, rfl⟩ := List.exists_cons_of_length_eq_add_one hr'
            have hcells := degree_rowCells (Nat.succ.inj hr) (Nat.succ.inj hr') hright
            rw [hleft x a d rfl rfl rfl] at hcells
            omega
      rw [cells, degree_linksOf_append]
      omega

end Counting

end Contour
end FieldScript
