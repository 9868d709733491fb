import FieldScript.Decimal.Format
import FieldScript.Surface
import FieldScript.Trace

/-!
# Contours

Isolines of a sampled field by marching squares. A cell of the lattice
has a case number, with one bit for each corner below the level (bottom
left 1, bottom right 2, top right 4, top left 8); the case says which
edges of the cell (0 bottom, 1 right, 2 top, 3 left) a segment joins. The
end of a segment divides the edge as the level divides the two samples.
Segments that share an end are stitched to polylines.
-/

namespace FieldScript

/-- The edges that the segments of a case join. -/
def caseSegments : Nat → List (Nat × Nat)
  | 1 => [(3, 0)]
  | 2 => [(0, 1)]
  | 3 => [(3, 1)]
  | 4 => [(1, 2)]
  | 5 => [(0, 1), (2, 3)]
  | 6 => [(0, 2)]
  | 7 => [(3, 2)]
  | 8 => [(2, 3)]
  | 9 => [(0, 2)]
  | 10 => [(0, 3), (1, 2)]
  | 11 => [(1, 2)]
  | 12 => [(3, 1)]
  | 13 => [(0, 1)]
  | 14 => [(3, 0)]
  | _ => []

/-- A segment between two points. -/
abbrev Segment (α : Type) := Point2 α × Point2 α

namespace Contour

section Exact

variable {α : Type} [Scalar α]

/-- Where the value on an edge from `t0` to `t1` reaches the level; the
middle of an edge with equal values. -/
def interpolate (v0 v1 t0 t1 level : α) : α :=
  if Scalar.equal v1 v0 then Scalar.half * (t0 + t1)
  else t0 + (t1 - t0) * ((level - v0) / (v1 - v0))

/-- The samples at the corners of a cell and its sides. -/
structure Cell (α : Type) where
  bottomLeft : α
  bottomRight : α
  topRight : α
  topLeft : α
  left : α
  right : α
  bottom : α
  top : α

namespace Cell

def case (c : Cell α) (level : α) : Nat :=
  let bit (v : α) (n : Nat) : Nat := if Scalar.less v level then n else 0
  bit c.bottomLeft 1 + bit c.bottomRight 2 + bit c.topRight 4 + bit c.topLeft 8

/-- The crossing of the level on an edge. -/
def crossing (c : Cell α) (level : α) : Nat → Point2 α
  | 0 => ⟨interpolate c.bottomLeft c.bottomRight c.left c.right level, c.bottom⟩
  | 1 => ⟨c.right, interpolate c.bottomRight c.topRight c.bottom c.top level⟩
  | 2 => ⟨interpolate c.topLeft c.topRight c.left c.right level, c.top⟩
  | _ => ⟨c.left, interpolate c.bottomLeft c.topLeft c.bottom c.top level⟩

def segments (c : Cell α) (level : α) : List (Segment α) :=
  (caseSegments (c.case level)).map fun e => (c.crossing level e.1, c.crossing level e.2)

end Cell

/-- The cells between two rows of samples. -/
def rowCells (bottom top : α) : List α → List α → List α → List (Cell α)
  | x0 :: x1 :: xs, a :: b :: as, d :: c :: ds =>
    ⟨a, b, c, d, x0, x1, bottom, top⟩ :: rowCells bottom top (x1 :: xs) (b :: as) (c :: ds)
  | _, _, _ => []

/-- The cells of a lattice, row by row. -/
def cells (xs : List α) : List α → List (List α) → List (Cell α)
  | y0 :: y1 :: ys, r0 :: r1 :: rows =>
    rowCells y0 y1 xs r0 r1 ++ cells xs (y1 :: ys) (r1 :: rows)
  | _, _ => []

/-- The segments of the isoline of a level. The samples come row by row,
the rows along `ys`. -/
def marchingSquares (rows : List (List α)) (xs ys : List α) (level : α) : List (Segment α) :=
  (cells xs ys rows).flatMap fun c => c.segments level

/-- The case numbers of all cells, row by row. -/
def caseNumbers (rows : List (List α)) (level : α) : List (List Nat) :=
  let row (r0 r1 : List α) : List Nat :=
    (rowCells (Scalar.ofInt 0) (Scalar.ofInt 0) r0 r0 r1).map fun c => c.case level
  (rows.zip (rows.drop 1)).map fun p => row p.1 p.2

end Exact

/-! ## Stitching -/

/-- Ends with the same rounded coordinates meet. -/
abbrev Key := Float × Float

def keyOf (decimals : Int) (p : Point2 Float) : Key :=
  (roundPlaces p.x decimals, roundPlaces p.y decimals)

def sameKey (a b : Key) : Bool := a.1 == b.1 && a.2 == b.2

/-- A segment with the keys of its ends. -/
structure Link where
  segment : Segment Float
  first : Key
  last : Key

namespace Link

def ofSegment (decimals : Int) (s : Segment Float) : Link :=
  ⟨s, keyOf decimals s.1, keyOf decimals s.2⟩

def touches (l : Link) (k : Key) : Bool := sameKey l.first k || sameKey l.last k

/-- The end that is not at the key, with its own key. -/
def otherEnd (l : Link) (k : Key) : Point2 Float × Key :=
  if sameKey l.first k then (l.segment.2, l.last) else (l.segment.1, l.first)

end Link

/-- Takes the first link that touches a key out of the list. -/
def takeTouching (k : Key) : List Link → Option (Link × List Link)
  | [] => none
  | l :: ls =>
    if l.touches k then some (l, ls)
    else (takeTouching k ls).map fun (m, rest) => (m, l :: rest)

/-- Walks along unused links from a key; the points on the way, and the
links that remain. Every step uses one link up, so that their number is
fuel enough. -/
def walk : Nat → Key → List Link → List (Point2 Float) × List Link
  | 0, _, links => ([], links)
  | fuel + 1, k, links =>
    match takeTouching k links with
    | none => ([], links)
    | some (l, rest) =>
      let (p, k) := l.otherEnd k
      let (ps, rest) := walk fuel k rest
      (p :: ps, rest)

/-- The polylines of links; each one is walked from its first link on, to
both sides. -/
def stitchLinks : Nat → List Link → List (List (Point2 Float))
  | 0, _ => []
  | _, [] => []
  | fuel + 1, l :: links =>
    let (forward, links) := walk links.length l.last links
    let (backward, links) := walk links.length l.first links
    (backward.reverse ++ l.segment.1 :: l.segment.2 :: forward) :: stitchLinks fuel links

/-- Joins segments whose ends meet; a closed polyline repeats its first
point at the end. -/
def stitch (segments : List (Segment Float)) (decimals : Int := 9) : List (List (Point2 Float)) :=
  stitchLinks segments.length (segments.map (Link.ofSegment decimals))

/-- Whether the key of a point can be found: a large coordinate may be
rounded to more than the greatest number. -/
def rounds (decimals : Int) (p : Point2 Float) : Bool :=
  let fits (x : Float) : Bool := !x.isFinite || (roundPlaces x decimals).isFinite
  fits p.x && fits p.y

/-- Joins segments whose ends meet, if the keys of all ends can be found. -/
def stitch? (segments : List (Segment Float)) (decimals : Int := 9) :
    Except Failure (List (List (Point2 Float))) :=
  if segments.all fun s => rounds decimals s.1 && rounds decimals s.2 then
    .ok (stitch segments decimals)
  else .error .tooLarge

/-! ## Isolines of fields -/

/-- A lattice of samples, row by row. -/
structure Grid where
  xs : List Float
  ys : List Float
  rows : List (List Float)

/-- Cuts a list into rows of this length. -/
def rowsOf (width : Nat) : Nat → List Float → List (List Float)
  | 0, _ => []
  | n + 1, vs => vs.take width :: rowsOf width n (vs.drop width)

def sampleGrid (f : Field) (xRange yRange : Interval Float) (resolution : Int) :
    Except Failure Grid := do
  let xs ← xRange.spaced? (resolution + 1)
  let ys ← yRange.spaced? (resolution + 1)
  let (x, y) := Samples.mesh xs.toArray ys.toArray
  let values ← (Field.safeValue (← f x y)).stretch? x.shape
  return ⟨xs, ys, rowsOf xs.length ys.length values.data.toList⟩

structure IsolineSet where
  level : Float
  segments : List (Point3 Float × Point3 Float)
  polylines : List (Trace Float)

/-- Points of the plane at the height of a surface, or at height zero,
raised by `lift`. -/
def lifted (height : Option Field) (lift : Float) (ps : List (Point2 Float)) :
    Except Failure (List (Point3 Float)) :=
  match height, ps with
  | _, [] => .ok []
  | none, ps => .ok (ps.map fun p => ⟨p.x, p.y, lift⟩)
  | some f, ps => do
    let z ← f (.ofList (ps.map (·.x))) (.ofList (ps.map (·.y)))
    let z ← (Field.safeValue z).stretch? [ps.length]
    return ps.zipIdx.map fun p => ⟨p.1.x, p.1.y, z.get p.2 + lift⟩

/-- A polyline with the slope of the field and the level at each point. -/
def traceOf (f : Field) (height : Option Field) (lift level : Float) (ps : List (Point2 Float)) :
    Except Failure (Trace Float) := do
  let slopes ← f.slope (.ofList (ps.map (·.x))) (.ofList (ps.map (·.y)))
  let points ← lifted height lift ps
  let slopes ← slopes.stretch? [ps.length]
  return ⟨points, slopes.data.toList, ps.map fun _ => level⟩

def pairs : List (Point3 Float) → List (Point3 Float × Point3 Float)
  | p :: q :: rest => (p, q) :: pairs rest
  | _ => []

/-- The isolines of one level of a sampled field. -/
def isolinesOf (g : Grid) (f : Field) (height : Option Field) (lift level : Float) :
    Except Failure IsolineSet := do
  let flat := marchingSquares g.rows g.xs g.ys level
  let segments ← lifted height lift (flat.flatMap fun s => [s.1, s.2])
  let polylines ← (← stitch? flat).mapM (traceOf f height lift level)
  return ⟨level, pairs segments, polylines⟩

/-- The isolines of one level. -/
def isolines (f : Field) (xRange yRange : Interval Float) (level : Float) (resolution : Int)
    (height : Option Field) (lift : Float := 0) : Except Failure IsolineSet := do
  isolinesOf (← sampleGrid f xRange yRange resolution) f height lift level

/-- The isolines of several levels; the field is sampled once. -/
def ofLevels (f : Field) (xRange yRange : Interval Float) (levels : List Float) (resolution : Int)
    (height : Option Field) (lift : Float := 0) : Except Failure (List IsolineSet) := do
  let g ← sampleGrid f xRange yRange resolution
  levels.mapM (isolinesOf g f height lift)

/-- The number of cells along each side. -/
def defaultResolution : Int := 120

end Contour
end FieldScript
