import FieldScript.Interval
import FieldScript.Point
import FieldScript.Potential
import FieldScript.RandomSource

/-!
# Seeds

Where curves start: at random, in the cells of a lattice, evenly along
the border of the domain, or in rings around the points where a flow
nearly stands still. Such a critical point is a node of a lattice where
the flow is below a tolerance and nowhere smaller at the nodes around it.
-/

namespace FieldScript

inductive SeedStrategy where
  | random
  | grid
  | criticalPoint
  | boundary
  deriving Repr, DecidableEq

namespace SeedStrategy

def name : SeedStrategy → String
  | random => "random"
  | grid => "grid"
  | criticalPoint => "critical-point"
  | boundary => "boundary"

def all : List SeedStrategy := [random, grid, criticalPoint, boundary]

def ofName (name : String) : Except Failure SeedStrategy :=
  match all.find? fun s => s.name == name with
  | some s => .ok s
  | none => .error (.unknownStrategy name (all.map SeedStrategy.name))

end SeedStrategy

namespace Seed

variable {α : Type} [Scalar α]

/-- Random points; the source gives all first coordinates and then all
second ones. -/
def random (xRange yRange : Interval α) (count : Nat) (source : RandomSource α) :
    List (Point2 α) × RandomSource α :=
  let (us, source) := source.take count
  let (vs, source) := source.take count
  (List.zipWith (fun u v => ⟨xRange.low + u * xRange.span, yRange.low + v * yRange.span⟩) us vs,
    source)

/-- The least positive number whose square reaches the count. -/
def latticeSide (count : Nat) : Nat :=
  ((List.range count).find? fun n => 0 < n && count ≤ n * n).getD (max 1 count)

/-- The centers of the cells of an interval. -/
def centers (r : Interval α) (n : Nat) : List α :=
  (List.range n).map fun (i : Nat) => r.low + (Scalar.ofInt i + Scalar.half) * r.span / Scalar.ofInt n

/-- The centers of the cells of a square lattice with at least this many
cells. -/
def lattice (xRange yRange : Interval α) (count : Nat) : List (Point2 α) :=
  let n := latticeSide count
  let xs := centers xRange n
  (centers yRange n).flatMap fun y => xs.map fun x => ⟨x, y⟩

/-- The point at some length along the border, counter-clockwise from the
lower left corner. -/
def onBoundary (xRange yRange : Interval α) (s : α) : Point2 α :=
  let w := xRange.span
  let h := yRange.span
  if Scalar.less s w then ⟨xRange.low + s, yRange.low⟩
  else if Scalar.less (s - w) h then ⟨xRange.high, yRange.low + (s - w)⟩
  else if Scalar.less (s - w - h) w then ⟨xRange.high - (s - w - h), yRange.high⟩
  else ⟨xRange.low, yRange.high - (s - w - h - w)⟩

/-- Evenly spaced points along the border. -/
def boundary (xRange yRange : Interval α) (count : Nat) : List (Point2 α) :=
  let perimeter := 2 * (xRange.span + yRange.span)
  (List.range count).map fun (i : Nat) =>
    onBoundary xRange yRange (Scalar.ofInt i * perimeter / Scalar.ofInt (max count 1 : Nat))

/-! ## Critical points -/

/-- The strength of a flow at a point; none where it is not finite. -/
def strength (flow : Flow α) (x y : α) : Except Failure (Option α) := do
  let (fx, fy) ← flow x y
  let m := Scalar.hypot fx fy
  return if Scalar.isFinite m then some m else none

/-- The strength in a row and a column; none outside the table. -/
def strengthIn (strengths : Array (Array (Option α))) (j i : Nat) : Option α :=
  ((strengths[j]?).bind fun row => row[i]?).join

/-- Whether a strength is below the tolerance. One that is not finite is
not, unless nothing compares with the tolerance. -/
def isBelow (tolerance : α) : Option α → Bool
  | some m => !Scalar.lessEq tolerance m
  | none => !Scalar.equal tolerance tolerance

/-- Whether a strength is at most another one; those that are not finite
come last. -/
def atMost : Option α → Option α → Bool
  | _, none => true
  | none, some _ => false
  | some m, some v => Scalar.lessEq m v

/-- Whether the strength in some row and column is below the tolerance
and at most that of the nodes around it. -/
def isCritical (strengths : Array (Array (Option α))) (tolerance : α) (j i : Nat) : Bool :=
  let m := strengthIn strengths j i
  isBelow tolerance m &&
    (List.range 3).all fun dj => (List.range 3).all fun di =>
      j + dj == 0 || i + di == 0 || atMost m (strengthIn strengths (j + dj - 1) (i + di - 1))

/-- The critical points of a flow on a square lattice, row by row. -/
def criticalPoints (flow : Flow α) (xRange yRange : Interval α) (resolution : Int)
    (tolerance : α) : Except Failure (List (Point2 α)) := do
  let xs ← xRange.spaced? resolution
  let ys ← yRange.spaced? resolution
  let strengths ← ys.mapM fun y => xs.mapM fun x => strength flow x y
  let table := (strengths.map List.toArray).toArray
  return ys.zipIdx.flatMap fun (y, j) => xs.zipIdx.filterMap fun (x, i) =>
    if isCritical table tolerance j i then some ⟨x, y⟩ else none

/-- The points of a ring that lie in the domain. -/
def ring (xRange yRange : Interval α) (radius : α) (count : Nat) (center : Point2 α) :
    List (Point2 α) :=
  let step := 2 * Scalar.pi / Scalar.ofInt count
  let around : List (Point2 α) := (List.range count).map fun (i : Nat) =>
    let a := Scalar.ofInt i * step
    ⟨center.x + radius * Scalar.cos a, center.y + radius * Scalar.sin a⟩
  around.filter fun p => xRange.contains p.x && yRange.contains p.y

end Seed
end FieldScript
