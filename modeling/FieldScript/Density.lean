import FieldScript.Failure
import FieldScript.Interval
import FieldScript.Point

/-!
# Density

How many points lie in each cell of a square grid over the domain, by
rows along the second coordinate. A `Flux` follows the counts over time
with exponential smoothing and shows them as intensities.
-/

namespace FieldScript

variable {α : Type} [Scalar α]

namespace Density

def defaultGridSize : Nat := 32

/-- The index of the cell of an interval with this many cells. -/
def cell? (r : Interval α) (cells : Nat) (v : α) : Option Nat := do
  let i ← Scalar.floorInt? ((v - r.low) / r.span * Scalar.ofInt cells)
  if 0 ≤ i && i < cells then some i.toNat else none

/-- Row and column of the cell of a point. -/
def cellOf? (xRange yRange : Interval α) (cells : Nat) (p : Point2 α) : Option (Nat × Nat) := do
  let i ← cell? xRange cells p.x
  let j ← cell? yRange cells p.y
  return (j, i)

/-- How many of the points lie in each cell; points outside do not
count. -/
def counts (points : List (Point2 α)) (xRange yRange : Interval α) (cells : Nat) :
    List (List Nat) :=
  let hit := points.filterMap (cellOf? xRange yRange cells)
  (List.range cells).map fun j =>
    let row := hit.filterMap fun c => if c.1 == j then some c.2 else none
    (List.range cells).map fun i => row.count i

/-- The counts as numbers; there is no grid of negative size. -/
def ofPoints (points : List (Point2 α)) (xRange yRange : Interval α) (cells : Int) :
    Except Failure (List (List α)) :=
  if cells < 0 then .error .invalidValue
  else .ok ((counts points xRange yRange cells.toNat).map fun row => row.map fun n => Scalar.ofInt (Int.ofNat n))

/-- The counts divided by the largest one. -/
def normalized (points : List (Point2 α)) (xRange yRange : Interval α) (cells : Int) :
    Except Failure (List (List α)) := do
  if cells ≤ 0 then throw .invalidValue
  let rows := counts points xRange yRange cells.toNat
  let top := rows.flatten.foldl max 0
  let share (n : Nat) : α :=
    if top == 0 then Scalar.ofInt n else Scalar.ofInt n / Scalar.ofInt top
  return rows.map fun row => row.map share

end Density

structure Flux (α : Type) where
  xRange : Interval α
  yRange : Interval α
  cells : Nat
  /-- How much of a new count enters. -/
  smoothing : α
  /-- What is not above reads as nothing. -/
  floor : α
  smoothed : List (List α)

namespace Flux

def defaultSmoothing : α := Scalar.ofRat (mkRat 5 100)

/-- Nothing anywhere. -/
def empty (xRange yRange : Interval α) (cells : Nat := Density.defaultGridSize)
    (smoothing : α := defaultSmoothing) (floor : α := 2) : Flux α :=
  ⟨xRange, yRange, cells, smoothing, floor, List.replicate cells (List.replicate cells 0)⟩

/-- Nothing anywhere, on a grid of some size that is not negative. -/
def empty? (xRange yRange : Interval α) (cells : Int) (smoothing floor : α) :
    Except Failure (Flux α) :=
  if cells < 0 then .error .invalidValue else .ok (empty xRange yRange cells.toNat smoothing floor)

/-- The flux after one more look at the points. -/
def update (f : Flux α) (points : List (Point2 α)) : Flux α :=
  let raw := Density.counts points f.xRange f.yRange f.cells
  let blend (s : α) (n : Nat) : α := s + (Scalar.ofInt n - s) * f.smoothing
  { f with smoothed := List.zipWith (List.zipWith blend) f.smoothed raw }

/-- The value that is shown brightest. -/
def ceiling (count : Int) : α :=
  let half : α := Scalar.ofInt count * Scalar.half
  if Scalar.less 40 half then half else 40

/-- The intensity of a cell, between zero and one. -/
def intensity (f : Flux α) (count : Int) (s : α) : α :=
  if Scalar.less f.floor s then
    let t := (s - f.floor) / (ceiling count - f.floor)
    Scalar.power (Scalar.min (Scalar.max t 0) 1) (Scalar.ofRat (mkRat 3 4))
  else 0

def intensities (f : Flux α) (count : Int) : List (List α) :=
  f.smoothed.map fun row => row.map (f.intensity count)

end Flux
end FieldScript
