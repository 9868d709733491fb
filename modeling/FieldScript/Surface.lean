import FieldScript.Color
import FieldScript.Field
import FieldScript.Point

/-!
# Surfaces

The graph of a field over a rectangle as a triangle mesh. With `n` cells
in each direction the vertex in column `i` of row `j` has index
`j * (n + 1) + i`, and a cell with the corners `a`, `b` below and `c`, `d`
above is cut into the triangles `a c b` and `b c d`.
-/

namespace FieldScript

/-- Three vertices by index. -/
abbrev Triangle := Nat × Nat × Nat

namespace Lattice

/-- The two triangles of a cell. -/
def cellTriangles (n i j : Nat) : List Triangle :=
  let a := j * (n + 1) + i
  let b := a + 1
  let c := a + (n + 1)
  let d := c + 1
  [(a, c, b), (b, c, d)]

/-- All triangles, cell by cell, row by row. -/
def triangles (n : Nat) : List Triangle :=
  (List.range n).flatMap fun j => (List.range n).flatMap fun i => cellTriangles n i j

/-- The coordinates of a grid that spans two intervals. -/
def grid (xRange yRange : Interval Float) (nx ny : Int) : Except Failure (Samples × Samples) := do
  let xs ← xRange.spaced? nx
  let ys ← yRange.spaced? ny
  return Samples.mesh xs.toArray ys.toArray

end Lattice

structure SurfaceMesh where
  vertices : List (Point3 Float)
  faces : List Triangle
  /-- The size of the gradient at each vertex. -/
  slopes : List Float

namespace SurfaceMesh

def heights (m : SurfaceMesh) : List Float := m.vertices.map (·.z)

def describe (m : SurfaceMesh) : String :=
  "SurfaceMesh(" ++ toString m.vertices.length ++ " vertices, " ++ toString m.faces.length
    ++ " faces)"

/-- Points from three grids of one shape. -/
def pointsOf (x y z : Samples) : List (Point3 Float) :=
  (List.range x.data.size).map fun i => ⟨x.get i, y.get i, z.get i⟩

/-- The mesh of a field with this many cells in each direction. -/
def sample (f : Field) (xRange yRange : Interval Float) (steps : Int)
    (h : Float := Field.defaultStep) : Except Failure SurfaceMesh := do
  let (x, y) ← Lattice.grid xRange yRange (steps + 1) (steps + 1)
  let z ← (Field.safeValue (← f x y)).stretch? x.shape
  let slopes ← (← f.slope x y h).stretch? x.shape
  return ⟨pointsOf x y z, Lattice.triangles steps.toNat, slopes.data.toList⟩

/-- The color of every vertex by its height, between the given bounds or
the extent of the heights. -/
def colors (m : SurfaceMesh) (name : String) (bounds : Option (Interval Float)) : List Color :=
  Color.ofValues m.heights name (bounds.map (·.low)) (bounds.map (·.high))

end SurfaceMesh
end FieldScript
