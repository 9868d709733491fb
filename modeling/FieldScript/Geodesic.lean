import FieldScript.Failure
import FieldScript.Graph
import FieldScript.Surface

/-!
# Geodesics

Shortest ways along the edges of a triangle mesh. A way between two
points begins and ends at the vertices nearest to them and then joins the
points themselves. It follows edges, so it is never shorter than the way
on the surface.
-/

namespace FieldScript

/-- A mesh with the graph of its edges. -/
structure Mesh (α : Type) where
  vertices : Array (Point3 α)
  faces : List Triangle
  graph : Graph α

structure Geodesic (α : Type) where
  points : List (Point3 α)
  /-- None if the points are not connected. -/
  distance : Option α
  vertices : List Nat
  reachable : Bool

namespace Geodesic

def size {α : Type} (g : Geodesic α) : Nat := g.points.length

end Geodesic

namespace Mesh

variable {α : Type} [Scalar α]

/-- The sides of a triangle. -/
def sides : Triangle → List (Nat × Nat)
  | (a, b, c) => [(a, b), (b, c), (c, a)]

def vertexAt (vertices : Array (Point3 α)) (i : Nat) : Point3 α := (vertices[i]?).getD ⟨0, 0, 0⟩

/-- The sides of all triangles with their lengths. -/
def lengths (vertices : Array (Point3 α)) (faces : List Triangle) : List (Nat × Nat × α) :=
  faces.flatMap fun t => (sides t).map fun (u, v) =>
    (u, v, (vertexAt vertices u).distance (vertexAt vertices v))

/-- The mesh with these triangles. -/
def ofFaces (vertices : List (Point3 α)) (faces : List Triangle) : Mesh α :=
  let points := vertices.toArray
  ⟨points, faces, Graph.ofEdges vertices.length (lengths points faces)⟩

/-- An index that is in range. -/
def index? (n : Nat) (i : Int) : Except Failure Nat :=
  if 0 ≤ i && i < n then .ok i.toNat else .error .outOfBounds

/-- The mesh with these triangles, whose indices must be in range. -/
def ofFaces? (vertices : List (Point3 α)) (faces : List (Int × Int × Int)) :
    Except Failure (Mesh α) := do
  let n := vertices.length
  let faces ← faces.mapM fun (a, b, c) => return (← index? n a, ← index? n b, ← index? n c)
  return ofFaces vertices faces

/-- The mesh of a surface. -/
def ofSurface (s : SurfaceMesh) : Mesh Float := ofFaces s.vertices s.faces

/-- The shortest path between two vertices, and its length. -/
def shortestPath (m : Mesh α) (source target : Int) : Except Failure (Option (List Nat × α)) := do
  let n := m.vertices.size
  return m.graph.shortestPath? (← index? n source) (← index? n target)

/-- The vertices with edges, each with its neighbours. -/
def adjacency (m : Mesh α) : List (Nat × List (Nat × α)) :=
  (m.graph.neighbours.toList.zipIdx.map fun p => (p.2, p.1)).filter fun p => !p.2.isEmpty

/-- The table with this length for an edge; an edge that is there keeps its
place, and its length is replaced. -/
def putEdge (e : Nat × Nat × α) : List (Nat × Nat × α) → List (Nat × Nat × α)
  | [] => [e]
  | f :: rest => if e.1 == f.1 && e.2.1 == f.2.1 then e :: rest else f :: putEdge e rest

/-- Every edge once, the lower end first, with the length that was found
last. -/
def edgeTable (m : Mesh α) : List (Nat × Nat × α) :=
  (lengths m.vertices m.faces).foldl
    (fun es (u, v, d) => putEdge (min u v, max u v, d) es) []

/-- The sparse matrix with one more number, its entries in the order of
rows and columns; numbers in one place are added up. -/
def addEntry (e : Nat × Nat × α) : List (Nat × Nat × α) → List (Nat × Nat × α)
  | [] => [e]
  | f :: rest =>
    if e.1 == f.1 && e.2.1 == f.2.1 then (f.1, f.2.1, f.2.2 + e.2.2) :: rest
    else if e.1 < f.1 || (e.1 == f.1 && e.2.1 < f.2.1) then e :: f :: rest
    else f :: addEntry e rest

/-- The entries of the sparse matrix of edge lengths. -/
def edges (m : Mesh α) : List (Nat × Nat × α) :=
  m.edgeTable.foldl (fun es e => addEntry e es) []

/-! ## Nearest vertices -/

/-- The vertex nearest to a point; none of an empty mesh. -/
def nearest? (m : Mesh α) (p : Point3 α) : Option Nat :=
  Scalar.leastIndex? (m.vertices.toList.map fun v => v.distance p)

/-- All vertices are infinitely far from the point. -/
def isBeyond (m : Mesh α) (p : Point3 α) : Bool :=
  m.vertices.all fun v => !Scalar.isFinite (v.distance p)

/-- The vertex at which a way from the point begins. A mesh that is indexed
for quick look-up takes finite coordinates only; its index finds no vertex
at an infinite distance, and the number of vertices stands for that. -/
def snap? (m : Mesh α) (indexed : Bool) (p : Point3 α) : Except Failure (Option Nat) :=
  match m.nearest? p with
  | none => .ok none
  | some u =>
    if !indexed then .ok (some u)
    else if !(p :: m.vertices.toList).all Point3.isFinite then .error .invalidValue
    else .ok (some (if m.isBeyond p then m.vertices.size else u))

/-! ## Ways -/

/-- The vertices of a way with the points at its ends, where they are not
vertices themselves. -/
def splice (start finish : Point3 α) (snapStart snapEnd : α) (way : List (Point3 α)) :
    List (Point3 α) :=
  let way := if Scalar.less 0 snapStart then start :: way else way
  let way := if Scalar.less 0 snapEnd then way ++ [finish] else way
  match way with
  | [p] => [p, p]
  | way => way

/-- The way between two points over these vertices. -/
def wayOver (m : Mesh α) (start finish : Point3 α) (u v : Nat) : Except Failure (Geodesic α) := do
  match ← m.shortestPath u v with
  | none => return ⟨[start, finish], none, [], false⟩
  | some (path, d) =>
    let snapStart := start.distance (vertexAt m.vertices u)
    let snapEnd := finish.distance (vertexAt m.vertices v)
    let points := splice start finish snapStart snapEnd (path.map (vertexAt m.vertices))
    return ⟨points, some (snapStart + d + snapEnd), path, true⟩

/-- The way between two points; there is none on an empty mesh. -/
def geodesic? (m : Mesh α) (indexed : Bool) (start finish : Point3 α) :
    Except Failure (Geodesic α) := do
  match ← m.snap? indexed start, ← m.snap? indexed finish with
  | some u, some v => m.wayOver start finish u v
  | _, _ => return ⟨[], some 0, [], false⟩

/-- The distances along edges from the vertex at which ways from a point
begin, if there is one; `finder` takes the number of vertices and the
entries of the matrix. -/
def distancesBy (finder : Nat → List (Nat × Nat × α) → Nat → List (Option α)) (m : Mesh α)
    (indexed : Bool) (p : Point3 α) : Except Failure (List (Option α)) := do
  match ← m.snap? indexed p with
  | none => throw .invalidValue
  | some u =>
    if u < m.vertices.size then return finder m.vertices.size m.edges u
    else throw .invalidValue

/-- The distances along edges from a point. -/
def distancesFrom (m : Mesh α) (indexed : Bool) (p : Point3 α) :
    Except Failure (List (Option α)) :=
  m.distancesBy Graph.distancesOver indexed p

end Mesh
end FieldScript
