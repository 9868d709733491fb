import FieldScript.Surface

/-!
# Arrows

A vector field on a grid, as arrows that stand on a surface. Arrows that
are not finite or too short to see are left out.
-/

namespace FieldScript

structure ArrowSample where
  origins : List (Point3 Float)
  vectors : List (List Float)
  magnitudes : List Float

/-- A field with several components at each point. -/
abbrev VectorField := Samples → Samples → Except Failure (List Samples)

namespace ArrowSample

def empty : ArrowSample := ⟨[], [], []⟩

/-- How many points a grid has along each side. -/
def defaultGridSize : Int := 15

/-- The length of the shortest arrow. -/
def shortest : Float := 1e-6

/-- The length of a vector. -/
def norm (v : List Float) : Float := (v.foldl (fun s c => s + c * c) 0).sqrt

/-- The components stretched to the grid; a failure that a safe field
would hide is given back as a text. -/
def components (f : VectorField) (x y : Samples) : Except Failure (Except String (List Samples)) :=
  let all : Except Failure (List Samples) := do (← f x y).mapM fun c => c.stretch? x.shape
  match all with
  | .ok cs => .ok (.ok cs)
  | .error e => if Field.hides e then .ok (.error e.describe) else .error e

/-- The heights of a grid; zero without a surface. -/
def heights (surface : Option Field) (x y : Samples) : Except Failure Samples :=
  match surface with
  | none => .ok (Samples.filled x.shape 0)
  | some f => do (Field.safeValue (← f x y)).stretch? x.shape

/-- The arrows of a vector field on a square grid, with a warning if it
cannot be sampled. -/
def sample (f : VectorField) (xRange yRange : Interval Float) (gridSize : Int)
    (surface : Option Field) : Except Failure (ArrowSample × List String) := do
  let (x, y) ← Lattice.grid xRange yRange gridSize gridSize
  match ← components f x y with
  | .error text => return (empty, ["Vector field could not be sampled: " ++ text])
  | .ok cs =>
    let z ← heights surface x y
    let rows := (SurfaceMesh.pointsOf x y z).zipIdx.map fun p =>
      let v := cs.map fun c => c.get p.2
      (p.1, v, norm v)
    let kept := rows.filter fun r => r.2.1.all Float.isFinite && r.2.2 ≥ shortest
    return (⟨kept.map (·.1), kept.map (·.2.1), kept.map (·.2.2)⟩, [])

/-- The largest of these numbers, which are not negative. -/
def top (vs : List Float) : Float := vs.foldl (fun m v => if m < v then v else m) 0

/-- Colors by the share of the longest arrow. -/
def colors (s : ArrowSample) : List Color :=
  let t := top s.magnitudes
  s.magnitudes.map fun m => Color.ofHeat (if t > 0 then m / t else m)

end ArrowSample
end FieldScript
