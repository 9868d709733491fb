import FieldScript.Arrow

/-!
# Glyphs

A tensor field on a grid, as ellipses along the eigenvectors. A tensor
with complex eigenvalues has no ellipse, and one that is not finite is
left out as well.
-/

namespace FieldScript

/-- A matrix of two rows. -/
structure Matrix2 where
  a : Float
  b : Float
  c : Float
  d : Float

namespace Matrix2

def isFinite (m : Matrix2) : Bool :=
  m.a.isFinite && m.b.isFinite && m.c.isFinite && m.d.isFinite

/-- Imaginary parts up to this size count as rounding. -/
def imaginaryTolerance : Float := 1e-12

/-- The two eigenvalues, if they are real. The discriminant is taken
without squaring the diagonal, so that it does not overflow. -/
def eigenvalues? (m : Matrix2) : Option (Float × Float) :=
  if m.c == 0 || m.b == 0 then some (m.a, m.d)
  else
    let p := 0.5 * (m.a - m.d)
    let big := if m.b.abs < m.c.abs then m.c.abs else m.b.abs
    let small := (if m.b.abs < m.c.abs then m.b.abs else m.c.abs)
      * (if (m.b < 0) == (m.c < 0) then 1 else -1)
    let scale := if p.abs < big then big else p.abs
    let z := p / scale * p + big / scale * small
    if z ≥ 8.881784197001252e-16 then
      let root := scale.sqrt * z.sqrt
      let z := if p < 0 then p - root else p + root
      some (m.d + z, m.d - big / z * small)
    else
      let middle := m.d + p
      let root := (scale * z.abs).sqrt
      if z ≥ 0 then some (middle + root, middle - root)
      else if root < imaginaryTolerance then some (middle, middle)
      else none

/-- Of a vector and its opposite the one whose first entry is positive, or
whose second one is if the first is nearly zero. -/
def oriented (v : Float × Float) : Float × Float :=
  let lead := if v.1.abs > 1e-9 then v.1 else v.2
  if lead < 0 then (-v.1, -v.2) else v

/-- The unit vector that the matrix stretches by `l`. -/
def eigenvector (m : Matrix2) (l : Float) : Float × Float :=
  let u := (m.b, l - m.a)
  let v := (l - m.d, m.c)
  let nu := Binary64.hypot u.1 u.2
  let nv := Binary64.hypot v.1 v.2
  if nu == 0 && nv == 0 then (1, 0)
  else if nu < nv then oriented (v.1 / nv, v.2 / nv)
  else oriented (u.1 / nu, u.2 / nu)

end Matrix2

structure Glyph where
  center : Point3 Float
  /-- Eigenvalues in ascending order with their unit vectors. -/
  axes : List (Float × (Float × Float))

structure GlyphSample where
  glyphs : List Glyph
  /-- The largest eigenvalue of each glyph by size, as a share of the
  largest of all. -/
  intensity : List Float

namespace GlyphSample

def empty : GlyphSample := ⟨[], []⟩

/-- How many points a grid has along each side. -/
def defaultGridSize : Int := 20

def glyph? (center : Point3 Float) (m : Matrix2) : Option Glyph := do
  if !m.isFinite then none
  else
    let (u, v) ← m.eigenvalues?
    let (low, high) := if v < u then (v, u) else (u, v)
    some ⟨center, [(low, m.eigenvector low), (high, m.eigenvector high)]⟩

/-- The size of the largest eigenvalue. -/
def peak (g : Glyph) : Float := ArrowSample.top (g.axes.map fun a => a.1.abs)

/-- Four entries for a matrix. -/
def entries (f : VectorField) : VectorField := fun x y => do
  match ← f x y with
  | a :: b :: c :: d :: _ => return [a, b, c, d]
  | _ => throw .invalidValue

/-- The glyphs of a tensor field on a square grid, with a warning if it
cannot be sampled. -/
def sample (f : VectorField) (xRange yRange : Interval Float) (gridSize : Int)
    (surface : Option Field) : Except Failure (GlyphSample × List String) := do
  let (x, y) ← Lattice.grid xRange yRange gridSize gridSize
  match ← ArrowSample.components (entries f) x y with
  | .error text => return (empty, ["Tensor field could not be sampled: " ++ text])
  | .ok cs =>
    let z ← ArrowSample.heights surface x y
    let glyphs := (SurfaceMesh.pointsOf x y z).zipIdx.filterMap fun p =>
      match cs.map fun c => c.get p.2 with
      | [a, b, c, d] => glyph? p.1 ⟨a, b, c, d⟩
      | _ => none
    let peaks := glyphs.map peak
    let top := ArrowSample.top peaks
    return (⟨glyphs, peaks.map fun p => if top > 0 then p / top else 0⟩, [])

def colors (s : GlyphSample) : List Color := s.intensity.map Color.ofHeat

end GlyphSample
end FieldScript
