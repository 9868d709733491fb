import FieldScript.Failure
import FieldScript.Scalar

/-!
# Samples

A value of a field is one number or a grid of numbers. `Samples` holds
both: a shape, which is empty for one number, and the numbers row by row.
Operations on samples of different shapes stretch each dimension of
length one; shapes that do not go together are a failure.

One number is divided as a number, so that a zero divisor fails; grids
are divided with infinities and not-a-numbers.
-/

namespace FieldScript

structure Samples where
  shape : List Nat
  data : Array Float
  deriving Inhabited

namespace Samples

def scalar (x : Float) : Samples := ⟨[], #[x]⟩

def ofArray (xs : Array Float) : Samples := ⟨[xs.size], xs⟩

def ofList (xs : List Float) : Samples := ofArray xs.toArray

/-- How many numbers a shape holds. -/
def shapeSize (shape : List Nat) : Nat := shape.foldl (· * ·) 1

/-- The same number everywhere. -/
def filled (shape : List Nat) (x : Float) : Samples := ⟨shape, Array.replicate (shapeSize shape) x⟩

def isScalar (s : Samples) : Bool := s.shape.isEmpty

/-- The number of a scalar, and the first one of a grid. -/
def first (s : Samples) : Float := (s.data[0]?).getD Binary64.nan

def get (s : Samples) (i : Nat) : Float := (s.data[i]?).getD Binary64.nan

/-! ## Shapes -/

/-- The common shape of two, last dimension first. -/
def joinReversed? : List Nat → List Nat → Option (List Nat)
  | [], ns => some ns
  | ms, [] => some ms
  | m :: ms, n :: ns =>
    if m == n || n == 1 then (joinReversed? ms ns).map (m :: ·)
    else if m == 1 then (joinReversed? ms ns).map (n :: ·)
    else none

/-- The shape to which both can be stretched. -/
def joinShapes? (a b : List Nat) : Option (List Nat) :=
  (joinReversed? a.reverse b.reverse).map List.reverse

def commonShape? (shapes : List (List Nat)) : Option (List Nat) :=
  shapes.foldlM joinShapes? []

/-- Steps in the data for each dimension of the target shape, last
dimension first; a stretched dimension has step zero. -/
def strides : List Nat → List Nat → Nat → List Nat
  | _, [], _ => []
  | [], _ :: ts, step => 0 :: strides [] ts step
  | m :: ms, _ :: ts, step => (if m == 1 then 0 else step) :: strides ms ts (step * m)

/-- The place in the data for a place in the target, dimension by
dimension from the last one. -/
def offset : List Nat → List Nat → Nat → Nat
  | n :: ns, s :: ss, i => (i % n) * s + offset ns ss (i / n)
  | _, _, _ => 0

/-- The number at a place of a shape to which the samples are
stretched. -/
def reader (s : Samples) (target : List Nat) : Nat → Float :=
  if s.shape == target then s.get
  else if s.shape.isEmpty then fun _ => s.first
  else
    let steps := strides s.shape.reverse target.reverse 1
    fun i => s.get (offset target.reverse steps i)

/-- The samples stretched to a shape. -/
def stretch? (s : Samples) (target : List Nat) : Except Failure Samples :=
  if s.shape == target then .ok s
  else if joinShapes? s.shape target == some target then
    let pick := s.reader target
    .ok ⟨target, Array.ofFn fun i : Fin (shapeSize target) => pick i⟩
  else .error .shapeMismatch

/-! ## Operations -/

def map (f : Float → Float) (s : Samples) : Samples := ⟨s.shape, s.data.map f⟩

/-- An operation number by number. -/
def zipWith (f : Float → Float → Float) (a b : Samples) : Except Failure Samples :=
  if a.shape == b.shape then .ok ⟨a.shape, Array.zipWith f a.data b.data⟩
  else
    match joinShapes? a.shape b.shape with
    | none => .error .shapeMismatch
    | some shape =>
      let p := a.reader shape
      let q := b.reader shape
      .ok ⟨shape, Array.ofFn fun i : Fin (shapeSize shape) => f (p i) (q i)⟩

def add (a b : Samples) : Except Failure Samples := zipWith (· + ·) a b

def sub (a b : Samples) : Except Failure Samples := zipWith (· - ·) a b

/-- Division by a number: a single number is not divided by zero. -/
def divBy (a : Samples) (d : Float) : Except Failure Samples :=
  if a.isScalar && d == 0 then .error .divisionByZero else .ok (a.map (· / d))

def shift (a : Samples) (d : Float) : Samples := a.map (· + d)

def shiftBack (a : Samples) (d : Float) : Samples := a.map (· - d)

def hypot (a b : Samples) : Except Failure Samples := zipWith Binary64.hypot a b

/-- Computes a grid of the common shape number by number. -/
def tabulate? (args : List Samples) (f : List Float → Except Failure Float) :
    Except Failure Samples :=
  match commonShape? (args.map shape) with
  | none => .error .shapeMismatch
  | some shape => do
    let picks := args.map fun a => a.reader shape
    let values ← (List.range (shapeSize shape)).mapM fun i => f (picks.map fun p => p i)
    return ⟨shape, values.toArray⟩

/-! ## Grids -/

/-- The coordinates of a grid with rows along `ys`. -/
def mesh (xs ys : Array Float) : Samples × Samples :=
  let shape := [ys.size, xs.size]
  (⟨shape, ys.flatMap fun _ => xs⟩, ⟨shape, ys.flatMap fun y => Array.replicate xs.size y⟩)

end Samples
end FieldScript
