import FieldScript.Decimal.Format
import FieldScript.Interval
import FieldScript.Samples
import FieldScript.Statement

/-!
# Colors

A color map is a ramp of 256 entries: a value between zero and one picks
an entry, and the channels of the entries lie on broken lines. Raw values
are first brought between zero and one; what is not finite has a color of
its own. Magnitudes use a ramp of hues from blue to red.
-/

namespace FieldScript

structure Color where
  red : Float
  green : Float
  blue : Float
  deriving Repr

namespace Color

def toList (c : Color) : List Float := [c.red, c.green, c.blue]

/-- Where a value could not be computed. -/
def missing : Color := ⟨0.1, 0.1, 0.15⟩

def black : Color := ⟨0, 0, 0⟩

/-! ## Ramps -/

/-- A channel as a broken line through points, from zero to one. -/
abbrev Channel := List (Float × Float)

/-- The height of the broken line at a position. -/
def Channel.value (t : Float) : Channel → Float
  | (a, u) :: (b, v) :: rest =>
    if t ≤ b || rest.isEmpty then (if t == b then v else (t - a) / (b - a) * (v - u) + u)
    else Channel.value t ((b, v) :: rest)
  | [(_, u)] => u
  | [] => 0

/-- The three channels of a color map. -/
structure Ramp where
  red : Channel
  green : Channel
  blue : Channel

namespace Ramp

/-- From blue to red. -/
def standard : Ramp := ⟨[(0, 0.2), (1, 0.8)], [(0, 0.2), (1, 0.2)], [(0, 0.8), (1, 0.2)]⟩

def cool : Ramp := ⟨[(0, 0), (1, 1)], [(0, 1), (1, 0)], [(0, 1), (1, 1)]⟩

def hot : Ramp :=
  ⟨[(0, 0.0416), (0.365079, 1), (1, 1)],
   [(0, 0), (0.365079, 0), (0.746032, 1), (1, 1)],
   [(0, 0), (0.746032, 0), (1, 1)]⟩

def entryCount : Nat := 256

/-- The entry with this index. -/
def entry (r : Ramp) (i : Nat) : Color :=
  let t := Float.ofNat i / Float.ofNat (entryCount - 1)
  ⟨Channel.value t r.red, Channel.value t r.green, Channel.value t r.blue⟩

/-- The color of a value between zero and one. -/
def color (r : Ramp) (v : Float) : Color :=
  match Binary64.floorInt? (v * Float.ofNat entryCount) with
  | none => black
  | some i => r.entry (min i.toNat (entryCount - 1))

end Ramp

/-! ## Color maps by name -/

/-- The color map that a name stands for; unknown names stand for the
default. -/
def mapName (name : String) : String :=
  let lower := lowerName name
  if colorMapNames.contains lower then lower else "default"

/-- The name under which a color map is shown. -/
def shownName (name : String) : String :=
  let n := mapName name
  if n == "default" then "g3d_default" else n

/-- The ramp of a color map. Maps without a broken line are shown as the
default. -/
def ramp (name : String) : Ramp :=
  match mapName name with
  | "hot" => .hot
  | "cool" => .cool
  | _ => .standard

/-- The nearest value between zero and one. -/
def clip01 (v : Float) : Float := if v < 0 then 0 else if v > 1 then 1 else v

/-- The color of a normalized value. -/
def ofValue (v : Float) (name : String) : Color := (ramp name).color (clip01 v)

/-- The smallest and the largest finite value. -/
def extent? (vs : List Float) : Option (Float × Float) :=
  match vs.filter Float.isFinite with
  | [] => none
  | v :: rest => some (rest.foldl (fun m x => if x < m then x else m) v,
      rest.foldl (fun m x => if m < x then x else m) v)

/-- Colors of raw values between two bounds, which are the extent of the
finite values if they are not given. -/
def ofValues (vs : List Float) (name : String) (low high : Option Float := none) : List Color :=
  let (a, b) := (extent? vs).getD (0, 1)
  let low := low.getD a
  let high := high.getD b
  let span := high - low
  let r := ramp name
  vs.map fun v =>
    if !v.isFinite then missing
    else r.color (clip01 (if span > 0 then (v - low) / span else 0))

/-! ## Legends -/

/-- The integer nearest to a number. -/
def nearestInt (x : Float) : Int :=
  (Binary64.floorInt? (roundPlaces x 0)).getD 0

/-- A legend as a gradient of colors with their places in percent. There
is nothing to divide by when there is one stop only. -/
def gradientText (name : String) (stops : Int) : Except Failure String := do
  let positions ← (Interval.mk (0 : Float) 1).spaced? stops
  if stops == 1 then throw .divisionByZero
  let r := ramp name
  let part (i : Nat) (v : Float) : String :=
    let c := r.color v
    let channel (x : Float) : String := toString (nearestInt (x * 255))
    "rgb(" ++ ", ".intercalate [channel c.red, channel c.green, channel c.blue] ++ ") "
      ++ generalText 6 (100 * Float.ofNat i / (Float.ofInt stops - 1)) ++ "%"
  return "linear-gradient(to top, "
    ++ ", ".intercalate (positions.zipIdx.map fun p => part p.2 p.1) ++ ")"

/-! ## Hues -/

/-- The color of a hue at full saturation and brightness. -/
def ofHue (h : Float) : Color :=
  match Binary64.floorInt? (h * 6) with
  | none => ⟨Binary64.nan, Binary64.nan, Binary64.nan⟩
  | some i =>
    let f := h * 6 - Float.ofInt i
    match (i % 6).toNat with
    | 0 => ⟨1, f, 0⟩
    | 1 => ⟨1 - f, 1, 0⟩
    | 2 => ⟨0, 1, f⟩
    | 3 => ⟨0, 1 - f, 1⟩
    | 4 => ⟨f, 0, 1⟩
    | _ => ⟨1, 0, 1 - f⟩

/-- Blue for zero, red for one. -/
def ofHeat (v : Float) : Color := ofHue (0.6 - 0.6 * clip01 v)

end Color
end FieldScript
