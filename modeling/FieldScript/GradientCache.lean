import FieldScript.Potential

/-!
# Remembered gradients

Gradients by coordinates that are rounded to some decimal places. A full
cache is emptied before the next gradient goes in, so that it never holds
more than its capacity, or one. Whoever changes the field clears the
cache.
-/

namespace FieldScript

structure GradientCache (α : Type) where
  capacity : Int
  precision : Int
  /-- Gradients by rounded coordinates. -/
  entries : List ((α × α) × (α × α))
  hits : Nat
  misses : Nat

namespace GradientCache

variable {α : Type} [Scalar α]

def empty (capacity : Int := 500) (precision : Int := 2) : GradientCache α :=
  ⟨capacity, precision, [], 0, 0⟩

def size (c : GradientCache α) : Nat := c.entries.length

/-- A coordinate rounded to the places of the cache; the result may be
out of range. -/
def roundKey (c : GradientCache α) (x : α) : Except Failure α :=
  let r := Scalar.round x c.precision
  if Scalar.isFinite x && !Scalar.isFinite r then .error .tooLarge else .ok r

def key (c : GradientCache α) (x y : α) : Except Failure (α × α) := do
  return (← c.roundKey x, ← c.roundKey y)

/-- Keys are the same if their coordinates are equal. -/
def sameKey (a b : α × α) : Bool := Scalar.equal a.1 b.1 && Scalar.equal a.2 b.2

def find? (c : GradientCache α) (k : α × α) : Option (α × α) :=
  (c.entries.find? fun e => sameKey e.1 k).map (·.2)

def contains (c : GradientCache α) (x y : α) : Except Failure Bool := do
  return (c.find? (← c.key x y)).isSome

def clear (c : GradientCache α) : GradientCache α := { c with entries := [] }

/-- Makes room for one more entry. -/
def makeRoom (c : GradientCache α) : GradientCache α :=
  if c.capacity ≤ c.entries.length then c.clear else c

/-- The gradient for the key of a point: a remembered one, or the one at
this very point, which is remembered. A failure leaves the lookup
counted. -/
def gradient (c : GradientCache α) (f : Potential α) (x y h : α) :
    Except Failure (α × α) × GradientCache α :=
  match c.key x y with
  | .error e => (.error e, c)
  | .ok k =>
    match c.find? k with
    | some g => (.ok g, { c with hits := c.hits + 1 })
    | none =>
      let c := makeRoom { c with misses := c.misses + 1 }
      match f.gradient x y h with
      | .error e => (.error e, c)
      | .ok g => (.ok g, { c with entries := (k, g) :: c.entries })

end GradientCache
end FieldScript
