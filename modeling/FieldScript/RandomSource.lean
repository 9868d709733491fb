import FieldScript.Scalar

/-!
# Sources of random numbers

A source hands out the numbers of a list, one after the other and then
from the beginning again. Whoever needs chance is given a source, so that
everything is a function of its inputs.
-/

namespace FieldScript

structure RandomSource (α : Type) where
  numbers : Array α
  position : Nat
  deriving Inhabited

namespace RandomSource

variable {α : Type} [Scalar α]

def ofList (numbers : List α) : RandomSource α := ⟨numbers.toArray, 0⟩

/-- Only one half, again and again. -/
def constant : RandomSource α := ofList [Scalar.half]

/-- The next number; a source without numbers gives one half. -/
def next (s : RandomSource α) : α × RandomSource α :=
  ((s.numbers[s.position % s.numbers.size]?).getD Scalar.half, { s with position := s.position + 1 })

/-- The next numbers. -/
def take (s : RandomSource α) : Nat → List α × RandomSource α
  | 0 => ([], s)
  | n + 1 =>
    let (x, s) := s.next
    let (xs, s) := s.take n
    (x :: xs, s)

end RandomSource
end FieldScript
