import Mathlib

/-!
# Square tables

Values in rows and columns of equal number, and the places of such a table
in the order in which they are read: row by row.
-/

namespace FieldScript

/-! ## Places -/

/-- Row and column of each place of a square, row by row. -/
def places (n : Nat) : List (Nat × Nat) := List.range n ×ˢ List.range n

/-- The first place is read before the second. -/
def ReadBefore (c c' : Nat × Nat) : Prop := c.1 < c'.1 ∨ c.1 = c'.1 ∧ c.2 < c'.2

theorem ReadBefore.ne {c c' : Nat × Nat} (h : ReadBefore c c') : c ≠ c' := by
  rintro rfl
  rcases h with h | ⟨-, h⟩ <;> exact lt_irrefl _ h

theorem places_eq (n : Nat) :
    places n = (List.range n).flatMap fun j => (List.range n).map fun i => (j, i) := rfl

theorem mem_places {n : Nat} {c : Nat × Nat} : c ∈ places n ↔ c.1 < n ∧ c.2 < n := by
  rw [places, List.mem_product, List.mem_range, List.mem_range]

theorem pairwise_places (n : Nat) : (places n).Pairwise ReadBefore := by
  refine List.pairwise_flatMap.mpr ⟨fun j _ => ?_, ?_⟩
  · exact List.pairwise_map.mpr (List.pairwise_lt_range.imp fun h => Or.inr ⟨rfl, h⟩)
  · refine List.pairwise_lt_range.imp fun h c hc c' hc' => ?_
    obtain ⟨i, -, rfl⟩ := List.mem_map.mp hc
    obtain ⟨i', -, rfl⟩ := List.mem_map.mp hc'
    exact Or.inl h

/-! ## Tables -/

section Tables

variable {β γ δ : Type}

/-- The values at the places of a square, row by row. -/
def table (n : Nat) (value : Nat × Nat → β) : List (List β) :=
  (List.range n).map fun j => (List.range n).map fun i => value (j, i)

variable {n : Nat} {value : Nat × Nat → β}

theorem getElem?_table {j i : Nat} (hj : j < n) (hi : i < n) :
    (table n value)[j]?.bind (·[i]?) = some (value (j, i)) := by
  rw [table, List.getElem?_map, List.getElem?_range hj, Option.map_some, Option.bind_some,
    List.getElem?_map, List.getElem?_range hi, Option.map_some]

theorem getElem?_table_eq_none {j i : Nat} (h : ¬ (j < n ∧ i < n)) :
    (table n value)[j]?.bind (·[i]?) = none := by
  rw [table, List.getElem?_map]
  by_cases hj : j < n
  · rw [List.getElem?_range hj, Option.map_some, Option.bind_some, List.getElem?_eq_none]
    rw [List.length_map, List.length_range]
    omega
  · rw [List.getElem?_eq_none (by rw [List.length_range]; omega), Option.map_none, Option.bind_none]

theorem mem_table {row : List β} (hrow : row ∈ table n value) :
    row.length = n ∧ ∀ v ∈ row, ∃ c, v = value c := by
  obtain ⟨j, -, rfl⟩ := List.mem_map.mp hrow
  refine ⟨by rw [List.length_map, List.length_range], fun v hv => ?_⟩
  obtain ⟨i, -, rfl⟩ := List.mem_map.mp hv
  exact ⟨(j, i), rfl⟩

theorem map_table (f : β → γ) : (table n value).map (List.map f) = table n fun c => f (value c) := by
  simp only [table, List.map_map, Function.comp_def]

theorem zipWith_table (f : β → γ → δ) (value' : Nat × Nat → γ) :
    List.zipWith (List.zipWith f) (table n value) (table n value') = table n fun c => f (value c) (value' c) := by
  simp only [table, List.zipWith_map, List.zipWith_self]

theorem sum_table (value : Nat × Nat → ℝ) : ((table n value).map List.sum).sum =
    ∑ j ∈ Finset.range n, ∑ i ∈ Finset.range n, value (j, i) := by
  rw [table, List.map_map]
  rfl

end Tables
end FieldScript
