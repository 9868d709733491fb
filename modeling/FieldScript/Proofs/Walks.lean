import FieldScript.Graph
import FieldScript.Proofs.ExactNumbers

/-!
# Walks

Graphs whose arcs have lengths in exact arithmetic. A walk may take any
arcs, again and again; a way lists the vertices that it visits and takes
the shortest arc between any two of them.
-/

namespace FieldScript.Graph

variable {g : Graph Exact} {u v source : Nat} {x y w : ℝ} {p : List Nat}

/-- One of the arcs from `u` to `v` has this length. -/
def Arc (g : Graph Exact) (u v : Nat) (x : ℝ) : Prop := (v, Exact.number x) ∈ g.around u

/-- All arcs lead to vertices, and no length is negative. -/
def Metric (g : Graph Exact) : Prop :=
  ∀ u, ∀ a ∈ g.around u, a.1 < g.size ∧ ∃ x : ℝ, 0 ≤ x ∧ a.2 = .number x

/-- A walk from the source to a vertex, and its length. -/
inductive Walk (g : Graph Exact) (source : Nat) : Nat → ℝ → Prop
  | start : Walk g source source 0
  | step {u v : Nat} {x w : ℝ} (hwalk : Walk g source u x) (harc : g.Arc u v w) :
      Walk g source v (x + w)

/-- The vertices of a way, and its length: the sum of the lengths of the
shortest arcs between neighbours. -/
inductive Way (g : Graph Exact) : List Nat → ℝ → Prop
  | single (u : Nat) : Way g [u] 0
  | cons {u v : Nat} {p : List Nat} {x w : ℝ} (hleast : IsLeast {y | g.Arc u v y} w)
      (hway : Way g (v :: p) x) : Way g (u :: v :: p) (w + x)

theorem Metric.lt_size (hg : g.Metric) (h : g.Arc u v x) : v < g.size := (hg u _ h).1

theorem Metric.nonneg (hg : g.Metric) (h : g.Arc u v x) : 0 ≤ x := by
  obtain ⟨y, hy, heq⟩ := (hg u _ h).2
  cases heq
  exact hy

theorem Way.append (h : Way g p x) (hlast : p.getLast? = some u)
    (hleast : IsLeast {y | g.Arc u v y} w) : Way g (p ++ [v]) (x + w) := by
  induction h with
  | single u' =>
      obtain rfl : u' = u := by simpa using hlast
      have hone := Way.cons hleast (Way.single v)
      rwa [add_comm] at hone
  | @cons u' v' p x' w' hleast' hway ih =>
      have hrest : (v' :: p).getLast? = some u := by simpa using hlast
      have hway' := Way.cons hleast' (ih hrest)
      rwa [← add_assoc] at hway'

theorem Walk.trans (h : Walk g source u x) (h' : Walk g u v y) : Walk g source v (x + y) := by
  induction h' with
  | start => rwa [add_zero]
  | step _ harc ih =>
      rw [← add_assoc]
      exact .step ih harc

/-- Whoever goes along a way walks. -/
theorem Way.walk (h : Way g p x) (hhead : p.head? = some source) (hlast : p.getLast? = some v) :
    Walk g source v x := by
  induction h generalizing source with
  | single u =>
      obtain rfl : u = source := by simpa using hhead
      obtain rfl : u = v := by simpa using hlast
      exact .start
  | @cons u u' p x' w' hleast hway ih =>
      obtain rfl : u = source := by simpa using hhead
      have hfirst : Walk g u u' (0 + w') := .step .start hleast.1
      rw [zero_add] at hfirst
      exact hfirst.trans (ih rfl (by simpa using hlast))

/-- The path runs from the source to the target and repeats no vertex. It
takes the shortest arcs, and no walk is shorter. -/
structure IsShortestPath (g : Graph Exact) (source target : Nat) (p : List Nat) (x : ℝ) : Prop where
  head : p.head? = some source
  last : p.getLast? = some target
  nodup : p.Nodup
  way : g.Way p x
  least : ∀ y, g.Walk source target y → x ≤ y

end FieldScript.Graph
