import FieldScript.Scalar

/-!
# Weighted graphs

Undirected graphs with lengths on their edges, and shortest paths by
Dijkstra's algorithm. The queue is a list in order of distance, and of
vertices at equal distances; an entry that a shorter one has overtaken is
skipped. A distance that is missing, or not finite, counts as infinite.
-/

namespace FieldScript

/-- For each vertex its neighbours with the lengths of the edges to them.
An edge may stand there more than once. -/
structure Graph (α : Type) where
  neighbours : Array (List (Nat × α))

namespace Graph

variable {α : Type} [Scalar α]

def size (g : Graph α) : Nat := g.neighbours.size

def isolated (n : Nat) : Graph α := ⟨Array.replicate n []⟩

/-- The neighbours of a vertex. -/
def around (g : Graph α) (u : Nat) : List (Nat × α) := (g.neighbours[u]?).getD []

/-- The graph with an arc after the others from the same vertex. -/
def addArc (g : Graph α) (u v : Nat) (length : α) : Graph α :=
  ⟨g.neighbours.modify u fun ns => ns ++ [(v, length)]⟩

/-- The graph with one more edge, which both ends see. -/
def addEdge (g : Graph α) (u v : Nat) (length : α) : Graph α :=
  (g.addArc u v length).addArc v u length

def ofEdges (n : Nat) (edges : List (Nat × Nat × α)) : Graph α :=
  edges.foldl (fun g (u, v, length) => g.addEdge u v length) (isolated n)

/-- How many arcs the graph has. -/
def arcCount (g : Graph α) : Nat := g.neighbours.foldl (fun n ns => n + ns.length) 0

/-! ## Shortest paths -/

/-- The state of a search. -/
structure Search (α : Type) where
  distance : Array (Option α)
  previous : Array (Option Nat)
  queue : List (α × Nat)

namespace Search

def start (n source : Nat) : Search α where
  distance := (Array.replicate n none).setIfInBounds source (some 0)
  previous := Array.replicate n none
  queue := [(0, source)]

def distance? (s : Search α) (v : Nat) : Option α := (s.distance[v]?).join

def previous? (s : Search α) (v : Nat) : Option Nat := (s.previous[v]?).join

/-- Whether an entry comes before another one in the queue. -/
def before (a b : α × Nat) : Bool :=
  Scalar.less a.1 b.1 || (Scalar.equal a.1 b.1 && a.2 < b.2)

/-- The queue with one more entry, in order. -/
def enqueue (e : α × Nat) : List (α × Nat) → List (α × Nat)
  | [] => [e]
  | f :: rest => if before e f then e :: f :: rest else f :: enqueue e rest

/-- Whether a distance is shorter than what is known. -/
def improves (d : α) : Option α → Bool
  | none => Scalar.isFinite d
  | some old => Scalar.less d old

/-- Takes note of a way to `v` over `u`. -/
def relax (s : Search α) (u : Nat) (d : α) (v : Nat) : Search α :=
  if improves d (s.distance? v) then
    { distance := s.distance.setIfInBounds v (some d)
      previous := s.previous.setIfInBounds v (some u)
      queue := enqueue (d, v) s.queue }
  else s

/-- Takes note of all ways over a vertex at some distance. -/
def relaxAll (g : Graph α) (u : Nat) (d : α) (s : Search α) : Search α :=
  (g.around u).foldl (fun s (v, length) => s.relax u (d + length) v) s

/-- Whether a queue entry was overtaken. -/
def isStale (s : Search α) (d : α) (u : Nat) : Bool :=
  match s.distance? u with
  | none => false
  | some best => Scalar.less best d

/-- Searches until the target is reached or nothing is left. A vertex can
be reached anew only by an arc, which bounds the number of rounds. -/
def run (g : Graph α) (target : Option Nat) : Nat → Search α → Search α
  | 0, s => s
  | n + 1, s =>
    match s.queue with
    | [] => s
    | (d, u) :: queue =>
      let s := { s with queue }
      if target == some u then s
      else if s.isStale d u then run g target n s
      else run g target n (relaxAll g u d s)

/-- The vertices from the source to a vertex, in reverse. -/
def pathTo (s : Search α) (source : Nat) : Nat → Nat → List Nat
  | 0, v => [v]
  | n + 1, v =>
    if v == source then [v]
    else
      match s.previous? v with
      | none => [v]
      | some u => v :: s.pathTo source n u

end Search

def search (g : Graph α) (source : Nat) (target : Option Nat) : Search α :=
  Search.run g target (g.arcCount + 1) (Search.start g.size source)

/-- The shortest path between two vertices and its length; nothing if
there is none. -/
def shortestPath? (g : Graph α) (source target : Nat) : Option (List Nat × α) :=
  let s := g.search source (some target)
  (s.distance? target).map fun d => ((s.pathTo source g.size target).reverse, d)

/-- The distances of all vertices; none where there is no path. -/
def distances (g : Graph α) (source : Nat) : List (Option α) :=
  (g.search source none).distance.toList

/-- The distances of all vertices along edges between them. -/
def distancesOver (n : Nat) (edges : List (Nat × Nat × α)) (source : Nat) : List (Option α) :=
  (ofEdges n edges).distances source

end Graph
end FieldScript
