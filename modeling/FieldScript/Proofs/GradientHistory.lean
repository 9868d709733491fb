import FieldScript.Particle.System
import FieldScript.Proofs.Outcome

/-!
# Remembered gradients are current

A cache knows neither the potential nor the width of the difference that
its gradients were computed with, and not even the very points: only the
rounded ones. It is right because whoever changes the potential clears it.

What is asked of a system is written down as a history: every lookup, with
the system as it is at that time, and every time at which the remembered
gradients are forgotten (`Event`). `Remembers` relates a system to the
history behind it: each entry is the gradient of the present potential at
a point that was looked up since gradients were last forgotten. One lookup
preserves this (`Remembers.asked`), hence every request does, whatever
fails in it, and hence every sequence of requests (`gradients_current`).
-/

namespace FieldScript

variable {α : Type} [Scalar α]

/-! ## One lookup in a cache -/

namespace GradientCache

/-- What a lookup can do: it has no key, it finds a gradient, it computes
one, or it makes room for one that is not computed. -/
inductive Looks (c : GradientCache α) (f : Potential α) (x y h : α) :
    Except Failure (α × α) × GradientCache α → Prop
  | unkeyed {e : Failure} (hkey : c.key x y = .error e) : Looks c f x y h (.error e, c)
  | hit {k k' g : α × α} (hkey : c.key x y = .ok k) (hentry : (k', g) ∈ c.entries)
      (hsame : sameKey k' k = true) : Looks c f x y h (.ok g, { c with hits := c.hits + 1 })
  | miss {k g : α × α} (hkey : c.key x y = .ok k) (hg : f.gradient x y h = .ok g) :
      Looks c f x y h (.ok g, { makeRoom { c with misses := c.misses + 1 } with
        entries := (k, g) :: (makeRoom { c with misses := c.misses + 1 }).entries })
  | failed {k : α × α} {e : Failure} (hkey : c.key x y = .ok k)
      (he : f.gradient x y h = .error e) :
      Looks c f x y h (.error e, makeRoom { c with misses := c.misses + 1 })

theorem looks_gradient (c : GradientCache α) (f : Potential α) (x y h : α) :
    c.Looks f x y h (c.gradient f x y h) := by
  rw [gradient]
  cases hkey : c.key x y with
  | error e => exact .unkeyed hkey
  | ok k =>
      dsimp only
      cases hfind : c.find? k with
      | some g =>
          obtain ⟨⟨k', g'⟩, hentry, rfl⟩ := Option.map_eq_some_iff.mp hfind
          have hsame := List.find?_some hentry
          exact .hit hkey (List.mem_of_find?_eq_some hentry) hsame
      | none =>
          dsimp only
          cases hg : f.gradient x y h with
          | ok g => exact .miss hkey hg
          | error e => exact .failed hkey hg

/-- There is room for one more entry, and nothing else is changed. -/
structure HasRoom (c room : GradientCache α) : Prop where
  capacity : room.capacity = c.capacity
  precision : room.precision = c.precision
  hits : room.hits = c.hits
  misses : room.misses = c.misses
  entries : room.entries ⊆ c.entries
  size : ((room.size + 1 : Nat) : Int) ≤ max 1 c.capacity

omit [Scalar α] in
theorem hasRoom_makeRoom (c : GradientCache α) : HasRoom c c.makeRoom := by
  rw [makeRoom]
  split
  · refine ⟨rfl, rfl, rfl, rfl, List.nil_subset _, ?_⟩
    show ((0 + 1 : Nat) : Int) ≤ max 1 c.capacity
    omega
  · refine ⟨rfl, rfl, rfl, rfl, List.Subset.refl _, ?_⟩
    rw [size]
    omega

end GradientCache

namespace ParticleSystem

/-! ## Histories -/

/-- A gradient that is looked up at a point, in the system as it is at
that time. -/
structure Lookup (α : Type) where
  system : ParticleSystem α
  x : α
  y : α

namespace Lookup

def answer (q : Lookup α) : Except Failure (α × α) := (q.system.gradient q.x q.y).1

/-- The rounded coordinates, if they are not out of range. -/
def key? (q : Lookup α) : Option (α × α) := q.system.cache.bind fun c => (c.key q.x q.y).toOption

/-- The points have equal keys. -/
def SameKey (p q : Lookup α) : Prop :=
  ∃ k k', p.key? = some k ∧ q.key? = some k' ∧ (k = k' ∨ GradientCache.sameKey k k' = true)

end Lookup

inductive Event (α : Type) where
  | asked (q : Lookup α)
  | forgotten

/-- The lookups since gradients were last forgotten. -/
def since (log : List (Event α)) : List (Lookup α) :=
  log.foldl (fun qs e => match e with
    | .asked q => qs ++ [q]
    | .forgotten => []) []

/-- The lookups that have a key; without one the cache is not reached. -/
def keyed (log : List (Event α)) : List (Lookup α) :=
  log.filterMap fun
    | .asked q => if q.key?.isSome then some q else none
    | .forgotten => none

omit [Scalar α] in
theorem since_asked (log : List (Event α)) (q : Lookup α) : since (log ++ [.asked q]) = since log ++ [q] := by
  rw [since, List.foldl_append]
  rfl

/-! ## Requests -/

/-- What is asked of a system. Particles are the caller's. -/
inductive Request (α : Type) where
  | populate (count : Nat)
  | spawn (id : Int)
  | step (ps : List (Particle α)) (dt? : Option α)
  | run (ps : List (Particle α)) (dt? : Option α) (steps : Nat)
  | respawn (p : Particle α)
  | setPotential (f : Potential α)
  | invalidate
  | gradient (x y : α)

/-- The system after a request, be it answered or not. -/
def serve (s : ParticleSystem α) : Request α → ParticleSystem α
  | .populate count => (s.populate count).2
  | .spawn id => (s.spawn id).2
  | .step ps dt? => (s.step ps dt?).system
  | .run ps dt? steps => (s.run ps dt? steps).system
  | .respawn p => (s.respawn p).2
  | .setPotential f => s.setPotential f
  | .invalidate => s.invalidate
  | .gradient x y => (s.gradient x y).2

/-- Every particle looks up the gradient at its place, up to a failure. -/
def eventsOfAdvanceAll (s : ParticleSystem α) (dt : α) : List (Particle α) → List (Event α)
  | [] => []
  | p :: ps =>
    .asked ⟨s, p.x, p.y⟩ :: match s.advance p dt with
      | ⟨_, _, some _⟩ => []
      | ⟨_, s, none⟩ => s.eventsOfAdvanceAll dt ps

def eventsOfRun (s : ParticleSystem α) (ps : List (Particle α)) (dt? : Option α) :
    Nat → List (Event α)
  | 0 => []
  | n + 1 =>
    s.eventsOfAdvanceAll (s.timeOf dt?) ps ++ match s.step ps dt? with
      | ⟨_, _, some _⟩ => []
      | ⟨ps, s, none⟩ => s.eventsOfRun ps dt? n

/-- What happens in a request. -/
def eventsOf (s : ParticleSystem α) : Request α → List (Event α)
  | .populate _ | .spawn _ | .respawn _ => []
  | .step ps dt? => s.eventsOfAdvanceAll (s.timeOf dt?) ps
  | .run ps dt? steps => s.eventsOfRun ps dt? steps
  | .setPotential _ | .invalidate => [.forgotten]
  | .gradient x y => [.asked ⟨s, x, y⟩]

def serveAll (s : ParticleSystem α) (rs : List (Request α)) : ParticleSystem α := rs.foldl serve s

/-- What happens in requests one after the other. -/
def history (s : ParticleSystem α) : List (Request α) → List (Event α)
  | [] => []
  | r :: rs => s.eventsOf r ++ (s.serve r).history rs

/-! ## What a cache remembers -/

/-- The entries of a cache are as few as its capacity allows, or one, and
its lookups are counted. -/
structure Counted (capacity : Int) (log : List (Event α)) (c : GradientCache α) : Prop where
  size : (c.size : Int) ≤ max 1 capacity
  count : c.hits + c.misses = (keyed log).length

/-- The system has a cache, and what it remembers are gradients of the
present potential, at points that were looked up since gradients were
last forgotten. -/
structure Remembers (capacity : Int) (log : List (Event α)) (s : ParticleSystem α)
    (c : GradientCache α) : Prop extends Counted capacity log c where
  cache : s.cache = some c
  capacity_eq : c.capacity = capacity
  entries : ∀ k g, (k, g) ∈ c.entries →
    ∃ p ∈ since log, p.key? = some k ∧ s.potential.gradient p.x p.y s.physics.h = .ok g

variable {capacity : Int} {log es es' : List (Event α)} {s s' s'' : ParticleSystem α}
  {c : GradientCache α}

theorem gradient_eq (h : s.cache = some c) (x y : α) : s.gradient x y =
    ((c.gradient s.potential x y s.physics.h).1,
      { s with cache := some (c.gradient s.potential x y s.physics.h).2 }) := by
  rw [gradient, h]

theorem Lookup.key?_eq (h : s.cache = some c) (x y : α) :
    Lookup.key? ⟨s, x, y⟩ = (c.key x y).toOption := by
  rw [Lookup.key?, h, Option.bind_some]

theorem length_keyed_asked (log : List (Event α)) (q : Lookup α) : (keyed (log ++ [.asked q])).length =
    (keyed log).length + if q.key?.isSome then 1 else 0 := by
  rw [keyed, List.filterMap_append, List.length_append, ← keyed]
  cases h : q.key? <;> simp [keyed, h]

/-- The gradient that a lookup answers with belongs to a point with the
same key, which was looked up since gradients were last forgotten. -/
theorem Remembers.answer (h : Remembers capacity log s c) {x y : α} {g : α × α}
    (hg : Lookup.answer ⟨s, x, y⟩ = .ok g) :
    ∃ p ∈ since log ++ [⟨s, x, y⟩], p.SameKey ⟨s, x, y⟩ ∧
      s.potential.gradient p.x p.y s.physics.h = .ok g := by
  have hkey? := Lookup.key?_eq h.cache x y
  have hlooks := c.looks_gradient s.potential x y s.physics.h
  rw [Lookup.answer, gradient_eq h.cache] at hg
  generalize c.gradient s.potential x y s.physics.h = r at hg hlooks
  cases hlooks with
  | unkeyed | failed => cases hg
  | @hit k k' g' hkey hentry hsame =>
      obtain rfl := Except.ok.inj hg
      obtain ⟨p, hp, hpkey, hpg⟩ := h.entries k' g' hentry
      rw [hkey] at hkey?
      exact ⟨p, List.mem_append_left _ hp, ⟨k', k, hpkey, hkey?, Or.inr hsame⟩, hpg⟩
  | @miss k g' hkey hcomputed =>
      obtain rfl := Except.ok.inj hg
      rw [hkey] at hkey?
      exact ⟨⟨s, x, y⟩, List.mem_append_right _ List.mem_cons_self,
        ⟨k, k, hkey?, hkey?, Or.inl rfl⟩, hcomputed⟩

/-- After a lookup the system remembers what it may. -/
theorem Remembers.asked (h : Remembers capacity log s c) (x y : α) :
    Remembers capacity (log ++ [.asked ⟨s, x, y⟩]) (s.gradient x y).2
      (c.gradient s.potential x y s.physics.h).2 := by
  have hkey? := Lookup.key?_eq h.cache x y
  have hcount := length_keyed_asked log ⟨s, x, y⟩
  have hlooks := c.looks_gradient s.potential x y s.physics.h
  -- What was remembered before still may be: the lookup forgets nothing.
  have hold : ∀ k g, (k, g) ∈ c.entries → ∃ p ∈ since (log ++ [.asked ⟨s, x, y⟩]),
      p.key? = some k ∧ s.potential.gradient p.x p.y s.physics.h = .ok g := by
    intro k g hentry
    obtain ⟨p, hp, hpg⟩ := h.entries k g hentry
    rw [since_asked]
    exact ⟨p, List.mem_append_left _ hp, hpg⟩
  have hsize := h.size
  have hcounted := h.count
  rw [gradient_eq h.cache]
  generalize c.gradient s.potential x y s.physics.h = r at hlooks
  cases hlooks with
  | unkeyed hkey =>
      rw [hkey] at hkey?
      rw [hkey?] at hcount
      exact ⟨⟨hsize, hcounted.trans hcount.symm⟩, rfl, h.capacity_eq, hold⟩
  | hit hkey =>
      rw [hkey] at hkey?
      rw [hkey?] at hcount
      refine ⟨⟨hsize, ?_⟩, rfl, h.capacity_eq, hold⟩
      show c.hits + 1 + c.misses = _
      rw [hcount, ← hcounted, Nat.add_right_comm]
      rfl
  | @failed k e hkey =>
      rw [hkey] at hkey?
      rw [hkey?] at hcount
      have hroom := GradientCache.hasRoom_makeRoom { c with misses := c.misses + 1 }
      refine ⟨⟨?_, ?_⟩, rfl, hroom.capacity.trans h.capacity_eq, fun k g hentry => ?_⟩
      · exact Int.le_trans (Int.ofNat_le.mpr (Nat.le_succ _)) (h.capacity_eq ▸ hroom.size)
      · rw [hroom.hits, hroom.misses, hcount, ← hcounted]
        rfl
      · exact hold k g (hroom.entries hentry)
  | @miss k g hkey hg =>
      rw [hkey] at hkey?
      rw [hkey?] at hcount
      have hroom := GradientCache.hasRoom_makeRoom { c with misses := c.misses + 1 }
      refine ⟨⟨?_, ?_⟩, rfl, hroom.capacity.trans h.capacity_eq, fun k' g' hentry => ?_⟩
      · exact h.capacity_eq ▸ hroom.size
      · dsimp only
        rw [hroom.hits, hroom.misses, hcount, ← hcounted]
        rfl
      · rcases List.mem_cons.mp hentry with heq | hentry
        · obtain ⟨rfl, rfl⟩ := Prod.mk.inj heq
          rw [since_asked]
          exact ⟨⟨s, x, y⟩, List.mem_append_right _ List.mem_cons_self, hkey?, hg⟩
        · exact hold k' g' (hroom.entries hentry)

/-- Forgetting is right for any potential. -/
theorem Remembers.forgotten (h : Remembers capacity log s c) (f : Potential α) :
    Remembers capacity (log ++ [.forgotten]) { s with potential := f }.invalidate c.clear where
  size := by
    show ((0 : Nat) : Int) ≤ _
    omega
  count := by
    rw [keyed, List.filterMap_append, ← keyed]
    exact h.count.trans (congrArg List.length (List.append_nil _)).symm
  cache := by
    show s.cache.map _ = _
    rw [h.cache]
    rfl
  capacity_eq := h.capacity_eq
  entries := fun _ _ hentry => nomatch hentry

/-- The systems differ in what has no part in gradients. -/
structure SameField (s s' : ParticleSystem α) : Prop where
  potential : s'.potential = s.potential
  physics : s'.physics = s.physics
  cache : s'.cache = s.cache

omit [Scalar α] in
theorem SameField.refl (s : ParticleSystem α) : SameField s s := ⟨rfl, rfl, rfl⟩

omit [Scalar α] in
theorem SameField.trans (h : SameField s s') (h' : SameField s' s'') : SameField s s'' :=
  ⟨h'.potential.trans h.potential, h'.physics.trans h.physics, h'.cache.trans h.cache⟩

theorem Remembers.congr (h : Remembers capacity log s c) (hs : SameField s s') :
    Remembers capacity log s' c where
  toCounted := h.toCounted
  cache := hs.cache.trans h.cache
  capacity_eq := h.capacity_eq
  entries := by
    rw [hs.potential, hs.physics]
    exact h.entries

/-! ## Parts of a history -/

/-- On the way from a history to one that goes on with these events, every
system that is asked remembers what it may, and so does the last. -/
structure Passes (capacity : Int) (log es : List (Event α)) (s' : ParticleSystem α) : Prop where
  asked : ∀ before q after, es = before ++ .asked q :: after →
    ∃ c, Remembers capacity (log ++ before) q.system c
  final : ∃ c, Remembers capacity (log ++ es) s' c

theorem Passes.nil (h : Remembers capacity log s c) : Passes capacity log [] s where
  asked := by simp
  final := ⟨c, (List.append_nil log).symm ▸ h⟩

theorem Passes.append (h : Passes capacity log es s')
    (h' : ∀ c, Remembers capacity (log ++ es) s' c → Passes capacity (log ++ es) es' s'') :
    Passes capacity log (es ++ es') s'' where
  asked := by
    intro before q after hsplit
    obtain ⟨c, hc⟩ := h.final
    rcases List.append_eq_append_iff.mp hsplit with ⟨mid, rfl, hmid⟩ | ⟨mid, hes, hmid⟩
    · rw [← List.append_assoc]
      exact (h' c hc).asked mid q after hmid
    · cases mid with
      | nil =>
          rw [List.append_nil] at hes
          rw [← hes, ← List.append_nil (log ++ es)]
          exact (h' c hc).asked [] q after hmid.symm
      | cons e mid =>
          obtain ⟨rfl, -⟩ := List.cons.inj hmid
          exact h.asked before q mid hes
  final := by
    obtain ⟨c, hc⟩ := h.final
    rw [← List.append_assoc]
    exact (h' c hc).final

theorem Passes.congr (h : Passes capacity log es s) (hs : SameField s s') :
    Passes capacity log es s' where
  asked := h.asked
  final := h.final.imp fun _ hc => hc.congr hs

theorem passes_gradient (h : Remembers capacity log s c) (x y : α) :
    Passes capacity log [.asked ⟨s, x, y⟩] (s.gradient x y).2 where
  asked := by
    intro before q after hsplit
    cases before with
    | nil =>
        obtain ⟨hq, -⟩ := List.cons.inj hsplit
        cases hq
        exact ⟨c, (List.append_nil log).symm ▸ h⟩
    | cons e before =>
        obtain ⟨-, hnil⟩ := List.cons.inj hsplit
        cases before <;> cases hnil
  final := ⟨_, h.asked x y⟩

theorem passes_setPotential (h : Remembers capacity log s c) (f : Potential α) :
    Passes capacity log [.forgotten] (s.setPotential f) where
  asked := by
    intro before q after hsplit
    cases before with
    | nil => cases hsplit
    | cons e before =>
        obtain ⟨-, hnil⟩ := List.cons.inj hsplit
        cases before <;> cases hnil
  final := ⟨_, h.forgotten f⟩

/-! ## Particles -/

theorem sameField_place (s : ParticleSystem α) (id : Int) : SameField s (s.place id).2 := ⟨rfl, rfl, rfl⟩

theorem sameField_spawn (s : ParticleSystem α) (id : Int) : SameField s (s.spawn id).2 := by
  rw [spawn]
  split
  · exact .refl s
  · exact sameField_place s id

theorem sameField_spawnAll (s : ParticleSystem α) (ids : List Int) : SameField s (s.spawnAll ids).2 := by
  induction ids generalizing s with
  | nil => exact .refl s
  | cons id ids ih =>
      have hspawn := sameField_spawn s id
      rw [spawnAll]
      split <;> rename_i hresult <;> rw [hresult] at hspawn
      · exact hspawn
      · rename_i p s₁
        have hrest := ih s₁
        split <;> rename_i hresult <;> rw [hresult] at hrest <;> exact hspawn.trans hrest

theorem sameField_respawn (s : ParticleSystem α) (p : Particle α) : SameField s (s.respawn p).2 :=
  ⟨rfl, rfl, rfl⟩

theorem sameField_recover (s : ParticleSystem α) (p : Particle α) : SameField s (s.recover p).2 := by
  rw [recover]
  split
  · exact .refl s
  · exact sameField_respawn s p

/-- Moving a particle is a lookup, as far as gradients go. -/
theorem sameField_advance (s : ParticleSystem α) (p : Particle α) (dt : α) :
    SameField (s.gradient p.x p.y).2 (s.advance p dt).system := by
  rw [advance]
  split <;> rename_i hgradient <;> rw [hgradient]
  · exact .refl _
  · exact sameField_recover _ _

theorem passes_advanceAll (h : Remembers capacity log s c) (dt : α) (ps : List (Particle α)) :
    Passes capacity log (s.eventsOfAdvanceAll dt ps) (s.advanceAll dt ps).system := by
  induction ps generalizing s log c with
  | nil => exact .nil h
  | cons p ps ih =>
      have hfirst := (passes_gradient h p.x p.y).congr (s.sameField_advance p dt)
      rw [eventsOfAdvanceAll, advanceAll, ← List.singleton_append]
      refine hfirst.append fun c' hc' => ?_
      generalize s.advance p dt = advanced at hc' ⊢
      obtain ⟨p', s', failure?⟩ := advanced
      cases failure? with
      | some e => exact .nil hc'
      | none => exact ih hc'

theorem passes_run (h : Remembers capacity log s c) (ps : List (Particle α)) (dt? : Option α)
    (steps : Nat) :
    Passes capacity log (s.eventsOfRun ps dt? steps) (s.run ps dt? steps).system := by
  induction steps generalizing s log c ps with
  | zero => exact .nil h
  | succ n ih =>
      rw [eventsOfRun, run]
      refine (passes_advanceAll h (s.timeOf dt?) ps).append fun c' hc' => ?_
      rw [← step] at hc'
      generalize s.step ps dt? = stepped at hc' ⊢
      obtain ⟨ps', s', failure?⟩ := stepped
      cases failure? with
      | some e => exact .nil hc'
      | none => exact ih hc' ps'

/-! ## Requests -/

theorem passes_serve (h : Remembers capacity log s c) (r : Request α) :
    Passes capacity log (s.eventsOf r) (s.serve r) := by
  cases r with
  | populate count => exact (Passes.nil h).congr (s.sameField_spawnAll _)
  | spawn id => exact (Passes.nil h).congr (s.sameField_spawn id)
  | step ps dt? => exact passes_advanceAll h _ ps
  | run ps dt? steps => exact passes_run h ps dt? steps
  | respawn p => exact (Passes.nil h).congr (s.sameField_respawn p)
  | setPotential f => exact passes_setPotential h f
  | invalidate => exact passes_setPotential h s.potential
  | gradient x y => exact passes_gradient h x y

theorem passes_serveAll (h : Remembers capacity log s c) (rs : List (Request α)) :
    Passes capacity log (s.history rs) (s.serveAll rs) := by
  induction rs generalizing s log c with
  | nil => exact .nil h
  | cons r rs ih =>
      rw [history, serveAll, List.foldl_cons]
      exact (passes_serve h r).append fun c' hc' => ih hc'

theorem remembers_ofAnchors (potential : Potential α) (physics : Physics α)
    (anchors : List (Point2 α)) (capacity precision : Int) (random : RandomSource α) :
    Remembers capacity []
      (ofAnchors potential physics anchors (some (.empty capacity precision)) random)
      (.empty capacity precision) where
  size := by
    show ((0 : Nat) : Int) ≤ _
    omega
  count := rfl
  cache := rfl
  capacity_eq := rfl
  entries := fun _ _ hentry => nomatch hentry

/-- Whatever is asked of a system with a cache of its own, and whatever
fails on the way: a lookup that gives a gradient gives that of the present
potential at a point with the same key that was looked up since gradients
were last forgotten; and at every lookup and at the end, the cache holds no
more than its capacity, or one, and has counted all lookups. -/
theorem gradients_current (potential : Potential α) (physics : Physics α)
    (anchors : List (Point2 α)) (capacity precision : Int) (random : RandomSource α)
    (rs : List (Request α)) :
    let s := ofAnchors potential physics anchors (some (.empty capacity precision)) random
    (∀ before q after, s.history rs = before ++ .asked q :: after →
      (∀ g, q.answer = .ok g → ∃ p ∈ since before ++ [q], p.SameKey q ∧
        q.system.potential.gradient p.x p.y q.system.physics.h = .ok g) ∧
      ∃ c, q.system.cache = some c ∧ Counted capacity before c) ∧
    ∃ c, (s.serveAll rs).cache = some c ∧ Counted capacity (s.history rs) c := by
  dsimp only
  have hstart := remembers_ofAnchors potential physics anchors capacity precision random
  have hpasses := passes_serveAll hstart rs
  refine ⟨fun before q after hsplit => ?_, ?_⟩
  · obtain ⟨c, hc⟩ := hpasses.asked before q after hsplit
    exact ⟨fun g hg => hc.answer hg, c, hc.cache, hc.toCounted⟩
  · obtain ⟨c, hc⟩ := hpasses.final
    exact ⟨c, hc.cache, hc.toCounted⟩

/-- A bowl, whose cache holds one gradient. -/
def bowl : ParticleSystem Float :=
  ofAnchors (fun x y => .ok (x * x + y * y)) .standard [] (some (.empty 1 2)) .constant

/-- Two points with one key, another potential, and one of the points
again. -/
def askedAround : List (Request Float) :=
  [.gradient 0.501 0, .gradient 0.499 0.001, .setPotential fun x _ => .ok x, .gradient 0.501 0]

/-- Only the second lookup finds a gradient. -/
theorem gradients_current_bowl :
    ∃ c, (bowl.serveAll askedAround).cache = some c ∧
      Counted 1 (bowl.history askedAround) c ∧ c.hits = 1 ∧ c.misses = 2 := by
  have hcounts : (bowl.serveAll askedAround).cache.map (fun c => (c.hits, c.misses)) =
      some (1, 2) := by decide +kernel
  obtain ⟨c, hc, hcounted⟩ := (gradients_current (α := Float) (fun x y => .ok (x * x + y * y))
    .standard [] 1 2 .constant askedAround).2
  have hcache : (bowl.serveAll askedAround).cache = some c := hc
  rw [hcache] at hcounts
  obtain ⟨hhits, hmisses⟩ := Prod.mk.inj (Option.some.inj hcounts)
  exact ⟨c, hc, hcounted, hhits, hmisses⟩

end ParticleSystem
end FieldScript
