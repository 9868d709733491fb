import FieldScript.Particle.System
import FieldScript.Proofs.FiniteNumbers

/-!
# Particles stay in the domain

Whatever the state of a particle is and whatever heights the potential
gives, a step leaves the particle at a finite place inside the domain, with
a finite velocity and a trail that ends there. Not-a-number passes through
the gradient, the motion and the bounce, since no comparison holds of it;
then the state is not finite, and the particle is put near its anchor.
There everything is finite: clamping sends what cannot be compared to a
bound, and the velocity is a finite speed times a number between minus one
and one.

Nothing is assumed of the circular functions but that: `Circular` are the
binary64 numbers with any two functions in their place.
-/

namespace FieldScript

open Binary64

/-- Binary64 numbers with these circular functions. -/
def Circular (_sin _cos : Float → Float) : Type := Float

instance (sin cos : Float → Float) : Scalar (Circular sin cos) :=
  show Scalar Float from { (inferInstance : Scalar Float) with sin, cos }

/-- With the functions of the machine they are the numbers that run. -/
theorem circular_machine :
    (inferInstance : Scalar (Circular Float.sin Float.cos)) = (inferInstance : Scalar Float) := rfl

/-- A function that sends finite angles to numbers from minus one to one. -/
def IsCircular (f : Float → Float) : Prop := ∀ x : Float, x.isFinite = true → -1 ≤ f x ∧ f x ≤ 1

section Conditions

variable {α : Type} [Scalar α]

/-- Finite bounds, the first below the second. -/
structure Interval.Bounded (r : Interval α) : Prop where
  low : Scalar.isFinite r.low = true
  high : Scalar.isFinite r.high = true
  less : Scalar.less r.low r.high = true

structure Physics.Sound (k : Physics α) : Prop where
  xRange : k.xRange.Bounded
  yRange : k.yRange.Bounded
  tangentialSpeed : Scalar.isFinite k.tangentialSpeed = true
  h : Scalar.equal k.h 0 = false

/-- Trails can have the length that is asked for. -/
def Physics.HasTrails (k : Physics α) : Prop := 0 ≤ k.trailLength ∧ k.trailLength ≤ Trail.longest

/-- The potential has a height everywhere, be it infinite or not-a-number. -/
def Potential.Total (f : Potential α) : Prop := ∀ x y, ∃ z, f x y = .ok z

/-- Finite coordinates are rounded to finite ones. -/
def GradientCache.Holds (c : GradientCache α) : Prop :=
  ∀ x : α, Scalar.isFinite x = true → Scalar.isFinite (Scalar.round x c.precision) = true

/-- Every number is at least zero and less than one. -/
def RandomSource.Unit (r : RandomSource α) : Prop :=
  ∀ u ∈ r.numbers, Scalar.lessEq 0 u = true ∧ Scalar.less u 1 = true

/-- What steps need of a system. -/
structure ParticleSystem.Ready (s : ParticleSystem α) : Prop where
  physics : s.physics.Sound
  trails : s.physics.HasTrails
  potential : s.potential.Total
  cache : ∀ c, s.cache = some c → c.Holds
  random : s.random.Unit

/-- A finite motion at a place inside the domain. -/
structure Motion.Within (k : Physics α) (m : Motion α) : Prop where
  finite : m.isFinite = true
  x : k.xRange.contains m.x = true
  y : k.yRange.contains m.y = true

/-- A particle after a step: inside the domain, with a trail of bounded
length that ends at the place of the particle. -/
structure Particle.Settled (k : Physics α) (p : Particle α) : Prop where
  within : p.toMotion.Within k
  length : (p.trail.places.length : Int) ≤ k.trailLength
  newest : 0 < k.trailLength →
    ∃ z, Scalar.isFinite z = true ∧ p.trail.places.getLast? = some ⟨p.x, p.y, z⟩

/-- The same potential and constants, and as many numbers of the same
source. -/
structure ParticleSystem.SameRules (s s' : ParticleSystem α) : Prop where
  potential : s'.potential = s.potential
  physics : s'.physics = s.physics
  precision : s'.cache.map GradientCache.precision = s.cache.map GradientCache.precision
  numbers : s'.random.numbers = s.random.numbers

end Conditions

namespace ParticleSystem

section Rules

variable {α : Type} [Scalar α] {s s' s'' : ParticleSystem α}

omit [Scalar α] in
theorem SameRules.refl (s : ParticleSystem α) : SameRules s s := ⟨rfl, rfl, rfl, rfl⟩

omit [Scalar α] in
theorem SameRules.trans (h : SameRules s s') (h' : SameRules s' s'') : SameRules s s'' :=
  ⟨h'.potential.trans h.potential, h'.physics.trans h.physics, h'.precision.trans h.precision,
    h'.numbers.trans h.numbers⟩

theorem SameRules.ready (h : SameRules s s') (hs : s.Ready) : s'.Ready where
  physics := h.physics ▸ hs.physics
  trails := h.physics ▸ hs.trails
  potential := h.potential ▸ hs.potential
  cache := by
    intro c hc
    have hprecision := h.precision
    rw [hc] at hprecision
    cases hcache : s.cache with
    | none => rw [hcache] at hprecision; cases hprecision
    | some c₀ =>
        rw [hcache] at hprecision
        have heq : c.precision = c₀.precision := Option.some.inj hprecision
        intro x hx
        rw [heq]
        exact hs.cache c₀ hcache x hx
  random := by
    intro u hu
    exact hs.random u (h.numbers ▸ hu)

end Rules

end ParticleSystem

variable {sin cos : Float → Float}

/-! ## Walls -/

theorem Circular.less_iff (x y : Float) : Scalar.less (α := Circular sin cos) x y = true ↔ x < y :=
  decide_eq_true_iff

theorem Circular.lessEq_iff (x y : Float) : Scalar.lessEq (α := Circular sin cos) x y = true ↔ x ≤ y :=
  decide_eq_true_iff

namespace Interval.Bounded

open Circular

variable {r : Interval (Circular sin cos)} {v : Circular sin cos}

theorem contains_of_le (hr : r.Bounded) (hlow : Scalar.lessEq r.low v = true)
    (hhigh : Scalar.lessEq v r.high = true) : Scalar.isFinite v = true ∧ r.contains v = true := by
  constructor
  · exact isFinite_of_between hr.low hr.high ((lessEq_iff _ _).mp hlow) ((lessEq_iff _ _).mp hhigh)
  · rw [Interval.contains, hlow, hhigh]
    rfl

theorem contains_low (hr : r.Bounded) : Scalar.isFinite r.low = true ∧ r.contains r.low = true :=
  hr.contains_of_le ((lessEq_iff _ _).mpr (le_refl_of_isFinite hr.low))
    ((lessEq_iff _ _).mpr (le_of_less ((less_iff _ _).mp hr.less)))

theorem contains_high (hr : r.Bounded) : Scalar.isFinite r.high = true ∧ r.contains r.high = true :=
  hr.contains_of_le ((lessEq_iff _ _).mpr (le_of_less ((less_iff _ _).mp hr.less)))
    ((lessEq_iff _ _).mpr (le_refl_of_isFinite hr.high))

/-- A clamped number is inside, even if it was not-a-number. -/
theorem clamp (hr : r.Bounded) (v : Circular sin cos) :
    Scalar.isFinite (r.clamp v) = true ∧ r.contains (r.clamp v) = true := by
  rw [Interval.clamp]
  by_cases hlow : Scalar.less r.low v = true
  · simp only [hlow, if_true]
    by_cases hhigh : Scalar.less v r.high = true
    · simp only [hhigh, if_true]
      exact hr.contains_of_le ((lessEq_iff _ _).mpr (le_of_less ((less_iff _ _).mp hlow)))
        ((lessEq_iff _ _).mpr (le_of_less ((less_iff _ _).mp hhigh)))
    · simp only [hhigh]
      exact hr.contains_high
  · simp only [hlow]
    have hless := hr.less
    simp only [Bool.false_eq_true, if_false, hless, if_true]
    exact hr.contains_low

/-- A bounced coordinate is inside if it is finite. -/
theorem bounceOff (hr : r.Bounded) (restitution x v : Circular sin cos)
    (hfinite : Scalar.isFinite (ParticleSystem.bounceOff r restitution x v).1 = true) :
    r.contains (ParticleSystem.bounceOff r restitution x v).1 = true := by
  rw [ParticleSystem.bounceOff] at hfinite ⊢
  by_cases hbelow : Scalar.less x r.low = true
  · rw [if_pos hbelow]
    exact hr.contains_low.2
  · rw [if_neg hbelow] at hfinite ⊢
    by_cases habove : Scalar.less r.high x = true
    · rw [if_pos habove]
      exact hr.contains_high.2
    · rw [if_neg habove] at hfinite ⊢
      have hlow : Scalar.lessEq r.low x = true :=
        (lessEq_iff _ _).mpr (le_of_not_less hr.low hfinite fun h => hbelow ((less_iff _ _).mpr h))
      have hhigh : Scalar.lessEq x r.high = true :=
        (lessEq_iff _ _).mpr (le_of_not_less hfinite hr.high fun h => habove ((less_iff _ _).mpr h))
      exact (hr.contains_of_le hlow hhigh).2

end Interval.Bounded

/-! ## Placing -/

section Placing

variable {s : ParticleSystem (Circular sin cos)}

theorem RandomSource.Unit.next {r : RandomSource (Circular sin cos)} (hr : r.Unit) :
    Scalar.lessEq 0 r.next.1 = true ∧ Scalar.less r.next.1 1 = true := by
  rw [RandomSource.next]
  dsimp only
  cases hu : r.numbers[r.position % r.numbers.size]? with
  | some u => exact hr u (Array.mem_of_getElem? hu)
  | none =>
      have hzero : (0 : Float) ≤ Scalar.half := by decide
      have hone : (Scalar.half : Float) < 1 := by decide
      exact ⟨(Circular.lessEq_iff _ _).mpr hzero, (Circular.less_iff _ _).mpr hone⟩

theorem IsCircular.isFinite {f : Float → Float} (hf : IsCircular f) {x : Float} (hx : x.isFinite = true) :
    (f x).isFinite = true :=
  isFinite_of_between (by decide) (by decide) (hf x hx).1 (hf x hx).2

/-- A finite speed times a circular function of a finite angle is finite. -/
theorem IsCircular.isFinite_mul {f : Float → Float} (hf : IsCircular f) {k x : Float}
    (hk : k.isFinite = true) (hx : x.isFinite = true) : (k * f x).isFinite = true :=
  Binary64.isFinite_mul hk (hf.isFinite hx) (magnitude_le_one (hf x hx).1 (hf x hx).2)

theorem Physics.HasTrails.limit?_eq {k : Physics (Circular sin cos)} (hk : k.HasTrails) :
    Trail.limit? k.trailLength = .ok k.trailLength.toNat := by
  obtain ⟨hlow, hhigh⟩ := hk
  have hlongest : Trail.longest = 9223372036854775807 := rfl
  rw [Trail.limit?, if_neg (by simp; omega), if_neg (by omega)]

namespace ParticleSystem

theorem sameRules_place (s : ParticleSystem (Circular sin cos)) (id : Int) : SameRules s (s.place id).2 :=
  ⟨rfl, rfl, rfl, rfl⟩

/-- Whatever the anchor and the distances are, a particle is placed inside. -/
theorem Ready.place (hs : s.Ready) (hsin : IsCircular sin) (hcos : IsCircular cos) (id : Int) :
    (s.place id).1.Within s.physics := by
  have hrandom : s.random.next.2.Unit := fun u hu => hs.random u hu
  obtain ⟨hlow, hhigh⟩ := hrandom.next
  have hangle : Float.isFinite (s.random.next.2.next.1 * 2 * Scalar.pi : Circular sin cos) = true :=
    isFinite_turn ((Circular.lessEq_iff _ _).mp hlow) (le_of_less ((Circular.less_iff _ _).mp hhigh))
  have hspeed := hs.physics.tangentialSpeed
  have hvx := hsin.isFinite_mul (isFinite_neg hspeed) hangle
  have hvy := hcos.isFinite_mul hspeed hangle
  refine ⟨?_, (hs.physics.xRange.clamp _).2, (hs.physics.yRange.clamp _).2⟩
  rw [Motion.isFinite, Bool.and_eq_true, Bool.and_eq_true, Bool.and_eq_true]
  exact ⟨⟨⟨(hs.physics.xRange.clamp _).1, (hs.physics.yRange.clamp _).1⟩, hvx⟩, hvy⟩

theorem Ready.respawn (hs : s.Ready) (hsin : IsCircular sin) (hcos : IsCircular cos)
    (p : Particle (Circular sin cos)) :
    (s.respawn p).1.toMotion.Within s.physics ∧ (s.respawn p).1.id = p.id ∧ SameRules s (s.respawn p).2 :=
  ⟨hs.place hsin hcos p.id, rfl, ⟨rfl, rfl, rfl, rfl⟩⟩

theorem Ready.spawn (hs : s.Ready) (hsin : IsCircular sin) (hcos : IsCircular cos) (id : Int) :
    ∃ p s', s.spawn id = (.ok p, s') ∧ p.toMotion.Within s.physics ∧ p.id = id ∧ SameRules s s' := by
  refine ⟨{ (s.place id).1 with id, trail := ⟨some s.physics.trailLength.toNat, []⟩ }, (s.place id).2, ?_,
    hs.place hsin hcos id, rfl, sameRules_place s id⟩
  rw [ParticleSystem.spawn, Trail.bounded?, hs.trails.limit?_eq]

theorem Ready.spawnAll (hs : s.Ready) (hsin : IsCircular sin) (hcos : IsCircular cos) (ids : List Int) :
    ∃ ps s', s.spawnAll ids = (.ok ps, s') ∧ ps.map Particle.id = ids ∧
      (∀ p ∈ ps, p.toMotion.Within s.physics) ∧ SameRules s s' := by
  induction ids generalizing s with
  | nil => exact ⟨[], s, rfl, rfl, by simp, SameRules.refl s⟩
  | cons id ids ih =>
      obtain ⟨p, s₁, hspawn, hwithin, hid, hsame⟩ := hs.spawn hsin hcos id
      obtain ⟨ps, s₂, hrest, hids, hall, hsame'⟩ := ih (hsame.ready hs)
      refine ⟨p :: ps, s₂, ?_, by rw [List.map_cons, hid, hids], ?_, hsame.trans hsame'⟩
      · rw [ParticleSystem.spawnAll, hspawn]
        dsimp only
        rw [hrest]
      · rw [hsame.physics] at hall
        exact List.forall_mem_cons.mpr ⟨hwithin, hall⟩

end ParticleSystem
end Placing

/-! ## Gradients -/

section Gradients

variable {f : Potential (Circular sin cos)} {h : Circular sin cos}

theorem Potential.Total.gradient (hf : f.Total) (hh : Scalar.equal h 0 = false) (x y : Circular sin cos) :
    ∃ g, f.gradient x y h = .ok g := by
  have hwidth : Scalar.equal (2 * h) 0 = false := two_mul_ne_zero (x := h) hh
  have hquotient : ∀ a b : Circular sin cos, Potential.quotient a b (2 * h) = .ok ((a - b) / (2 * h)) := by
    intro a b
    rw [Potential.quotient, hwidth]
    rfl
  obtain ⟨right, hright⟩ := hf (x + h) y
  obtain ⟨left, hleft⟩ := hf (x - h) y
  obtain ⟨above, habove⟩ := hf x (y + h)
  obtain ⟨below, hbelow⟩ := hf x (y - h)
  rw [Potential.gradient, hright, hleft, habove, hbelow]
  simp only [Bind.bind, Except.bind, hquotient]
  exact ⟨_, rfl⟩

theorem GradientCache.Holds.key {c : GradientCache (Circular sin cos)} (hc : c.Holds)
    (x y : Circular sin cos) : ∃ k, c.key x y = .ok k := by
  have hround : ∀ x, c.roundKey x = .ok (Scalar.round x c.precision) := by
    intro x
    rw [GradientCache.roundKey]
    refine if_neg ?_
    rw [Bool.and_eq_true, Bool.not_eq_true']
    rintro ⟨hfinite, hinfinite⟩
    rw [hc x hfinite] at hinfinite
    cases hinfinite
  rw [GradientCache.key, hround, hround]
  exact ⟨_, rfl⟩

theorem GradientCache.Holds.gradient {c : GradientCache (Circular sin cos)} (hc : c.Holds) (hf : f.Total)
    (hh : Scalar.equal h 0 = false) (x y : Circular sin cos) :
    ∃ g c', c.gradient f x y h = (.ok g, c') ∧ c'.precision = c.precision := by
  obtain ⟨k, hkey⟩ := hc.key x y
  obtain ⟨g, hg⟩ := hf.gradient hh x y
  rw [GradientCache.gradient, hkey]
  dsimp only
  cases hfound : c.find? k with
  | some g' => exact ⟨g', _, rfl, rfl⟩
  | none =>
      rw [hg]
      refine ⟨g, _, rfl, ?_⟩
      show (GradientCache.makeRoom _).precision = c.precision
      rw [GradientCache.makeRoom]
      split <;> rfl

/-- A gradient is had of any point, remembered or not. -/
theorem ParticleSystem.Ready.gradient {s : ParticleSystem (Circular sin cos)} (hs : s.Ready)
    (x y : Circular sin cos) : ∃ g s', s.gradient x y = (.ok g, s') ∧ SameRules s s' := by
  rw [ParticleSystem.gradient]
  cases hcache : s.cache with
  | none =>
      obtain ⟨g, hg⟩ := hs.potential.gradient hs.physics.h x y
      exact ⟨g, s, by rw [hg], SameRules.refl s⟩
  | some c =>
      obtain ⟨g, c', hg, hprecision⟩ := (hs.cache c hcache).gradient hs.potential hs.physics.h x y
      refine ⟨g, { s with cache := some c' }, by dsimp only; rw [hg], rfl, rfl, ?_, rfl⟩
      rw [hcache, Option.map_some, Option.map_some, hprecision]

end Gradients

/-! ## One step -/

/-- The last places are as many as the limit allows, and the newest is one
of them unless nothing is kept. -/
theorem Trail.push_keep {α : Type} (n : Nat) (places : List (Point3 α)) (p : Point3 α) :
    ((Trail.mk (some n) places).push p).places.length ≤ n ∧
      (0 < n → ((Trail.mk (some n) places).push p).places.getLast? = some p) := by
  simp only [Trail.push, Trail.keep, List.length_drop, List.length_append, List.length_singleton]
  constructor
  · omega
  · intro hn
    rw [List.getLast?_drop, if_neg (by simp; omega), List.getLast?_concat]

namespace ParticleSystem

variable {s : ParticleSystem (Circular sin cos)} {p : Particle (Circular sin cos)}

theorem Ready.mark (hs : s.Ready) (hp : p.toMotion.Within s.physics) :
    ∃ p', s.mark p = (p', none) ∧ p'.Settled s.physics ∧ p'.id = p.id := by
  obtain ⟨z, hz⟩ := hs.potential p.x p.y
  have hlimit := hs.trails.limit?_eq
  have hnonneg := hs.trails.1
  obtain ⟨hlength, hnewest⟩ := Trail.push_keep s.physics.trailLength.toNat
    (Trail.keep (some s.physics.trailLength.toNat) p.trail.places)
    ⟨p.x, p.y, if Scalar.isFinite z then z else 0⟩
  rw [ParticleSystem.mark, Trail.withLimit?, hlimit, hz]
  refine ⟨_, rfl, ⟨hp, ?_, fun hpos => ⟨if Scalar.isFinite z then z else 0, ?_, hnewest (by omega)⟩⟩, rfl⟩
  · exact (Int.ofNat_le.mpr hlength).trans (Int.toNat_of_nonneg hnonneg).le
  · by_cases hfinite : Scalar.isFinite z = true
    · rw [if_pos hfinite]
      exact hfinite
    · rw [if_neg hfinite]
      show (0 : Float).isFinite = true
      decide

theorem within_bounceMotion {k : Physics (Circular sin cos)} (hk : k.Sound) {m : Motion (Circular sin cos)}
    (h : (bounceMotion k m).isFinite = true) : (bounceMotion k m).Within k := by
  have hall := h
  rw [Motion.isFinite, Bool.and_eq_true, Bool.and_eq_true, Bool.and_eq_true] at hall
  obtain ⟨⟨⟨hx, hy⟩, -⟩, -⟩ := hall
  exact ⟨h, hk.xRange.bounceOff _ _ _ hx, hk.yRange.bounceOff _ _ _ hy⟩

/-- A bounced particle is inside already, or it is put there. -/
theorem Ready.recover_bounce (hs : s.Ready) (hsin : IsCircular sin) (hcos : IsCircular cos)
    (p : Particle (Circular sin cos)) :
    ∃ p' s', s.recover (s.bounce p) = (p', s') ∧ p'.toMotion.Within s.physics ∧ p'.id = p.id ∧
      SameRules s s' := by
  rw [recover]
  split
  · rename_i hfinite
    exact ⟨_, _, rfl, within_bounceMotion hs.physics hfinite, rfl, SameRules.refl s⟩
  · obtain ⟨hwithin, hid, hsame⟩ := hs.respawn hsin hcos (s.bounce p)
    exact ⟨_, _, rfl, hwithin, hid, hsame⟩

/-- One particle is moved without failure and ends settled. -/
theorem Ready.advance (hs : s.Ready) (hsin : IsCircular sin) (hcos : IsCircular cos)
    (p : Particle (Circular sin cos)) (dt : Circular sin cos) :
    ∃ p' s', s.advance p dt = ⟨p', s', none⟩ ∧ p'.Settled s.physics ∧ p'.id = p.id ∧ SameRules s s' := by
  obtain ⟨slope, s₁, hslope, hsame⟩ := hs.gradient p.x p.y
  have hs₁ := hsame.ready hs
  obtain ⟨p₂, s₂, hrecover, hwithin, hid, hsame'⟩ := hs₁.recover_bounce hsin hcos
    { p with toMotion := p.toMotion.step s₁.physics.descent dt slope }
  have hs₂ := hsame'.ready hs₁
  rw [← hsame'.physics] at hwithin
  obtain ⟨p₃, hmark, hsettled, hid'⟩ := hs₂.mark hwithin
  rw [hsame'.physics, hsame.physics] at hsettled
  refine ⟨p₃, s₂, ?_, hsettled, hid'.trans hid, hsame.trans hsame'⟩
  rw [ParticleSystem.advance, hslope]
  dsimp only
  rw [hrecover]
  dsimp only
  rw [hmark]

theorem Ready.advanceAll (hs : s.Ready) (hsin : IsCircular sin) (hcos : IsCircular cos)
    (dt : Circular sin cos) (ps : List (Particle (Circular sin cos))) :
    ∃ ps' s', s.advanceAll dt ps = ⟨ps', s', none⟩ ∧ (∀ p ∈ ps', p.Settled s.physics) ∧
      ps'.map Particle.id = ps.map Particle.id ∧ SameRules s s' := by
  induction ps generalizing s with
  | nil => exact ⟨[], s, rfl, by simp, rfl, SameRules.refl s⟩
  | cons p ps ih =>
      obtain ⟨p', s₁, hadvance, hsettled, hid, hsame⟩ := hs.advance hsin hcos p dt
      obtain ⟨ps', s₂, hrest, hall, hids, hsame'⟩ := ih (hsame.ready hs)
      refine ⟨p' :: ps', s₂, ?_, ?_, by rw [List.map_cons, List.map_cons, hid, hids], hsame.trans hsame'⟩
      · rw [ParticleSystem.advanceAll, hadvance]
        dsimp only
        rw [hrest]
      · rw [hsame.physics] at hall
        exact List.forall_mem_cons.mpr ⟨hsettled, hall⟩

theorem Ready.step (hs : s.Ready) (hsin : IsCircular sin) (hcos : IsCircular cos)
    (ps : List (Particle (Circular sin cos))) (dt? : Option (Circular sin cos)) :
    ∃ ps' s', s.step ps dt? = ⟨ps', s', none⟩ ∧ (∀ p ∈ ps', p.Settled s.physics) ∧
      ps'.map Particle.id = ps.map Particle.id ∧ SameRules s s' :=
  hs.advanceAll hsin hcos (s.timeOf dt?) ps

end ParticleSystem

/-! ## Many steps -/

/-- What is done with a system and its particles. -/
inductive Command (α : Type) where
  | step (dt? : Option α)
  | setPotential (f : Potential α)
  | invalidate
  | withRanges (xRange yRange : Interval α)

namespace Command

variable {α : Type} [Scalar α]

/-- New potentials have heights everywhere, and new ranges have finite
bounds. -/
def Sound : Command α → Prop
  | .setPotential f => f.Total
  | .withRanges xRange yRange => xRange.Bounded ∧ yRange.Bounded
  | _ => True

def KeepsRanges : Command α → Prop
  | .withRanges _ _ => False
  | _ => True

end Command

namespace ParticleSystem

section Commands

variable {α : Type} [Scalar α]

def perform (s : ParticleSystem α) (ps : List (Particle α)) : Command α → Advanced α (List (Particle α))
  | .step dt? => s.step ps dt?
  | .setPotential f => ⟨ps, s.setPotential f, none⟩
  | .invalidate => ⟨ps, s.invalidate, none⟩
  | .withRanges xRange yRange => ⟨ps, s.withRanges xRange yRange, none⟩

/-- Commands one after the other, up to a failure. -/
def performAll (s : ParticleSystem α) (ps : List (Particle α)) :
    List (Command α) → Advanced α (List (Particle α))
  | [] => ⟨ps, s, none⟩
  | c :: cs =>
    match s.perform ps c with
    | ⟨ps, s, some e⟩ => ⟨ps, s, some e⟩
    | ⟨ps, s, none⟩ => s.performAll ps cs

theorem performAll_append {s s' : ParticleSystem α} {ps ps' : List (Particle α)} {cs : List (Command α)}
    (h : s.performAll ps cs = ⟨ps', s', none⟩) (cs' : List (Command α)) :
    s.performAll ps (cs ++ cs') = s'.performAll ps' cs' := by
  induction cs generalizing s ps with
  | nil =>
      rw [performAll] at h
      cases h
      rfl
  | cons c cs ih =>
      rw [performAll] at h
      rw [List.cons_append, performAll]
      split at h
      · cases h
      · exact ih h

theorem Ready.invalidate {s : ParticleSystem α} (hs : s.Ready) : s.invalidate.Ready where
  physics := hs.physics
  trails := hs.trails
  potential := hs.potential
  cache := by
    intro c hc
    cases hcache : s.cache with
    | none =>
        rw [ParticleSystem.invalidate, hcache] at hc
        cases hc
    | some c₀ =>
        rw [ParticleSystem.invalidate, hcache] at hc
        obtain rfl := Option.some.inj hc
        exact hs.cache c₀ hcache
  random := hs.random

end Commands

variable {s : ParticleSystem (Circular sin cos)}

/-- A command succeeds, and leaves particles settled that were so unless it
changes the ranges. -/
theorem Ready.perform (hs : s.Ready) (hsin : IsCircular sin) (hcos : IsCircular cos)
    (ps : List (Particle (Circular sin cos))) {c : Command (Circular sin cos)} (hc : c.Sound) :
    ∃ ps' s', s.perform ps c = ⟨ps', s', none⟩ ∧ s'.Ready ∧ ps'.map Particle.id = ps.map Particle.id ∧
      (c.KeepsRanges → (∀ p ∈ ps, p.Settled s.physics) → ∀ p ∈ ps', p.Settled s'.physics) := by
  cases c with
  | step dt? =>
      obtain ⟨ps', s', hstep, hall, hids, hsame⟩ := hs.step hsin hcos ps dt?
      exact ⟨ps', s', hstep, hsame.ready hs, hids, fun _ _ => hsame.physics ▸ hall⟩
  | setPotential f =>
      have hready : { s with potential := f }.Ready := ⟨hs.physics, hs.trails, hc, hs.cache, hs.random⟩
      exact ⟨ps, _, rfl, hready.invalidate, rfl, fun _ hall => hall⟩
  | invalidate => exact ⟨ps, _, rfl, hs.invalidate, rfl, fun _ hall => hall⟩
  | withRanges xRange yRange =>
      have hphysics : (s.withRanges xRange yRange).physics.Sound :=
        ⟨hc.1, hc.2, hs.physics.tangentialSpeed, hs.physics.h⟩
      exact ⟨ps, _, rfl, ⟨hphysics, hs.trails, hs.potential, hs.cache, hs.random⟩, rfl, fun h => h.elim⟩

theorem Ready.performAll (hs : s.Ready) (hsin : IsCircular sin) (hcos : IsCircular cos)
    (ps : List (Particle (Circular sin cos))) {cs : List (Command (Circular sin cos))}
    (hcs : ∀ c ∈ cs, c.Sound) :
    ∃ ps' s', s.performAll ps cs = ⟨ps', s', none⟩ ∧ s'.Ready ∧ ps'.map Particle.id = ps.map Particle.id ∧
      ((∀ c ∈ cs, c.KeepsRanges) → (∀ p ∈ ps, p.Settled s.physics) → ∀ p ∈ ps', p.Settled s'.physics) := by
  induction cs generalizing s ps with
  | nil => exact ⟨ps, s, rfl, hs, rfl, fun _ hall => hall⟩
  | cons c cs ih =>
      obtain ⟨hc, hcs⟩ := List.forall_mem_cons.mp hcs
      obtain ⟨ps₁, s₁, hperform, hready, hids, hkeeps⟩ := hs.perform hsin hcos ps hc
      obtain ⟨ps', s', hrest, hready', hids', hkeeps'⟩ := ih hready ps₁ hcs
      refine ⟨ps', s', ?_, hready', hids'.trans hids, fun hranges hall => ?_⟩
      · rw [ParticleSystem.performAll, hperform]
        exact hrest
      · obtain ⟨hrange, hranges⟩ := List.forall_mem_cons.mp hranges
        exact hkeeps' hranges (hkeeps hrange hall)

/-- Steps, new potentials and new ranges never fail, and after the last
change of the ranges one step is enough: then every particle is finite and
inside, and its trail is no longer than it may be and ends at its place.
Particles that are made or put back are inside, too. -/
theorem settled_after_step (hsin : IsCircular sin) (hcos : IsCircular cos) (hs : s.Ready)
    (ps : List (Particle (Circular sin cos))) {before after : List (Command (Circular sin cos))}
    (dt? : Option (Circular sin cos)) (hbefore : ∀ c ∈ before, c.Sound)
    (hafter : ∀ c ∈ after, c.Sound ∧ c.KeepsRanges) :
    (∃ ps' s', s.performAll ps (before ++ .step dt? :: after) = ⟨ps', s', none⟩ ∧ s'.Ready ∧
      ps'.map Particle.id = ps.map Particle.id ∧ ∀ p ∈ ps', p.Settled s'.physics) ∧
    (∀ count : Nat, ∃ ps' s', s.populate count = (.ok ps', s') ∧
      ps'.map Particle.id = (List.range count).map Int.ofNat ∧ ∀ p ∈ ps', p.toMotion.Within s.physics) ∧
    ∀ p, (s.respawn p).1.toMotion.Within s.physics := by
  refine ⟨?_, fun count => ?_, fun p => (hs.respawn hsin hcos p).1⟩
  · obtain ⟨ps₁, s₁, hfirst, hready₁, hids₁, -⟩ := hs.performAll hsin hcos ps hbefore
    obtain ⟨ps₂, s₂, hstep, hall, hids₂, hsame⟩ := hready₁.step hsin hcos ps₁ dt?
    obtain ⟨ps₃, s₃, hlast, hready₃, hids₃, hkeeps⟩ :=
      (hsame.ready hready₁).performAll hsin hcos ps₂ fun c hc => (hafter c hc).1
    refine ⟨ps₃, s₃, ?_, hready₃, hids₃.trans (hids₂.trans hids₁), ?_⟩
    · rw [performAll_append hfirst, ParticleSystem.performAll, ParticleSystem.perform, hstep]
      exact hlast
    · exact hkeeps (fun c hc => (hafter c hc).2) (hsame.physics ▸ hall)
  · obtain ⟨ps', s', hspawn, hids, hall, -⟩ := hs.spawnAll hsin hcos ((List.range count).map Int.ofNat)
    exact ⟨ps', s', hspawn, hids, hall⟩

/-- A system over a potential that is not-a-number on an axis, with a cache;
chance always gives zero, and the circular functions are those of zero. -/
def jagged : ParticleSystem (Circular (fun _ => 0) (fun _ => 1)) :=
  .ofAnchors (fun x _ => .ok (x / x)) .standard [] (some .empty) (.ofList [0])

theorem jagged_ready : jagged.Ready where
  physics := ⟨⟨by decide, by decide, by decide⟩,
    ⟨by decide, by decide, by decide⟩, by decide, by decide⟩
  trails := ⟨by decide, by decide⟩
  potential := fun x _ => ⟨x / x, rfl⟩
  cache := by
    intro c hc x hx
    obtain rfl := Option.some.inj hc
    exact isFinite_roundPlaces (by decide) hx
  random := by
    intro u hu
    obtain rfl : u = 0 := by simpa [jagged, ofAnchors, RandomSource.ofList] using hu
    exact ⟨by decide, by decide⟩

/-- A particle that is nowhere, and one that is far outside. -/
theorem jagged_settled_after_step :
    (∃ ps' s', jagged.performAll [.ofMotion 0 ⟨Scalar.undefined, 0, 0, 0⟩, .ofMotion 1 ⟨7, 0, Scalar.undefined, 0⟩]
        ([.step none, .withRanges ⟨0, 2⟩ .standard] ++ .step (some 1) :: [.invalidate]) = ⟨ps', s', none⟩ ∧
      s'.Ready ∧ ps'.map Particle.id = [0, 1] ∧ ∀ p ∈ ps', p.Settled s'.physics) ∧
    (∀ count : Nat, ∃ ps' s', jagged.populate count = (.ok ps', s') ∧
      ps'.map Particle.id = (List.range count).map Int.ofNat ∧ ∀ p ∈ ps', p.toMotion.Within jagged.physics) ∧
    ∀ p, (jagged.respawn p).1.toMotion.Within jagged.physics := by
  have hzero : (-1 : Float) ≤ 0 ∧ (0 : Float) ≤ 1 := by decide +kernel
  have hone : (-1 : Float) ≤ 1 ∧ (1 : Float) ≤ 1 := by decide +kernel
  have hsin : IsCircular fun _ => 0 := fun _ _ => hzero
  have hcos : IsCircular fun _ => 1 := fun _ _ => hone
  have hranges : (Command.withRanges ⟨0, 2⟩ .standard : Command (Circular (fun _ => 0) (fun _ => 1))).Sound :=
    ⟨⟨by decide +kernel, by decide +kernel, by decide +kernel⟩,
      ⟨by decide +kernel, by decide +kernel, by decide +kernel⟩⟩
  refine settled_after_step hsin hcos jagged_ready _ (some 1) ?_ ?_
  · rintro c (_ | ⟨_, _ | ⟨_, ⟨⟩⟩⟩)
    · trivial
    · exact hranges
  · rintro c (_ | ⟨_, ⟨⟩⟩)
    exact ⟨trivial, trivial⟩

/-- A step fails at a particle whose coordinate is rounded beyond all
numbers. -/
theorem failure_of_round {α : Type} [Scalar α] {s : ParticleSystem α} {c : GradientCache α} {p : Particle α}
    (hcache : s.cache = some c) (hx : Scalar.isFinite p.x = true)
    (hround : Scalar.isFinite (Scalar.round p.x c.precision) = false) (ps : List (Particle α))
    (dt? : Option α) : (s.step (p :: ps) dt?).failure? = some .tooLarge := by
  have hkey : c.roundKey p.x = .error .tooLarge := by
    rw [GradientCache.roundKey]
    simp [hx, hround]
  have hgradient : s.gradient p.x p.y = (.error .tooLarge, { s with cache := some c }) := by
    rw [ParticleSystem.gradient, hcache]
    dsimp only
    rw [GradientCache.gradient, GradientCache.key, hkey]
    rfl
  rw [step, advanceAll, advance, hgradient]

/-- A system whose cache rounds to multiples of the greatest power of ten. -/
def coarse : ParticleSystem Float :=
  .ofAnchors (fun _ _ => .ok 0) .standard [] (some (.empty 500 (-308))) .constant

/-- A finite coordinate may be rounded beyond all numbers, and a trail may
be asked to have less than no places: then a step fails. -/
theorem not_settled_of_coarse :
    coarse.physics.Sound ∧ coarse.potential.Total ∧ coarse.random.Unit ∧
      (coarse.step [.ofMotion 0 ⟨1.7e308, 0, 0, 0⟩]).failure? = some .tooLarge ∧
      (step { coarse with cache := none, physics := { coarse.physics with trailLength := -1 } }
        [.ofMotion 0 ⟨0, 0, 0, 0⟩]).failure? = some .invalidValue := by
  refine ⟨?_, fun _ _ => ⟨0, rfl⟩, ?_, ?_, ?_⟩
  · exact ⟨⟨by decide +kernel, by decide +kernel, by decide +kernel⟩,
      ⟨by decide +kernel, by decide +kernel, by decide +kernel⟩, by decide +kernel, by decide +kernel⟩
  · intro u hu
    obtain rfl : u = Scalar.half := by
      simpa [coarse, ofAnchors, RandomSource.constant, RandomSource.ofList] using hu
    exact ⟨by decide +kernel, by decide +kernel⟩
  · exact failure_of_round rfl (by decide +kernel) (by decide +kernel) [] none
  · rfl

end ParticleSystem
end FieldScript
