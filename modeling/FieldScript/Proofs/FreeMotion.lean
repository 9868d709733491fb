import FieldScript.Lyapunov
import FieldScript.Proofs.ParticleBounds
import FieldScript.Proofs.SafePotential

/-!
# Particles without walls in their way

The divergence of motions is estimated over free motions of grids of
points; particles move one by one, bounce and are put back. At one point
the gradient of a field is that of its heights
(`Field.gradient_of_stretch`), so one step of the free motion is the step
of a particle before it bounces (`Lyapunov.Swarm.step_single`). Where that
step ends inside the domain nothing is left to do but to mark the place on
the trail, and this alone can fail. A run of a particle therefore follows
the free motion as long as places can be marked, and exactly as long
(`ParticleSystem.follows_iff`).
-/

namespace FieldScript

/-! ## Fields at one point -/

namespace Samples

theorem joinShapes?_eq_nil {a b : List Nat} (h : joinShapes? a b = some []) : a = [] ∧ b = [] := by
  have hreversed : ∀ m n : List Nat, joinReversed? m n = some [] → m = [] ∧ n = [] := by
    intro m n hjoin
    cases m with
    | nil => exact ⟨rfl, by simpa [joinReversed?] using hjoin⟩
    | cons i m =>
        cases n with
        | nil => cases hjoin
        | cons j n =>
            rw [joinReversed?] at hjoin
            split at hjoin
            · simp at hjoin
            · split at hjoin <;> simp at hjoin
  rw [joinShapes?, Option.map_eq_some_iff] at h
  obtain ⟨shape, hshape, hempty⟩ := h
  obtain rfl : shape = [] := List.reverse_eq_nil_iff.mp hempty
  obtain ⟨ha, hb⟩ := hreversed _ _ hshape
  exact ⟨List.reverse_eq_nil_iff.mp ha, List.reverse_eq_nil_iff.mp hb⟩

/-- Only a single number is stretched to no dimension. -/
theorem stretch?_nil {s t : Samples} (h : s.stretch? [] = .ok t) : s.shape = [] ∧ t = s := by
  rw [stretch?] at h
  split at h
  · rename_i hshape
    exact ⟨eq_of_beq hshape, (Except.ok.inj h).symm⟩
  · rename_i hshape
    split at h
    · rename_i hjoin
      obtain ⟨hempty, -⟩ := joinShapes?_eq_nil (eq_of_beq hjoin)
      exact absurd (beq_iff_eq.mpr hempty) hshape
    · cases h

theorem map_scalar (f : Float → Float) (x : Float) : (scalar x).map f = scalar (f x) := by
  simp [map, scalar]

theorem zipWith_scalar (f : Float → Float → Float) (x y : Float) :
    zipWith f (scalar x) (scalar y) = .ok (scalar (f x y)) := by
  simp [zipWith, scalar]

/-- An operation that gives a single number was given two. -/
theorem zipWith_nil {f : Float → Float → Float} {a b s : Samples} (ha : a.Fills a.shape)
    (hb : b.Fills b.shape) (h : zipWith f a b = .ok s) (hs : s.shape = []) :
    a = scalar a.first ∧ b = scalar b.first ∧ s = scalar (f a.first b.first) := by
  have hshapes : a.shape = [] ∧ b.shape = [] := by
    rw [zipWith] at h
    split at h
    · rename_i heq
      obtain rfl := Except.ok.inj h
      exact ⟨hs, (eq_of_beq heq).symm.trans hs⟩
    · split at h
      · cases h
      · rename_i shape hjoin
        obtain rfl := Except.ok.inj h
        obtain rfl : shape = [] := hs
        exact joinShapes?_eq_nil hjoin
  have hleft := eq_scalar_of_fills (hshapes.1 ▸ ha)
  have hright := eq_scalar_of_fills (hshapes.2 ▸ hb)
  refine ⟨hleft, hright, ?_⟩
  rw [hleft, hright, zipWith_scalar] at h
  exact (Except.ok.inj h).symm

end Samples

namespace Field

/-- At a point the field gives samples that are complete. -/
def Complete (f : Field) : Prop := ∀ a b s, f (.scalar a) (.scalar b) = .ok s → s.Fills s.shape

variable {f : Field}

/-- A single number is a height. -/
theorem potential_of_scalar {a b z : Float} (h : f (.scalar a) (.scalar b) = .ok (.scalar z)) :
    f.potential a b = .ok z := by
  rw [potential, h]
  rfl

/-- If the difference of two values is a single number, so are the values,
and the quotient is that of heights. -/
theorem quotient_of_single {ahead behind s : Samples} {width : Float}
    (hahead : ahead.Fills ahead.shape) (hbehind : behind.Fills behind.shape)
    (h : quotient ahead behind width = .ok s) (hs : s.shape = []) :
    ahead = .scalar ahead.first ∧ behind = .scalar behind.first ∧
      ∃ q, s = .scalar q ∧ Potential.quotient ahead.first behind.first width = .ok q := by
  obtain ⟨difference, hdifference, hdivided⟩ := bind_eq_ok.mp h
  rw [Samples.divBy] at hdivided
  split at hdivided
  · cases hdivided
  · rename_i hzero
    obtain rfl := Except.ok.inj hdivided
    obtain ⟨hleft, hright, rfl⟩ := Samples.zipWith_nil hahead hbehind hdifference hs
    refine ⟨hleft, hright, (ahead.first - behind.first) / width, Samples.map_scalar _ _, ?_⟩
    have hwidth : ¬ (width == 0) = true := by simpa [Samples.isScalar, Samples.scalar] using hzero
    exact if_neg hwidth

/-- Where the gradient is a pair of numbers, it is that of the heights. -/
theorem gradient_of_stretch (hf : f.Complete) {x y h : Float} {dx dy dx' dy' : Samples}
    (hgradient : f.gradient (.scalar x) (.scalar y) h = .ok (dx, dy))
    (hdx : dx.stretch? [] = .ok dx') (hdy : dy.stretch? [] = .ok dy') :
    ∃ gx gy, dx' = .scalar gx ∧ dy' = .scalar gy ∧ f.potential.gradient x y h = .ok (gx, gy) := by
  obtain ⟨hdxshape, rfl⟩ := Samples.stretch?_nil hdx
  obtain ⟨hdyshape, rfl⟩ := Samples.stretch?_nil hdy
  obtain ⟨right, hright, hrest⟩ := bind_eq_ok.mp hgradient
  obtain ⟨left, hleft, hrest⟩ := bind_eq_ok.mp hrest
  obtain ⟨qx, hqx, hrest⟩ := bind_eq_ok.mp hrest
  obtain ⟨above, habove, hrest⟩ := bind_eq_ok.mp hrest
  obtain ⟨below, hbelow, hrest⟩ := bind_eq_ok.mp hrest
  obtain ⟨qy, hqy, hrest⟩ := bind_eq_ok.mp hrest
  obtain ⟨rfl, rfl⟩ := Prod.mk.inj (Except.ok.inj hrest)
  rw [Samples.shift, Samples.map_scalar] at hright habove
  rw [Samples.shiftBack, Samples.map_scalar] at hleft hbelow
  obtain ⟨hr, hl, gx, rfl, hgx⟩ := quotient_of_single (hf _ _ _ hright) (hf _ _ _ hleft) hqx hdxshape
  obtain ⟨ha, hb, gy, rfl, hgy⟩ := quotient_of_single (hf _ _ _ habove) (hf _ _ _ hbelow) hqy hdyshape
  rw [hr] at hright
  rw [hl] at hleft
  rw [ha] at habove
  rw [hb] at hbelow
  refine ⟨gx, gy, rfl, rfl, ?_⟩
  have hright' : f.potential (x + h) y = .ok right.first := potential_of_scalar hright
  have hleft' : f.potential (x - h) y = .ok left.first := potential_of_scalar hleft
  have habove' : f.potential x (y + h) = .ok above.first := potential_of_scalar habove
  have hbelow' : f.potential x (y - h) = .ok below.first := potential_of_scalar hbelow
  exact bind_eq_ok.mpr ⟨_, hright', bind_eq_ok.mpr ⟨_, hleft', bind_eq_ok.mpr ⟨gx, hgx,
    bind_eq_ok.mpr ⟨_, habove', bind_eq_ok.mpr ⟨_, hbelow', bind_eq_ok.mpr ⟨gy, hgy, rfl⟩⟩⟩⟩⟩⟩

end Field

/-! ## Free motion -/

namespace Lyapunov.Swarm

/-- One motion alone. -/
def single (m : Motion Float) : Swarm := ⟨[], #[m]⟩

theorem ofStart_scalar (x y : Float) : ofStart (.scalar x) (.scalar y) = single (Motion.rest x y) := by
  simp [ofStart, single, Samples.scalar]

theorem x_single (m : Motion Float) : (single m).x = .scalar m.x := by simp [x, single, Samples.scalar]

theorem y_single (m : Motion Float) : (single m).y = .scalar m.y := by simp [y, single, Samples.scalar]

/-- One step of one motion goes along the gradient of the heights. -/
theorem step_single {f : Field} (hf : f.Complete) {k : LyapunovSettings} {m : Motion Float} {s : Swarm}
    (h : (single m).step f k = .ok s) : ∃ slope, f.potential.gradient m.x m.y k.h = .ok slope ∧
      s = single (m.step k.descent k.dt slope) := by
  obtain ⟨⟨dx, dy⟩, hgradient, hrest⟩ := bind_eq_ok.mp h
  obtain ⟨dx', hdx, hrest⟩ := bind_eq_ok.mp hrest
  obtain ⟨dy', hdy, hrest⟩ := bind_eq_ok.mp hrest
  rw [x_single, y_single] at hgradient
  obtain ⟨gx, gy, rfl, rfl, hslope⟩ := Field.gradient_of_stretch hf hgradient hdx hdy
  refine ⟨(gx, gy), hslope, (Except.ok.inj hrest).symm.trans ?_⟩
  simp [single, Samples.scalar]

theorem length_orbit {f : Field} {k : LyapunovSettings} {s : Swarm} {n : Nat} {swarms : List Swarm}
    (h : s.orbit f k n = .ok swarms) : swarms.length = n := by
  induction n generalizing s swarms with
  | zero =>
      obtain rfl : [] = swarms := Except.ok.inj h
      rfl
  | succ n ih =>
      obtain ⟨s', -, htail⟩ := bind_eq_ok.mp h
      obtain ⟨rest, hrest, hcons⟩ := bind_eq_ok.mp htail
      obtain rfl : s' :: rest = swarms := Except.ok.inj hcons
      rw [List.length_cons, ih hrest]

/-- Starts at one point have one motion. -/
theorem orbit_of_future {f : Field} {k : LyapunovSettings} {x y : Float} {swarms : List Swarm}
    (h : future f (.scalar x) (.scalar y) k = .ok swarms) :
    0 ≤ k.steps ∧ (single (Motion.rest x y)).orbit f k k.steps.toNat = .ok swarms := by
  rw [future, ofStart_scalar] at h
  by_cases hsteps : k.steps < 0
  · rw [if_pos hsteps] at h
    cases h
  · rw [if_neg hsteps] at h
    exact ⟨Int.not_lt.mp hsteps, h⟩

end Lyapunov.Swarm

/-! ## Steps inside the domain -/

namespace ParticleSystem

open Lyapunov.Swarm (single)

variable {sys : ParticleSystem Float} {p p₁ : Particle Float} {m : Motion Float}

/-- A number inside an interval is on neither side of it. -/
theorem bounceOff_of_contains {r : Interval Float} {x : Float} (h : r.contains x = true)
    (restitution v : Float) : bounceOff r restitution x v = (x, v) := by
  obtain ⟨hlow, hhigh⟩ := Bool.and_eq_true_iff.mp h
  have hside : ∀ {a b : Float}, Scalar.lessEq a b = true → ¬ Scalar.less b a = true := by
    intro a b hle hlt
    have hle : a ≤ b := of_decide_eq_true hle
    have hlt : b < a := of_decide_eq_true hlt
    obtain ⟨hb, ha⟩ := Binary64.isNumber_of_lt hlt
    exact absurd ((Binary64.lt_iff hb ha).mp hlt) ((Binary64.le_iff ha hb).mp hle).not_gt
  rw [bounceOff, if_neg (hside hlow), if_neg (hside hhigh)]

theorem bounceMotion_of_within {k : Physics Float} (h : m.Within k) : bounceMotion k m = m := by
  rw [bounceMotion, bounceOff_of_contains h.x, bounceOff_of_contains h.y]

theorem mark_toMotion (sys : ParticleSystem Float) (p : Particle Float) :
    (sys.mark p).1.toMotion = p.toMotion := by
  rw [mark]
  split
  · rfl
  · split <;> rfl

/-- A place is marked if trails have a length and the place a height. -/
theorem mark_eq_none_iff (sys : ParticleSystem Float) (p : Particle Float) : (sys.mark p).2 = none ↔
    sys.physics.HasTrails ∧ ∃ z, sys.potential p.x p.y = .ok z := by
  have hlimit : (∃ n, Trail.limit? sys.physics.trailLength = .ok n) ↔ sys.physics.HasTrails := by
    have hlongest : Trail.longest = 9223372036854775807 := rfl
    rw [Trail.limit?, Physics.HasTrails]
    split
    · rename_i hlong
      simp at hlong
      simp
      omega
    · rename_i hlong
      simp at hlong
      split <;> simp <;> omega
  rw [← hlimit, mark, Trail.withLimit?]
  cases Trail.limit? sys.physics.trailLength with
  | error e => simp
  | ok n =>
      cases sys.potential p.x p.y with
      | error e => simp
      | ok z => simp

/-- A step that ends inside leaves the particle where the free motion does,
and the system as it was. -/
theorem step_of_within (hcache : sys.cache = none) {slope : Float × Float}
    (hslope : sys.potential.gradient p.x p.y sys.physics.h = .ok slope)
    (hm : m = p.toMotion.step sys.physics.descent sys.physics.dt slope) (hwithin : m.Within sys.physics) :
    sys.step [p] none = ⟨[(sys.mark { p with toMotion := m }).1], sys,
      (sys.mark { p with toMotion := m }).2⟩ := by
  have hgradient : sys.gradient p.x p.y = (.ok slope, sys) := by
    rw [ParticleSystem.gradient, hcache]
    dsimp only
    rw [hslope]
  have hadvance : sys.advance p sys.physics.dt = ⟨(sys.mark { p with toMotion := m }).1, sys,
      (sys.mark { p with toMotion := m }).2⟩ := by
    rw [advance, hgradient]
    dsimp only
    rw [← hm, bounce, bounceMotion_of_within hwithin, recover, if_pos hwithin.finite]
  rw [step, timeOf, advanceAll, hadvance]
  cases (sys.mark { p with toMotion := m }).2 <;> rfl

/-! ## Runs -/

/-- After any number of steps, up to the length of the free motion, the
particle has the position and the velocity of the motion, and the system
is as it was: no particle was put back. -/
def Follows (sys : ParticleSystem Float) (p : Particle Float) (swarms : List Lyapunov.Swarm) : Prop :=
  ∀ n ≤ swarms.length, ∃ p', sys.run [p] none n = ⟨[p'], sys, none⟩ ∧
    (single p.toMotion :: swarms)[n]? = some (single p'.toMotion)

theorem follows_nil (sys : ParticleSystem Float) (p : Particle Float) : sys.Follows p [] := by
  intro n hn
  obtain rfl : n = 0 := Nat.le_zero.mp hn
  exact ⟨p, rfl, rfl⟩

theorem follows_cons {swarms : List Lyapunov.Swarm} (hstep : sys.step [p] none = ⟨[p₁], sys, none⟩) :
    sys.Follows p (single p₁.toMotion :: swarms) ↔ sys.Follows p₁ swarms := by
  have hrun : ∀ n, sys.run [p] none (n + 1) = sys.run [p₁] none n := by
    intro n
    rw [run, hstep]
  constructor
  · intro h n hn
    obtain ⟨p', hp', hmotion⟩ := h (n + 1) (Nat.succ_le_succ hn)
    exact ⟨p', (hrun n).symm.trans hp', hmotion⟩
  · intro h n hn
    cases n with
    | zero => exact ⟨p, rfl, rfl⟩
    | succ n =>
        obtain ⟨p', hp', hmotion⟩ := h n (Nat.le_of_succ_le_succ hn)
        exact ⟨p', (hrun n).trans hp', hmotion⟩

/-- The particle and the free motion have the same heights and constants,
and no gradient is remembered. -/
structure Shares (sys : ParticleSystem Float) (f : Field) (k : LyapunovSettings) : Prop where
  potential : sys.potential = f.potential
  descent : sys.physics.descent = k.descent
  dt : sys.physics.dt = k.dt
  h : sys.physics.h = k.h
  cache : sys.cache = none

/-- A particle follows a free motion that stays inside exactly as long as
its places can be marked. -/
theorem follows_iff {f : Field} {k : LyapunovSettings} (hf : f.Complete) (hshares : sys.Shares f k)
    {n : Nat} {swarms : List Lyapunov.Swarm} (horbit : (single p.toMotion).orbit f k n = .ok swarms)
    (hwithin : ∀ s ∈ swarms, ∀ m ∈ s.motions, m.Within sys.physics) :
    sys.Follows p swarms ↔ (swarms ≠ [] → sys.physics.HasTrails) ∧
      ∀ s ∈ swarms, ∀ m ∈ s.motions, ∃ z, f.potential m.x m.y = .ok z := by
  induction n generalizing p swarms with
  | zero =>
      obtain rfl : [] = swarms := Except.ok.inj horbit
      exact ⟨fun _ => ⟨fun h => absurd rfl h, by simp⟩, fun _ => follows_nil sys p⟩
  | succ n ih =>
      obtain ⟨s, hs, htail⟩ := bind_eq_ok.mp horbit
      obtain ⟨rest, hrest, hcons⟩ := bind_eq_ok.mp htail
      obtain rfl : s :: rest = swarms := Except.ok.inj hcons
      obtain ⟨slope, hslope, rfl⟩ := Lyapunov.Swarm.step_single hf hs
      obtain ⟨hfirst, hlater⟩ := List.forall_mem_cons.mp hwithin
      have hfirst := hfirst _ (Array.mem_singleton.mpr rfl)
      rw [← hshares.descent, ← hshares.dt] at hfirst hrest ⊢
      rw [← hshares.potential, ← hshares.h] at hslope
      generalize hm : p.toMotion.step sys.physics.descent sys.physics.dt slope = m at hfirst hrest ⊢
      have hstep := step_of_within hshares.cache hslope hm.symm hfirst
      have hmotion := mark_toMotion sys { p with toMotion := m }
      have hmarked := mark_eq_none_iff sys { p with toMotion := m }
      rw [hshares.potential] at hmarked
      have hheights : (∀ s ∈ single m :: rest, ∀ m ∈ s.motions, ∃ z, f.potential m.x m.y = .ok z) ↔
          (∃ z, f.potential m.x m.y = .ok z) ∧
            ∀ s ∈ rest, ∀ m ∈ s.motions, ∃ z, f.potential m.x m.y = .ok z := by
        rw [List.forall_mem_cons]
        refine and_congr_left fun _ => ⟨fun h => h m (Array.mem_singleton.mpr rfl), ?_⟩
        rintro h m' hm'
        obtain rfl := Array.mem_singleton.mp hm'
        exact h
      rw [hheights]
      generalize sys.mark { p with toMotion := m } = marked at hstep hmotion hmarked
      obtain ⟨p₁, failure?⟩ := marked
      dsimp only at hstep hmotion hmarked
      cases failure? with
      | none =>
          rw [← hmotion] at hrest ⊢
          rw [follows_cons hstep, ih hrest hlater]
          have hmark := hmarked.mp rfl
          rw [hmotion]
          exact ⟨fun h => ⟨fun _ => hmark.1, hmark.2, h.2⟩, fun h => ⟨fun _ => hmark.1, h.2.2⟩⟩
      | some e =>
          constructor
          · intro h
            obtain ⟨p', hp', -⟩ := h 1 (by simp)
            rw [run, hstep] at hp'
            cases hp'
          · rintro ⟨htrails, hheight, -⟩
            cases hmarked.mpr ⟨htrails (by simp), hheight⟩

/-- From rest, a particle in a system without remembered gradients visits
the places of the free motion over the same heights with the same
constants, if that is finite and stays inside: neither is the particle
bounced, nor is it put back. What can come in between is only that trails
have no length or a place no height. -/
theorem run_eq_future {f : Field} {k : LyapunovSettings} (hf : f.Complete) (hshares : sys.Shares f k)
    {x y : Float} {swarms : List Lyapunov.Swarm}
    (hfuture : Lyapunov.future f (.scalar x) (.scalar y) k = .ok swarms)
    (hwithin : ∀ s ∈ swarms, ∀ m ∈ s.motions, m.Within sys.physics) (id : Int) (trail : Trail Float) :
    (swarms.length : Int) = k.steps ∧
      (∀ s ∈ swarms, ∀ m ∈ s.motions, bounceMotion sys.physics m = m) ∧
      (sys.Follows { Motion.rest x y with id, trail } swarms ↔
        (swarms ≠ [] → sys.physics.HasTrails) ∧
          ∀ s ∈ swarms, ∀ m ∈ s.motions, ∃ z, f.potential m.x m.y = .ok z) := by
  obtain ⟨hsteps, horbit⟩ := Lyapunov.Swarm.orbit_of_future hfuture
  refine ⟨?_, fun s hs m hm => bounceMotion_of_within (hwithin s hs m hm), ?_⟩
  · rw [Lyapunov.Swarm.length_orbit horbit, Int.toNat_of_nonneg hsteps]
  · exact follows_iff hf hshares horbit hwithin

/-- A round valley. -/
def valley : Field := fun x y => .ok (.scalar (x.first * x.first + y.first * y.first))

/-- Level ground with a hole in it. -/
def pierced : Field := fun x y =>
  if x.first == 0 && y.first == 0 then .error .divisionByZero else .ok (.scalar 0)

/-- Three steps, as long as those of a particle. -/
def threeSteps : LyapunovSettings :=
  ⟨3, Physics.standard.dt, 1e-3, Physics.standard.descent, Physics.standard.h⟩

/-- A system without anchors and remembered gradients. -/
def above (f : Field) (physics : Physics Float) : ParticleSystem Float :=
  .ofAnchors f.potential physics [] none .constant

/-- The motion from this point is finite and stays inside. -/
def staysInside (f : Field) (k : LyapunovSettings) (physics : Physics Float) (x y : Float) : Bool :=
  match Lyapunov.future f (.scalar x) (.scalar y) k with
  | .ok swarms => swarms.all fun s => s.motions.all fun m =>
      m.isFinite && physics.xRange.contains m.x && physics.yRange.contains m.y
  | .error _ => false

theorem exists_of_staysInside (f : Field) (k : LyapunovSettings) (physics : Physics Float) (x y : Float)
    (h : staysInside f k physics x y = true) :
    ∃ swarms, Lyapunov.future f (.scalar x) (.scalar y) k = .ok swarms ∧
      ∀ s ∈ swarms, ∀ m ∈ s.motions, m.Within physics := by
  rw [staysInside] at h
  split at h
  · rename_i swarms hswarms
    refine ⟨swarms, hswarms, fun s hs m hm => ?_⟩
    have hm := Array.all_eq_true_iff_forall_mem.mp (List.all_eq_true.mp h s hs) m hm
    obtain ⟨hxfinite, hy⟩ := Bool.and_eq_true_iff.mp hm
    obtain ⟨hfinite, hx⟩ := Bool.and_eq_true_iff.mp hxfinite
    exact ⟨hfinite, hx, hy⟩
  · cases h

/-- A particle runs down into the valley. -/
theorem run_eq_future_valley : ∃ swarms,
    Lyapunov.future valley (.scalar 0.5) (.scalar (-0.25)) threeSteps = .ok swarms ∧
      swarms.length = 3 ∧
      (above valley .standard).Follows { Motion.rest 0.5 (-0.25) with id := 0, trail := .unbounded } swarms := by
  obtain ⟨swarms, hfuture, hwithin⟩ := exists_of_staysInside valley threeSteps .standard
    0.5 (-0.25) (by decide +kernel)
  have hcomplete : valley.Complete := by
    intro a b s hs
    obtain rfl := Except.ok.inj hs
    exact ⟨rfl, rfl⟩
  have hshares : (above valley .standard).Shares valley threeSteps := ⟨rfl, rfl, rfl, rfl, rfl⟩
  obtain ⟨hlength, -, hfollows⟩ := run_eq_future hcomplete hshares hfuture hwithin 0 .unbounded
  refine ⟨swarms, hfuture, Int.ofNat_inj.mp hlength, hfollows.mpr ⟨fun _ => ⟨by decide, by decide⟩, ?_⟩⟩
  exact fun _ _ m _ => ⟨m.x * m.x + m.y * m.y, rfl⟩

theorem not_follows_of_failure {swarms : List Lyapunov.Swarm} (hlength : 0 < swarms.length)
    (hfailure : (sys.run [p] none 1).failure?.isSome = true) : ¬ sys.Follows p swarms := by
  intro h
  obtain ⟨p', hp', -⟩ := h 1 hlength
  rw [hp'] at hfailure
  cases hfailure

/-- Trails may be asked to be longer than any, and a place may have no height
where the slope is known: then a particle that is free to move cannot
follow the free motion. -/
theorem not_follows_unmarked :
    (∃ swarms, Lyapunov.future valley (.scalar 0.5) (.scalar (-0.25)) threeSteps = .ok swarms ∧
      (∀ s ∈ swarms, ∀ m ∈ s.motions, m.Within .standard) ∧
      ¬ (above valley { Physics.standard with trailLength := Trail.longest + 1 }).Follows
        { Motion.rest 0.5 (-0.25) with id := 0, trail := .unbounded } swarms) ∧
    ∃ swarms, Lyapunov.future pierced (.scalar 0) (.scalar 0) threeSteps = .ok swarms ∧
      (∀ s ∈ swarms, ∀ m ∈ s.motions, m.Within .standard) ∧
      ¬ (above pierced .standard).Follows
        { Motion.rest 0 0 with id := 0, trail := .unbounded } swarms := by
  constructor
  · obtain ⟨swarms, hfuture, hwithin⟩ := exists_of_staysInside valley threeSteps .standard
      0.5 (-0.25) (by decide +kernel)
    have hlength := Lyapunov.Swarm.length_orbit (Lyapunov.Swarm.orbit_of_future hfuture).2
    exact ⟨swarms, hfuture, hwithin, not_follows_of_failure (hlength ▸ by decide) (by decide +kernel)⟩
  · obtain ⟨swarms, hfuture, hwithin⟩ := exists_of_staysInside pierced threeSteps .standard
      0 0 (by decide +kernel)
    have hlength := Lyapunov.Swarm.length_orbit (Lyapunov.Swarm.orbit_of_future hfuture).2
    exact ⟨swarms, hfuture, hwithin, not_follows_of_failure (hlength ▸ by decide) (by decide +kernel)⟩

end ParticleSystem
end FieldScript
