import FieldScript.Proofs.GradientHistory
import FieldScript.Proofs.ParticleBounds
import Mathlib.Data.List.DropRight

/-!
# What is on a trail

A step empties the trail of a particle that it puts back, gives the trail
the length of the system, and marks the place where the particle is then.
So a trail holds the last of what was recorded since the particle was put
back (`ParticleSystem.trail_of_run`). Cutting at every step or once at the
end comes to the same (`List.rtake_rtake_append`).

Whether a particle is put back depends on the system when its turn comes:
the particles before it have looked up gradients and taken from chance. A
run is followed for one particle by its turns (`exists_turn`), and what a
turn leaves on the trail (`trail_of_advance`) is put together over the run
(`trail_append`).
-/

theorem List.rtake_rtake_append {β : Type} (xs ys : List β) (n : Nat) :
    (xs.rtake n ++ ys).rtake n = (xs ++ ys).rtake n := by
  rw [rtake, rtake, rtake, drop_append, drop_append, drop_drop]
  congr 2 <;> simp only [length_append, length_drop] <;> omega

namespace FieldScript

variable {α : Type} [Scalar α]

/-- The height at a place, or zero where that is not finite. -/
def Potential.heightAt (f : Potential α) (x y : α) : α :=
  match f x y with
  | .ok z => if Scalar.isFinite z then z else 0
  | .error _ => 0

/-- The place of a particle over a potential. -/
def Particle.over (f : Potential α) (p : Particle α) : Point3 α := ⟨p.x, p.y, f.heightAt p.x p.y⟩

omit [Scalar α] in
theorem Advanced.eq_of_failure? {β : Type} {a : Advanced α β} (h : a.failure? = none) :
    a = ⟨a.result, a.system, none⟩ := by
  cases a
  cases h
  rfl

namespace ParticleSystem

/-- A particle is put back in a move, and the system counts that. -/
def putsBack (s : ParticleSystem α) (p : Particle α) (dt : α) : Bool :=
  s.respawns < (s.advance p dt).system.respawns

/-- The system when the turn of a particle comes in a step. -/
def turn (s : ParticleSystem α) (dt : α) (ps : List (Particle α)) (i : Nat) : ParticleSystem α :=
  (s.advanceAll dt (ps.take i)).system

/-- The particle with this place in the list is put back in the step that
follows some steps. -/
def putsBackAfter (s : ParticleSystem α) (ps : List (Particle α)) (dt? : Option α) (i steps : Nat) :
    Bool :=
  let before := s.run ps dt? steps
  let dt := before.system.timeOf dt?
  before.result[i]?.any fun p => (before.system.turn dt before.result i).putsBack p dt

variable {s s' : ParticleSystem α} {p p' : Particle α} {ps ps' : List (Particle α)} {dt : α}
  {dt? : Option α} {i n : Nat}

/-! ## One move -/

/-- The systems have the same heights and constants. -/
structure SameLaws (s s' : ParticleSystem α) : Prop where
  potential : s'.potential = s.potential
  physics : s'.physics = s.physics

omit [Scalar α] in
theorem SameLaws.refl (s : ParticleSystem α) : SameLaws s s := ⟨rfl, rfl⟩

omit [Scalar α] in
theorem SameLaws.trans {s'' : ParticleSystem α} (h : SameLaws s s') (h' : SameLaws s' s'') :
    SameLaws s s'' :=
  ⟨h'.potential.trans h.potential, h'.physics.trans h.physics⟩

theorem sameLaws_gradient (s : ParticleSystem α) (x y : α) : SameLaws s (s.gradient x y).2 := by
  rw [gradient]
  split <;> exact ⟨rfl, rfl⟩

theorem respawns_gradient (s : ParticleSystem α) (x y : α) : (s.gradient x y).2.respawns = s.respawns := by
  rw [gradient]
  split <;> rfl

theorem sameLaws_advance (s : ParticleSystem α) (p : Particle α) (dt : α) :
    SameLaws s (s.advance p dt).system := by
  have hfield := s.sameField_advance p dt
  exact (s.sameLaws_gradient p.x p.y).trans ⟨hfield.potential, hfield.physics⟩

/-- The trails of the system are as long as it says. -/
theorem limit?_ok {length : Int} (h : Trail.limit? length = .ok n) : n = length.toNat := by
  rw [Trail.limit?] at h
  split at h
  · cases h
  · split at h
    · cases h
    · exact (Except.ok.inj h).symm

/-- The place of a particle is marked on its trail, which is cut to the
length of the system. -/
theorem mark_ok (h : s.mark p = (p', none)) : p'.toMotion = p.toMotion ∧
    p'.trail = ⟨some s.physics.trailLength.toNat,
      (p.trail.places ++ [p'.over s.potential]).rtake s.physics.trailLength.toNat⟩ := by
  rw [mark, Trail.withLimit?] at h
  split at h
  · cases h
  · rename_i trail htrail
    split at htrail
    · cases htrail
    · rename_i n hn
      obtain rfl := limit?_ok hn
      obtain rfl := Except.ok.inj htrail
      split at h
      · cases h
      · rename_i z hz
        obtain ⟨rfl, -⟩ := Prod.mk.inj h
        refine ⟨rfl, ?_⟩
        have hheight : s.potential.heightAt p.x p.y = if Scalar.isFinite z then z else 0 := by
          rw [Potential.heightAt, hz]
        rw [Trail.push, Particle.over, hheight]
        exact congrArg _ (List.rtake_rtake_append _ _ _)

/-- A particle that is put back has an empty trail, and otherwise the one
it had. -/
theorem trail_of_recover (s : ParticleSystem α) (p : Particle α) :
    (s.recover p).1.trail.places = if s.respawns < (s.recover p).2.respawns then [] else p.trail.places := by
  rw [recover]
  split
  · exact (if_neg (Nat.lt_irrefl _)).symm
  · exact (if_pos (Nat.lt_succ_self _)).symm

/-- A move without failure looks up a gradient, bounces the particle and
puts it back if need be, and marks where it is then. -/
theorem advance_ok (h : s.advance p dt = ⟨p', s', none⟩) :
    ∃ slope s₁ q, s.gradient p.x p.y = (.ok slope, s₁) ∧
      q = s₁.bounce { p with toMotion := p.toMotion.step s₁.physics.descent dt slope } ∧
      s' = (s₁.recover q).2 ∧ s'.mark (s₁.recover q).1 = (p', none) := by
  rw [advance] at h
  split at h
  · cases h
  · rename_i slope s₁ hgradient
    dsimp only at h
    obtain ⟨hresult, hsystem, hfailure⟩ := Advanced.mk.inj h
    refine ⟨slope, s₁, _, hgradient, rfl, hsystem.symm, ?_⟩
    rw [← hsystem]
    exact Prod.ext hresult hfailure

/-- What a move leaves on the trail if nothing fails in it. -/
theorem trail_of_advance (h : s.advance p dt = ⟨p', s', none⟩) :
    p'.trail = ⟨some s.physics.trailLength.toNat,
      ((if s.putsBack p dt then [] else p.trail.places) ++ [p'.over s.potential]).rtake
        s.physics.trailLength.toNat⟩ := by
  have hlaws := s.sameLaws_gradient p.x p.y
  have hcount := s.respawns_gradient p.x p.y
  rw [putsBack, h]
  obtain ⟨slope, s₁, q, hgradient, hbounced, rfl, hmark⟩ := advance_ok h
  rw [hgradient] at hlaws hcount
  have htrail : q.trail = p.trail := by
    rw [hbounced]
    rfl
  have hrecover := s₁.trail_of_recover q
  have hfield := s₁.sameField_recover q
  obtain ⟨-, hplaces⟩ := mark_ok hmark
  rw [hplaces, hrecover, hfield.physics, hfield.potential, hlaws.physics, hlaws.potential, htrail, hcount]
  simp only [decide_eq_true_eq]

/-! ## One step -/

/-- A step without failure moves the first particle and then the others. -/
theorem advanceAll_cons (h : s.advanceAll dt (p :: ps) = ⟨ps', s', none⟩) :
    ∃ p' s₁ rest, s.advance p dt = ⟨p', s₁, none⟩ ∧ s₁.advanceAll dt ps = ⟨rest, s', none⟩ ∧
      ps' = p' :: rest := by
  rw [advanceAll] at h
  split at h
  · cases h
  · rename_i p' s₁ hadvance
    obtain ⟨hresult, hsystem, hfailure⟩ := Advanced.mk.inj h
    refine ⟨p', s₁, (s₁.advanceAll dt ps).result, hadvance, ?_, hresult.symm⟩
    rw [← hsystem, ← hfailure]

theorem length_advanceAll (h : s.advanceAll dt ps = ⟨ps', s', none⟩) : ps'.length = ps.length := by
  induction ps generalizing s ps' with
  | nil =>
      rw [advanceAll] at h
      cases h
      rfl
  | cons p ps ih =>
      obtain ⟨p', s₁, rest, -, hrest, rfl⟩ := advanceAll_cons h
      rw [List.length_cons, List.length_cons, ih hrest]

/-- Each particle has its turn, in a system with the same laws. -/
theorem exists_turn (h : s.advanceAll dt ps = ⟨ps', s', none⟩) (hp : ps[i]? = some p) :
    ∃ p' t, ps'[i]? = some p' ∧ (s.turn dt ps i).advance p dt = ⟨p', t, none⟩ ∧
      SameLaws s (s.turn dt ps i) := by
  induction ps generalizing s ps' i with
  | nil => cases hp
  | cons q ps ih =>
      obtain ⟨q', s₁, rest, hadvance, hrest, rfl⟩ := advanceAll_cons h
      have hlaws := s.sameLaws_advance q dt
      rw [hadvance] at hlaws
      cases i with
      | zero =>
          obtain rfl := Option.some.inj hp
          exact ⟨q', s₁, rfl, hadvance, .refl s⟩
      | succ i =>
          have hturn : s.turn dt (q :: ps) (i + 1) = s₁.turn dt ps i := by
            rw [turn, List.take_succ_cons, advanceAll, hadvance]
            rfl
          obtain ⟨p', t, hp', hmove, hsame⟩ := ih hrest hp
          rw [hturn]
          exact ⟨p', t, hp', hmove, hlaws.trans hsame⟩

theorem sameLaws_advanceAll (s : ParticleSystem α) (dt : α) (ps : List (Particle α)) :
    SameLaws s (s.advanceAll dt ps).system := by
  induction ps generalizing s with
  | nil => exact .refl s
  | cons p ps ih =>
      have hlaws := s.sameLaws_advance p dt
      rw [advanceAll]
      split <;> rename_i hadvance <;> rw [hadvance] at hlaws
      · exact hlaws
      · exact hlaws.trans (ih _)

/-! ## A run -/

/-- The last step of a run without failure. -/
theorem run_succ (h : s.run ps dt? (n + 1) = ⟨ps', s', none⟩) :
    ∃ ps₁ s₁, s.run ps dt? n = ⟨ps₁, s₁, none⟩ ∧ s₁.step ps₁ dt? = ⟨ps', s', none⟩ := by
  induction n generalizing s ps with
  | zero =>
      rw [run] at h
      split at h
      · cases h
      · rename_i hstep
        cases h
        exact ⟨ps, s, rfl, hstep⟩
  | succ n ih =>
      rw [run] at h
      split at h
      · cases h
      · rename_i hstep
        obtain ⟨ps₁, s₁, hrun, hlast⟩ := ih h
        refine ⟨ps₁, s₁, ?_, hlast⟩
        rw [run, hstep]
        exact hrun

theorem sameLaws_run (h : s.run ps dt? n = ⟨ps', s', none⟩) : SameLaws s s' := by
  induction n generalizing ps' s' with
  | zero =>
      rw [run] at h
      cases h
      exact .refl s
  | succ n ih =>
      obtain ⟨ps₁, s₁, hrun, hstep⟩ := run_succ h
      have hlaws := s₁.sameLaws_advanceAll (s₁.timeOf dt?) ps₁
      rw [← step, hstep] at hlaws
      exact (ih hrun).trans hlaws

/-! ## The trail of one particle -/

/-- What is recorded from a start on: each step adds a place, and the steps
that put the particle back drop what was there. -/
def recorded {β : Type} (start : List β) (place : Nat → β) (drops : Nat → Bool) : Nat → List β
  | 0 => start
  | k + 1 => (if drops k then [] else recorded start place drops k) ++ [place (k + 1)]

section Recorded

variable {β : Type} {start : List β} {place : Nat → β} {drops : Nat → Bool}

theorem recorded_add {m : Nat} (d : Nat) (h : ∀ k, m ≤ k → k < m + d → drops k = false) :
    recorded start place drops (m + d) =
      recorded start place drops m ++ (List.range' (m + 1) d).map place := by
  induction d with
  | zero => exact (List.append_nil _).symm
  | succ d ih =>
      have hlast := h (m + d) (Nat.le_add_right m d) (Nat.lt_succ_self _)
      rw [← Nat.add_assoc, recorded, hlast, if_neg Bool.false_ne_true,
        ih fun k hk hkd => h k hk (Nat.lt_succ_of_lt hkd), List.range'_1_concat, List.map_append,
        List.append_assoc, Nat.add_right_comm m d 1]
      rfl

/-- Everything is kept where nothing is dropped. -/
theorem recorded_of_keeps {n : Nat} (h : ∀ k < n, drops k = false) :
    recorded start place drops n = start ++ (List.range' 1 n).map place := by
  have hall : recorded start place drops (0 + n) =
      recorded start place drops 0 ++ (List.range' 1 n).map place :=
    recorded_add n fun k _ hk => h k (Nat.zero_add n ▸ hk)
  rw [Nat.zero_add] at hall
  exact hall

/-- After the last step that drops, what it has added itself is first. -/
theorem recorded_of_drops {m n : Nat} (hmn : m < n) (hm : drops m = true)
    (h : ∀ k, m < k → k < n → drops k = false) :
    recorded start place drops n = (List.range' (m + 1) (n - m)).map place := by
  obtain ⟨d, rfl⟩ := Nat.exists_eq_add_of_lt hmn
  rw [Nat.add_right_comm, recorded_add d fun k hk hkd => h k hk (Nat.add_right_comm m 1 d ▸ hkd),
    recorded, hm, if_pos rfl, List.nil_append, show m + 1 + d - m = d + 1 by omega, List.range'_succ,
    List.map_cons]
  rfl

end Recorded

/-- What is recorded for a particle in the steps of a run. -/
def record (s : ParticleSystem α) (ps : List (Particle α)) (dt? : Option α) (i : Nat)
    (visited : Nat → Particle α) : Nat → List (Point3 α) :=
  recorded (visited 0).trail.places (fun k => (visited k).over s.potential) (s.putsBackAfter ps dt? i)

/-- The particles with a place in the list, step after step, and what each
step leaves on the trail. -/
structure IsCourse (s : ParticleSystem α) (ps : List (Particle α)) (dt? : Option α) (i n : Nat)
    (visited : Nat → Particle α) : Prop where
  get : ∀ k ≤ n, (s.run ps dt? k).result[i]? = some (visited k)
  trail : ∀ k < n, (visited (k + 1)).trail = ⟨some s.physics.trailLength.toNat,
    ((if s.putsBackAfter ps dt? i k then [] else (visited k).trail.places) ++
      [(visited (k + 1)).over s.potential]).rtake s.physics.trailLength.toNat⟩

/-- What one step adds to a run. -/
theorem trail_of_step (h : s.run ps dt? (n + 1) = ⟨ps', s', none⟩)
    (hp : (s.run ps dt? n).result[i]? = some p) :
    ∃ p', ps'[i]? = some p' ∧ p'.trail = ⟨some s.physics.trailLength.toNat,
      ((if s.putsBackAfter ps dt? i n then [] else p.trail.places) ++
        [p'.over s.potential]).rtake s.physics.trailLength.toNat⟩ := by
  obtain ⟨ps₁, s₁, hrun, hstep⟩ := run_succ h
  have hlaws := sameLaws_run hrun
  rw [hrun] at hp
  obtain ⟨p', t, hp', hmove, hsame⟩ := exists_turn hstep hp
  have htrail := trail_of_advance hmove
  have hback : s.putsBackAfter ps dt? i n = (s₁.turn (s₁.timeOf dt?) ps₁ i).putsBack p (s₁.timeOf dt?) := by
    rw [putsBackAfter, hrun]
    dsimp only at hp ⊢
    rw [hp, Option.any_some]
  rw [hsame.physics, hsame.potential, hlaws.physics, hlaws.potential, ← hback] at htrail
  exact ⟨p', hp', htrail⟩

theorem exists_course (h : s.run ps dt? n = ⟨ps', s', none⟩) (hp : ps[i]? = some p) :
    ∃ visited, IsCourse s ps dt? i n visited := by
  refine ⟨fun k => ((s.run ps dt? k).result[i]?).getD p, ?_⟩
  induction n generalizing ps' s' with
  | zero =>
      refine ⟨fun k hk => ?_, fun k hk => absurd hk (Nat.not_lt_zero k)⟩
      obtain rfl := Nat.le_zero.mp hk
      rw [run]
      dsimp only
      rw [hp, Option.getD_some]
  | succ n ih =>
      obtain ⟨ps₁, s₁, hrun, -⟩ := run_succ h
      have hcourse := ih hrun
      obtain ⟨p', hp', htrail⟩ := trail_of_step h (hcourse.get n le_rfl)
      have hlast : (s.run ps dt? (n + 1)).result[i]? = some p' := by
        rw [h]
        exact hp'
      refine ⟨fun k hk => ?_, fun k hk => ?_⟩
      · rcases Nat.le_succ_iff.mp hk with hk | rfl
        · exact hcourse.get k hk
        · rw [hlast, Option.getD_some]
      · rcases Nat.lt_succ_iff_lt_or_eq.mp hk with hk | rfl
        · exact hcourse.trail k hk
        · rw [hlast, Option.getD_some]
          exact htrail

namespace IsCourse

variable {visited : Nat → Particle α}

/-- Whatever is added, the last places are those of what was recorded. -/
theorem trail_append (hf : IsCourse s ps dt? i n visited) {k : Nat} (hk : k ≤ n) (ys : List (Point3 α)) :
    ((visited k).trail.places ++ ys).rtake s.physics.trailLength.toNat =
      (record s ps dt? i visited k ++ ys).rtake s.physics.trailLength.toNat := by
  induction k generalizing ys with
  | zero => rfl
  | succ k ih =>
      rw [hf.trail k hk, List.rtake_rtake_append, List.append_assoc]
      rw [record, recorded, List.append_assoc]
      split
      · rfl
      · exact ih (Nat.le_of_succ_le hk) _

theorem places (hf : IsCourse s ps dt? i n visited)
    (h : 0 < n ∨ (visited 0).trail.places.length ≤ s.physics.trailLength.toNat) :
    (visited n).trail.places = (record s ps dt? i visited n).rtake s.physics.trailLength.toNat := by
  have hall := hf.trail_append le_rfl []
  rw [List.append_nil, List.append_nil] at hall
  rw [← hall]
  cases n with
  | zero =>
      have hshort := h.resolve_left (Nat.lt_irrefl 0)
      rw [List.rtake, Nat.sub_eq_zero_of_le hshort, List.drop_zero]
  | succ n =>
      rw [hf.trail n n.lt_succ_self]
      have hcut := List.rtake_rtake_append (((if s.putsBackAfter ps dt? i n then [] else
        (visited n).trail.places) ++ [(visited (n + 1)).over s.potential])) [] s.physics.trailLength.toNat
      rw [List.append_nil, List.append_nil] at hcut
      exact hcut.symm

end IsCourse

/-- After a run without failure the trail of any particle holds the last
places, as many as the system keeps, of those that it had at the start and
those where it was after each step; if the particle was put back, only of
those after the step that put it back last, and the later ones. Before the
first step a trail is what it is, be it longer. -/
theorem trail_of_run (h : (s.run ps dt? n).failure? = none) (hp : ps[i]? = some p)
    (hcut : 0 < n ∨ p.trail.places.length ≤ s.physics.trailLength.toNat) :
    ∃ visited : Nat → Particle α, visited 0 = p ∧
      (∀ k ≤ n, (s.run ps dt? k).result[i]? = some (visited k)) ∧
      (0 < n → (visited n).trail.limit = some s.physics.trailLength.toNat) ∧
      ((∀ k < n, s.putsBackAfter ps dt? i k = false) →
        (visited n).trail.places = (p.trail.places ++
          (List.range' 1 n).map fun k => (visited k).over s.potential).rtake s.physics.trailLength.toNat) ∧
      ∀ m < n, s.putsBackAfter ps dt? i m = true →
        (∀ k, m < k → k < n → s.putsBackAfter ps dt? i k = false) →
        (visited n).trail.places =
          ((List.range' (m + 1) (n - m)).map fun k => (visited k).over s.potential).rtake
            s.physics.trailLength.toNat := by
  obtain ⟨visited, hcourse⟩ := exists_course (Advanced.eq_of_failure? h) hp
  have hstart : visited 0 = p := by
    have hzero := hcourse.get 0 (Nat.zero_le n)
    exact Option.some.inj (hzero.symm.trans hp)
  have hplaces := hcourse.places (hstart ▸ hcut)
  refine ⟨visited, hstart, hcourse.get, fun hpos => ?_, fun hkeeps => ?_, fun m hmn hm hkeeps => ?_⟩
  · obtain ⟨k, rfl⟩ := Nat.exists_eq_add_one.mpr hpos
    rw [hcourse.trail k k.lt_succ_self]
  · rw [hplaces, record, recorded_of_keeps hkeeps, hstart]
  · rw [hplaces, record, recorded_of_drops hmn hm hkeeps]

/-- The jagged system with trails of four places. -/
def shortTrails : ParticleSystem (Circular (fun _ => 0) (fun _ => 1)) :=
  { jagged with physics := { jagged.physics with trailLength := 4 } }

/-- A trail without a limit. -/
def longTrail : Trail (Circular (fun _ => 0) (fun _ => 1)) := ⟨none, [⟨1, 1, 1⟩, ⟨2, 2, 2⟩, ⟨3, 3, 3⟩]⟩

/-- A particle whose velocity is not a number, and one at rest. -/
def strays : List (Particle (Circular (fun _ => 0) (fun _ => 1))) :=
  [{ x := 0, y := 0, vx := Scalar.undefined, vy := 0, id := 0, trail := longTrail },
    { x := Scalar.half, y := 0, vx := 0, vy := 0, id := 1, trail := longTrail }]

/-- After three steps the first particle, which was put back in the first
one, has only the places of these steps on its trail, and the other one
also the last place that it started with. -/
theorem shortTrails_trail_of_run : (shortTrails.run strays none 3).failure? = none ∧
    (shortTrails.putsBackAfter strays none 0 0 = true ∧ ∃ p q r : Particle _,
      (shortTrails.run strays none 3).result[0]? = some r ∧
      r.trail.places = [p.over shortTrails.potential, q.over shortTrails.potential,
        r.over shortTrails.potential]) ∧
    ∃ p q r : Particle _, (shortTrails.run strays none 3).result[1]? = some r ∧
      r.trail.places = [⟨3, 3, 3⟩, p.over shortTrails.potential, q.over shortTrails.potential,
        r.over shortTrails.potential] := by
  have hnone : (shortTrails.run strays none 3).failure? = none := by decide +kernel
  have hback : shortTrails.putsBackAfter strays none 0 0 = true := by decide +kernel
  have hlater : ∀ k, 0 < k → k < 3 → shortTrails.putsBackAfter strays none 0 k = false := by
    intro k hpos hk
    interval_cases k <;> decide +kernel
  have hrest : ∀ k < 3, shortTrails.putsBackAfter strays none 1 k = false := by
    intro k hk
    interval_cases k <;> decide +kernel
  obtain ⟨first, -, hfirst, -, -, hdropped⟩ := trail_of_run hnone (i := 0) rfl (Or.inl (by decide))
  obtain ⟨second, -, hsecond, -, hkept, -⟩ := trail_of_run hnone (i := 1) rfl (Or.inl (by decide))
  refine ⟨hnone, ⟨hback, first 1, first 2, first 3, hfirst 3 le_rfl, ?_⟩,
    second 1, second 2, second 3, hsecond 3 le_rfl, hkept hrest⟩
  exact hdropped 0 (by decide) hback hlater

end ParticleSystem
end FieldScript
