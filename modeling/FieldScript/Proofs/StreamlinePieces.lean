import Mathlib.Logic.Function.Iterate
import Mathlib.Order.Bounds.Basic
import FieldScript.Proofs.Outcome
import FieldScript.Streamline.Tracer

/-!
# Streamlines are pieces of orbits

A Runge-Kutta step sends each point to the next one (`next`), and the
points reached from a seed are its orbit (`orbitPoint`). A curve is an
initial piece of the orbit: the longest one of at most so many points in
which every step keeps to the domain and moves (`Stays`). Its length is
known before anything is asked (`pieceLength`); the curve is found exactly
if the flow and the height answer at the points that the steps of the
piece need (`orbit_eq_ok_iff`).

A flow may fail. `Extends` takes functions that give its answers where
there are any; nothing depends on what they give elsewhere.
-/

namespace FieldScript

variable {α : Type} [Scalar α]

namespace Trace

theorem length_turns (points : List (Point3 α)) : (turns points).length = points.length - 2 := by
  fun_induction turns points with
  | case1 p q r rest ih =>
      rw [List.length_cons, ih]
      simp only [List.length_cons]
      omega
  | case2 points h =>
      match points, h with
      | [], _ => rfl
      | [_], _ => rfl
      | [_, _], _ => rfl
      | p :: q :: r :: rest, h => exact absurd rfl (h p q r rest)

theorem length_curvature (points : List (Point3 α)) :
    (curvature points).length = points.length := by
  match points with
  | [] => rfl
  | [_] => rfl
  | p :: q :: rest =>
      show (0 :: turns (p :: q :: rest) ++ [0]).length = _
      rw [List.length_append, List.length_cons, length_turns]
      simp only [List.length_cons, List.length_nil]
      omega

end Trace

namespace Tracer

/-! ## Orbits -/

section Orbits

variable (F : α → α → α × α) (dt : α)

/-- The point that is reached from another in a direction. -/
def ahead (s : α) (p : Point2 α) (k : α × α) : Point2 α := ⟨p.x + s * k.1, p.y + s * k.2⟩

/-- Where a step asks for its second direction. -/
def probe2 (p : Point2 α) : Point2 α := ahead (Scalar.half * dt) p (F p.x p.y)

/-- Where a step asks for its third direction. -/
def probe3 (p : Point2 α) : Point2 α :=
  ahead (Scalar.half * dt) p (F (probe2 F dt p).x (probe2 F dt p).y)

/-- Where a step asks for its last direction. -/
def probe4 (p : Point2 α) : Point2 α := ahead dt p (F (probe3 F dt p).x (probe3 F dt p).y)

/-- The mean of the four directions, the middle ones counted twice. -/
def mean (p : Point2 α) : Point2 α :=
  let k1 := F p.x p.y
  let k2 := F (probe2 F dt p).x (probe2 F dt p).y
  let k3 := F (probe3 F dt p).x (probe3 F dt p).y
  let k4 := F (probe4 F dt p).x (probe4 F dt p).y
  ⟨(k1.1 + 2 * k2.1 + 2 * k3.1 + k4.1) / 6, (k1.2 + 2 * k2.2 + 2 * k3.2 + k4.2) / 6⟩

/-- The end of the step. -/
def next (p : Point2 α) : Point2 α :=
  ⟨p.x + dt * (mean F dt p).x, p.y + dt * (mean F dt p).y⟩

/-- The points that steps reach one after the other. -/
def orbitPoint (start : Point2 α) (i : Nat) : Point2 α := (next F dt)^[i] start

end Orbits

/-- The functions give the answers of the flow and of the height. -/
structure Extends (t : Tracer α) (F : α → α → α × α) (H : Point2 α → α) : Prop where
  flow : ∀ {x y v}, t.flow x y = .ok v → F x y = v
  height : ∀ {p z}, t.heightAt p = .ok z → H p = z

theorem exists_extends (t : Tracer α) : ∃ F H, t.Extends F H := by
  refine ⟨fun x y => (t.flow x y).toOption.getD (0, 0), fun p => (t.heightAt p).toOption.getD 0,
    fun h => ?_, fun h => ?_⟩ <;> rw [h] <;> rfl

/-- The flow answers wherever a step asks for a direction, and the height
where it begins. -/
structure Answers (t : Tracer α) (F : α → α → α × α) (p : Point2 α) : Prop where
  flow : ∀ q ∈ [p, probe2 F t.settings.dt p, probe3 F t.settings.dt p, probe4 F t.settings.dt p],
    ∃ v, t.flow q.x q.y = .ok v
  height : ∃ z, t.heightAt p = .ok z

/-- The step stays finite and inside both ranges, and its mean direction
is not too short. -/
structure Stays (t : Tracer α) (F : α → α → α × α) (p : Point2 α) : Prop where
  finite : Scalar.isFinite (next F t.settings.dt p).x = true ∧
    Scalar.isFinite (next F t.settings.dt p).y = true
  inside : t.xRange.contains (next F t.settings.dt p).x = true ∧
    t.yRange.contains (next F t.settings.dt p).y = true
  moving : Scalar.less (Scalar.hypot (mean F t.settings.dt p).x (mean F t.settings.dt p).y)
    t.settings.epsilon = false

variable {t : Tracer α} {F : α → α → α × α} {H : Point2 α → α}

theorem goesOn_iff {p : Point2 α} :
    t.goesOn (mean F t.settings.dt p) (next F t.settings.dt p) = true ↔ t.Stays F p := by
  rw [goesOn, Bool.and_eq_true, Bool.and_eq_true, Bool.and_eq_true, Bool.and_eq_true,
    Bool.not_eq_true']
  exact ⟨fun ⟨⟨⟨⟨hx, hy⟩, hinx⟩, hiny⟩, hlong⟩ => ⟨⟨hx, hy⟩, ⟨hinx, hiny⟩, hlong⟩,
    fun h => ⟨⟨⟨h.finite, h.inside.1⟩, h.inside.2⟩, h.moving⟩⟩

/-! ## Steps -/

/-- What a curve records at a point. -/
def record (F : α → α → α × α) (H : Point2 α → α) (p : Point2 α) : Point3 α × α :=
  (⟨p.x, p.y, H p⟩, Scalar.hypot (F p.x p.y).1 (F p.x p.y).2)

theorem advance_eq_ok_iff (hF : ∀ {x y v}, t.flow x y = .ok v → F x y = v) (p : Point2 α)
    {r : Point2 α × Point2 α} : advance t.flow t.settings.dt p (F p.x p.y) = .ok r ↔
      (∀ q ∈ [probe2 F t.settings.dt p, probe3 F t.settings.dt p, probe4 F t.settings.dt p],
        ∃ v, t.flow q.x q.y = .ok v) ∧
      r = (mean F t.settings.dt p, next F t.settings.dt p) := by
  rw [advance]
  simp only [bind_eq_ok, List.forall_mem_cons]
  constructor
  · rintro ⟨k2, h2, k3, h3, k4, h4, hr⟩
    obtain rfl := hF h2
    obtain rfl := hF h3
    obtain rfl := hF h4
    exact ⟨⟨⟨_, h2⟩, ⟨_, h3⟩, ⟨_, h4⟩, List.forall_mem_nil _⟩, (Except.ok.inj hr).symm⟩
  · rintro ⟨⟨⟨k2, h2⟩, ⟨k3, h3⟩, ⟨k4, h4⟩, -⟩, rfl⟩
    obtain rfl := hF h2
    obtain rfl := hF h3
    obtain rfl := hF h4
    exact ⟨_, h2, _, h3, _, h4, rfl⟩

/-- One more point is recorded, and the curve goes on from the next one or
ends. -/
theorem orbit_succ_eq_ok_iff (hext : t.Extends F H) (p : Point2 α) (n : Nat)
    {steps : List (Point3 α × α)} : t.orbit p (n + 1) = .ok steps ↔ t.Answers F p ∧ ∃ rest,
      (if t.goesOn (mean F t.settings.dt p) (next F t.settings.dt p) then
        t.orbit (next F t.settings.dt p) n else .ok []) = .ok rest ∧
      steps = record F H p :: rest := by
  -- Whether the curve goes on is asked before its further points are.
  have horbit : t.orbit p (n + 1) = (do
      let k1 ← t.flow p.x p.y
      let z ← t.heightAt p
      let r ← advance t.flow t.settings.dt p k1
      let rest ← (if t.goesOn r.1 r.2 then t.orbit r.2 n else .ok [])
      .ok ((⟨p.x, p.y, z⟩, Scalar.hypot k1.1 k1.2) :: rest)) := by
    rw [orbit]
    refine bind_congr fun k1 => bind_congr fun z => bind_congr fun r => ?_
    dsimp only
    split <;> rfl
  rw [horbit]
  simp only [bind_eq_ok]
  constructor
  · rintro ⟨k1, hk1, z, hz, r, hr, rest, hrest, hsteps⟩
    obtain rfl := hext.flow hk1
    obtain rfl := hext.height hz
    obtain ⟨hprobes, rfl⟩ := (advance_eq_ok_iff hext.flow p).mp hr
    exact ⟨⟨List.forall_mem_cons.mpr ⟨⟨_, hk1⟩, hprobes⟩, _, hz⟩, rest, hrest,
      (Except.ok.inj hsteps).symm⟩
  · rintro ⟨⟨hflow, z, hz⟩, rest, hrest, rfl⟩
    obtain ⟨⟨k1, hk1⟩, hprobes⟩ := List.forall_mem_cons.mp hflow
    obtain rfl := hext.flow hk1
    obtain rfl := hext.height hz
    exact ⟨_, hk1, _, hz, _, (advance_eq_ok_iff hext.flow p).mpr ⟨hprobes, rfl⟩, rest, hrest, rfl⟩

/-! ## Pieces -/

/-- The number of points of a curve that has at most so many. -/
def pieceLength (t : Tracer α) (F : α → α → α × α) (p : Point2 α) : Nat → Nat
  | 0 => 0
  | n + 1 =>
    if t.goesOn (mean F t.settings.dt p) (next F t.settings.dt p) then
      t.pieceLength F (next F t.settings.dt p) n + 1
    else 1

/-- The piece is the longest one in which all steps stay. -/
theorem isGreatest_pieceLength (t : Tracer α) (F : α → α → α × α) (n : Nat) (p : Point2 α) :
    IsGreatest {k | k ≤ n ∧ ∀ i, i + 1 < k → t.Stays F (orbitPoint F t.settings.dt p i)}
      (t.pieceLength F p n) := by
  induction n generalizing p with
  | zero => exact ⟨⟨Nat.le_refl 0, fun i hi => absurd hi (Nat.not_lt_zero _)⟩, fun k hk => hk.1⟩
  | succ n ih =>
      rw [pieceLength]
      split
      · rename_i hgoes
        obtain ⟨⟨hle, hstays⟩, hmax⟩ := ih (next F t.settings.dt p)
        refine ⟨⟨Nat.succ_le_succ hle, fun i hi => ?_⟩, fun k hk => ?_⟩
        · cases i with
          | zero => exact goesOn_iff.mp hgoes
          | succ i => exact hstays i (Nat.lt_of_succ_lt_succ hi)
        · cases k with
          | zero => exact Nat.zero_le _
          | succ k =>
              exact Nat.succ_le_succ (hmax ⟨Nat.le_of_succ_le_succ hk.1, fun i hi =>
                hk.2 (i + 1) (Nat.succ_lt_succ hi)⟩)
      · rename_i hends
        refine ⟨⟨Nat.succ_le_succ (Nat.zero_le n), fun i hi => by omega⟩, fun k hk => ?_⟩
        by_contra hlong
        exact hends (goesOn_iff.mpr (hk.2 0 (by omega)))

/-- A curve is found if the flow and the height answer along its piece,
and records the points of the piece. -/
theorem orbit_eq_ok_iff (hext : t.Extends F H) (n : Nat) (p : Point2 α)
    {steps : List (Point3 α × α)} : t.orbit p n = .ok steps ↔
      (∀ i < t.pieceLength F p n, t.Answers F (orbitPoint F t.settings.dt p i)) ∧
      steps = (List.range (t.pieceLength F p n)).map fun i =>
        record F H (orbitPoint F t.settings.dt p i) := by
  induction n generalizing p steps with
  | zero =>
      rw [orbit, pieceLength, List.range_zero, List.map_nil]
      exact ⟨fun h => ⟨fun i hi => absurd hi (Nat.not_lt_zero i), (Except.ok.inj h).symm⟩,
        fun h => h.2 ▸ rfl⟩
  | succ n ih =>
      rw [orbit_succ_eq_ok_iff hext, pieceLength]
      split
      · -- The points after the first one are the orbit of the next point.
        simp only [ih, List.range_succ_eq_map, List.map_cons, List.map_map]
        constructor
        · rintro ⟨hp, rest, ⟨hrest, rfl⟩, rfl⟩
          refine ⟨fun i hi => ?_, rfl⟩
          cases i with
          | zero => exact hp
          | succ i => exact hrest i (Nat.lt_of_succ_lt_succ hi)
        · rintro ⟨hall, rfl⟩
          exact ⟨hall 0 (Nat.succ_pos _), _, ⟨fun i hi => hall (i + 1) (Nat.succ_lt_succ hi), rfl⟩,
            rfl⟩
      · rw [List.range_one, List.map_singleton]
        constructor
        · rintro ⟨hp, rest, hrest, rfl⟩
          obtain rfl := Except.ok.inj hrest
          exact ⟨fun i hi => (Nat.lt_one_iff.mp hi) ▸ hp, rfl⟩
        · rintro ⟨hall, rfl⟩
          exact ⟨hall 0 Nat.one_pos, [], rfl, rfl⟩

/-! ## Curves -/

/-- The curve consists of the first `n` points of the orbit. -/
structure Records (t : Tracer α) (F : α → α → α × α) (H : Point2 α → α) (start : Point2 α) (n : Nat)
    (c : Trace α) : Prop where
  points : c.points = (List.range n).map fun i =>
    ⟨(orbitPoint F t.settings.dt start i).x, (orbitPoint F t.settings.dt start i).y,
      H (orbitPoint F t.settings.dt start i)⟩
  magnitudes : c.magnitudes = (List.range n).map fun i =>
    Scalar.hypot (F (orbitPoint F t.settings.dt start i).x (orbitPoint F t.settings.dt start i).y).1
      (F (orbitPoint F t.settings.dt start i).x (orbitPoint F t.settings.dt start i).y).2
  aux : c.aux = Trace.curvature c.points
  sizes : c.points.length = n ∧ c.magnitudes.length = n ∧ c.aux.length = n
  seed : c.points.head? = some ⟨start.x, start.y, H start⟩
  later : ∀ q ∈ c.points.tail, t.xRange.contains q.x = true ∧ t.yRange.contains q.y = true
  /-- A curve that is not full has been ended by the step from its last point. -/
  ended : (n : Int) < t.settings.maxSteps →
    ¬ t.Stays F (orbitPoint F t.settings.dt start (n - 1))

theorem trace_eq_ok_iff {start : Point2 α} {c : Trace α} : t.trace start = .ok c ↔
    ∃ steps, t.orbit start t.settings.maxSteps.toNat = .ok steps ∧
      c = ⟨steps.map (·.1), steps.map (·.2), Trace.curvature (steps.map (·.1))⟩ := by
  rw [trace, bind_eq_ok]
  exact exists_congr fun steps => and_congr_right fun _ =>
    ⟨fun h => (Except.ok.inj h).symm, fun h => h ▸ rfl⟩

/-- The numbers of points of the initial pieces in which all steps stay. -/
def Pieces (t : Tracer α) (F : α → α → α × α) (start : Point2 α) : Set Nat :=
  {k | (k : Int) ≤ t.settings.maxSteps ∧
    ∀ i, i + 1 < k → t.Stays F (orbitPoint F t.settings.dt start i)}

theorem orbitPoint_succ (F : α → α → α × α) (dt : α) (start : Point2 α) (i : Nat) :
    orbitPoint F dt start (i + 1) = next F dt (orbitPoint F dt start i) :=
  Function.iterate_succ_apply' _ _ _

/-- A longest piece has a seed, stays inside after it, and could not go on. -/
theorem records_of_isGreatest {n : Nat} {start : Point2 α} {c : Trace α}
    (hn : IsGreatest (t.Pieces F start) n) (hsteps : 1 ≤ t.settings.maxSteps)
    (hc : c = let steps := (List.range n).map fun i =>
        record F H (orbitPoint F t.settings.dt start i)
      ⟨steps.map (·.1), steps.map (·.2), Trace.curvature (steps.map (·.1))⟩) :
    t.Records F H start n c := by
  have hpos : 1 ≤ n := hn.2 ⟨by exact_mod_cast hsteps, fun i hi => by omega⟩
  obtain ⟨m, rfl⟩ := Nat.exists_eq_succ_of_ne_zero (by omega : n ≠ 0)
  have hpoints : c.points = (List.range (m + 1)).map fun i =>
      ⟨(orbitPoint F t.settings.dt start i).x, (orbitPoint F t.settings.dt start i).y,
        H (orbitPoint F t.settings.dt start i)⟩ := by
    rw [hc]
    exact List.map_map
  have hmagnitudes : c.magnitudes = (List.range (m + 1)).map fun i => Scalar.hypot
      (F (orbitPoint F t.settings.dt start i).x (orbitPoint F t.settings.dt start i).y).1
      (F (orbitPoint F t.settings.dt start i).x (orbitPoint F t.settings.dt start i).y).2 := by
    rw [hc]
    exact List.map_map
  have haux : c.aux = Trace.curvature c.points := by rw [hc]
  have hlen : c.points.length = m + 1 := by rw [hpoints, List.length_map, List.length_range]
  exact {
    points := hpoints
    magnitudes := hmagnitudes
    aux := haux
    sizes := ⟨hlen, by rw [hmagnitudes, List.length_map, List.length_range],
      by rw [haux, Trace.length_curvature, hlen]⟩
    seed := by
      rw [hpoints, List.range_succ_eq_map]
      rfl
    later := by
      rw [hpoints, List.range_succ_eq_map, List.map_cons, List.tail_cons, List.map_map]
      intro q hq
      obtain ⟨i, hi, rfl⟩ := List.mem_map.mp hq
      have hstays := hn.1.2 i (Nat.succ_lt_succ (List.mem_range.mp hi))
      dsimp only [Function.comp_apply]
      rw [orbitPoint_succ]
      exact hstays.inside
    ended := fun hroom hstays => by
      have hlonger : m + 2 ∈ t.Pieces F start := by
        refine ⟨by omega, fun i hi => ?_⟩
        rcases Nat.lt_or_eq_of_le (Nat.le_of_lt_succ (Nat.lt_of_succ_lt_succ hi)) with hi | rfl
        · exact hn.1.2 i (Nat.succ_lt_succ hi)
        · exact hstays
      exact absurd (hn.2 hlonger) (by omega) }

/-- A flow to the east, in steps of one half from left to right. -/
def eastward (epsilon : Float) (maxSteps : Int) : Tracer Float where
  flow := fun _ _ => .ok (1, 0)
  xRange := ⟨-1, 1⟩
  yRange := ⟨-1, 1⟩
  settings := { TracerSettings.standard with dt := 0.5, maxSteps, epsilon }
  height := none
  random := RandomSource.constant

theorem extends_eastward (epsilon : Float) (maxSteps : Int) :
    (eastward epsilon maxSteps).Extends (fun _ _ => (1, 0)) fun _ => 0 where
  flow := fun h => Except.ok.inj h
  height := fun h => Except.ok.inj h

end Tracer
end FieldScript
