import FieldScript.Density
import FieldScript.Proofs.ExactNumbers
import FieldScript.Proofs.TrailHistory

/-!
# What a density counts

In exact arithmetic, the cells of a density are half open: a cell has its
lower ends and not its upper ones (`Density.InCell`). So a point of the
domain lies in one cell, unless it is on an upper wall: there it lies in
none, although the domain has its walls. What the cells count together is
the number of the points of the domain that are on no upper wall
(`Density.counts_domain`).

Particles are stopped at the walls, so the upper ones are where points do
lie: after a step all particles are in the domain, and those at an upper
wall are not counted.
-/

/-- Every number is counted where all are looked up. -/
theorem List.sum_map_count_range (xs : List Nat) {n : Nat} (h : ∀ x ∈ xs, x < n) :
    ((List.range n).map xs.count).sum = xs.length := by
  have hsum := Multiset.sum_count_eq_card (s := Finset.range n) (m := (xs : Multiset Nat)) fun x hx =>
    Finset.mem_range.mpr (h x hx)
  simpa only [Finset.sum, Finset.range_val, Multiset.range, Multiset.map_coe, Multiset.sum_coe,
    Multiset.coe_count, Multiset.coe_card] using hsum

namespace FieldScript

open Classical

/-! ## Cells of an interval -/

/-- The interval in exact arithmetic. -/
def Interval.exact (r : Interval ℝ) : Interval Exact := ⟨.number r.low, .number r.high⟩

/-- Where the cell with this index begins, and the one before it ends. -/
noncomputable def Interval.edge (r : Interval ℝ) (cells i : Nat) : ℝ :=
  r.low + i / cells * (r.high - r.low)

section Cells

variable {r : Interval ℝ} {cells i : Nat} {v : Exact}

theorem Interval.contains_exact : r.exact.contains v = true ↔ ∃ x, v = .number x ∧ r.low ≤ x ∧ x ≤ r.high := by
  cases v with
  | undefined => simp [Interval.contains, Interval.exact, Scalar.lessEq, Exact.test]
  | number x => simp [Interval.contains, Interval.exact, Scalar.lessEq, Exact.test]

/-- The place of a number in an interval, counted in cells. -/
theorem floorInt?_exact (h : r.low < r.high) (x : ℝ) :
    Scalar.floorInt? ((Exact.number x - r.exact.low) / r.exact.span * Scalar.ofInt (cells : Int)) =
      some ⌊(x - r.low) / (r.high - r.low) * cells⌋ := by
  have hspan : r.high - r.low ≠ 0 := (sub_pos.mpr h).ne'
  have hquotient : quotient? (x - r.low) (r.high - r.low) = some ((x - r.low) / (r.high - r.low)) :=
    if_neg hspan
  have hdiv : (Exact.number x - r.exact.low) / r.exact.span = .number ((x - r.low) / (r.high - r.low)) := by
    show Exact.ofOption (quotient? (x - r.low) (r.high - r.low)) = _
    rw [hquotient]
    rfl
  rw [hdiv]
  show some ⌊(x - r.low) / (r.high - r.low) * ((cells : ℤ) : ℝ)⌋ = _
  rw [Int.cast_natCast]

theorem floor_eq_iff_edge (h : r.low < r.high) (hcells : 0 < cells) (x : ℝ) :
    ⌊(x - r.low) / (r.high - r.low) * cells⌋ = (i : Int) ↔ r.edge cells i ≤ x ∧ x < r.edge cells (i + 1) := by
  have hspan : 0 < r.high - r.low := sub_pos.mpr h
  have hcells' : (0 : ℝ) < cells := Nat.cast_pos.mpr hcells
  rw [Int.floor_eq_iff, Int.cast_natCast, div_mul_eq_mul_div, le_div_iff₀ hspan, div_lt_iff₀ hspan,
    Interval.edge, Interval.edge, Nat.cast_succ]
  have hlow : r.low + i / cells * (r.high - r.low) ≤ x ↔ i * (r.high - r.low) ≤ (x - r.low) * cells := by
    rw [← le_sub_iff_add_le', div_mul_eq_mul_div, div_le_iff₀ hcells']
  have hhigh : x < r.low + (i + 1) / cells * (r.high - r.low) ↔
      (x - r.low) * cells < (i + 1) * (r.high - r.low) := by
    rw [← sub_lt_iff_lt_add', div_mul_eq_mul_div, lt_div_iff₀ hcells']
  rw [hlow, hhigh]

/-- A number is in the cell that begins at or below it and ends above. -/
theorem Density.cell?_exact (h : r.low < r.high) : Density.cell? r.exact cells v = some i ↔
    i < cells ∧ ∃ x, v = .number x ∧ r.edge cells i ≤ x ∧ x < r.edge cells (i + 1) := by
  cases v with
  | undefined =>
      have hnone : Density.cell? r.exact cells .undefined = none := rfl
      rw [hnone]
      simp
  | number x =>
      rw [cell?, floorInt?_exact h]
      simp only [Option.bind_eq_bind, Option.bind_some, Bool.and_eq_true, decide_eq_true_eq,
        Exact.number.injEq, exists_eq_left']
      by_cases hcells : 0 < cells
      · rw [← floor_eq_iff_edge h hcells]
        split
        · rename_i hin
          rw [Option.some.injEq]
          omega
        · rename_i hout
          simp only [reduceCtorEq, false_iff]
          omega
      · simp
        omega

theorem Interval.edge_zero (r : Interval ℝ) (cells : Nat) : r.edge cells 0 = r.low := by
  rw [edge, Nat.cast_zero, zero_div, zero_mul, add_zero]

theorem Interval.edge_last (r : Interval ℝ) (hcells : 0 < cells) : r.edge cells cells = r.high := by
  rw [edge, div_self (Nat.cast_ne_zero.mpr hcells.ne'), one_mul, add_sub_cancel]

theorem Interval.edge_mono (h : r.low < r.high) {j : Nat} (hij : i ≤ j) : r.edge cells i ≤ r.edge cells j := by
  have hspan : 0 ≤ r.high - r.low := (sub_pos.mpr h).le
  have hcast : (i : ℝ) ≤ j := Nat.cast_le.mpr hij
  rw [edge, edge]
  gcongr

/-- The cells together are the interval without its upper end. -/
theorem Density.exists_cell?_exact (h : r.low < r.high) (hcells : 0 < cells) :
    (∃ i, Density.cell? r.exact cells v = some i) ↔ r.exact.contains v = true ∧ v ≠ .number r.high := by
  rw [Interval.contains_exact]
  constructor
  · rintro ⟨i, hi⟩
    obtain ⟨hlt, x, rfl, hlow, hhigh⟩ := (cell?_exact h).mp hi
    have hbegin : r.low ≤ r.edge cells i := r.edge_zero cells ▸ Interval.edge_mono h (Nat.zero_le i)
    have hend : r.edge cells (i + 1) ≤ r.high := r.edge_last hcells ▸ Interval.edge_mono h hlt
    refine ⟨⟨x, rfl, hbegin.trans hlow, (hhigh.trans_le hend).le⟩, fun heq => ?_⟩
    exact (hhigh.trans_le hend).ne (Exact.number.inj heq)
  · rintro ⟨⟨x, rfl, hlow, hhigh⟩, hne⟩
    have hlt : x < r.high := lt_of_le_of_ne hhigh fun heq => hne (congrArg _ heq)
    have hspan : 0 < r.high - r.low := sub_pos.mpr h
    have hshare : 0 ≤ (x - r.low) / (r.high - r.low) * cells :=
      mul_nonneg (div_nonneg (sub_nonneg.mpr hlow) hspan.le) (Nat.cast_nonneg cells)
    have hless : (x - r.low) / (r.high - r.low) * cells < cells := by
      have hone : (x - r.low) / (r.high - r.low) < 1 := (div_lt_one hspan).mpr (by linarith)
      have hpos : (0 : ℝ) < cells := Nat.cast_pos.mpr hcells
      nlinarith
    obtain ⟨i, hi⟩ := Int.eq_ofNat_of_zero_le (Int.floor_nonneg.mpr hshare)
    obtain ⟨hbegin, hend⟩ := (floor_eq_iff_edge h hcells x).mp hi
    have hfloor : ⌊(x - r.low) / (r.high - r.low) * cells⌋ < (cells : Int) :=
      Int.floor_lt.mpr (by rw [Int.cast_natCast]; exact hless)
    exact ⟨i, (cell?_exact h).mpr ⟨by omega, x, rfl, hbegin, hend⟩⟩

end Cells

/-! ## Counting -/

namespace Density

section Counts

variable {α : Type} [Scalar α] {xRange yRange : Interval α} {cells : Nat}

/-- All counts together. -/
def total (rows : List (List Nat)) : Nat := (rows.map List.sum).sum

theorem lt_of_cell? {r : Interval α} {v : α} {i : Nat} (h : cell? r cells v = some i) : i < cells := by
  obtain ⟨k, -, hk⟩ := Option.bind_eq_some_iff.mp h
  split at hk
  · rename_i hin
    rw [Bool.and_eq_true, decide_eq_true_eq, decide_eq_true_eq] at hin
    rw [Option.some.injEq] at hk
    omega
  · cases hk

theorem cellOf?_eq_some {p : Point2 α} {c : Nat × Nat} : cellOf? xRange yRange cells p = some c ↔
    cell? xRange cells p.x = some c.2 ∧ cell? yRange cells p.y = some c.1 := by
  obtain ⟨j, i⟩ := c
  simp only [cellOf?, Option.bind_eq_bind, Option.bind_eq_some_iff, Option.pure_def, Option.some.injEq,
    Prod.mk.injEq]
  constructor
  · rintro ⟨i', hi, j', hj, rfl, rfl⟩
    exact ⟨hi, hj⟩
  · rintro ⟨hi, hj⟩
    exact ⟨i, hi, j, hj, rfl, rfl⟩

/-- The columns of what was hit in a row. -/
def columns (hit : List (Nat × Nat)) (j : Nat) : List Nat :=
  hit.filterMap fun c => if c.1 == j then some c.2 else none

theorem count_columns (hit : List (Nat × Nat)) (j i : Nat) : (columns hit j).count i = hit.count (j, i) := by
  induction hit with
  | nil => rfl
  | cons c hit ih =>
      obtain ⟨j', i'⟩ := c
      rw [List.count_cons, ← ih, columns, List.filterMap_cons]
      by_cases hj : j' = j
      · subst hj
        simp only [beq_self_eq_true, if_true, List.count_cons, columns]
        congr 1
        simp
      · simp [hj, columns]

theorem length_columns (hit : List (Nat × Nat)) (j : Nat) :
    (columns hit j).length = (hit.map Prod.fst).count j := by
  induction hit with
  | nil => rfl
  | cons c hit ih =>
      rw [List.map_cons, List.count_cons, ← ih, columns, List.filterMap_cons]
      by_cases hj : c.1 = j <;> simp [hj, columns]

/-- Every point that is in a cell is counted once. -/
theorem total_counts (points : List (Point2 α)) :
    total (counts points xRange yRange cells) =
      points.countP fun p => (cellOf? xRange yRange cells p).isSome := by
  have hlt : ∀ c ∈ points.filterMap (cellOf? xRange yRange cells), c.1 < cells ∧ c.2 < cells := by
    intro c hc
    obtain ⟨p, -, hp⟩ := List.mem_filterMap.mp hc
    obtain ⟨hi, hj⟩ := cellOf?_eq_some.mp hp
    exact ⟨lt_of_cell? hj, lt_of_cell? hi⟩
  rw [total, counts, List.map_map]
  generalize hhit : points.filterMap (cellOf? xRange yRange cells) = hit at hlt
  have hrow : ∀ j, ((List.range cells).map (columns hit j).count).sum = (hit.map Prod.fst).count j := by
    intro j
    rw [← length_columns]
    refine List.sum_map_count_range _ fun i hi => ?_
    obtain ⟨c, hc, hci⟩ := List.mem_filterMap.mp hi
    split at hci
    · obtain rfl := Option.some.inj hci
      exact (hlt c hc).2
    · cases hci
  calc ((List.range cells).map fun j => ((List.range cells).map (columns hit j).count).sum).sum
      = ((List.range cells).map (hit.map Prod.fst).count).sum := by rw [funext hrow]
    _ = hit.length := by
        rw [List.sum_map_count_range, List.length_map]
        intro j hj
        obtain ⟨c, hc, rfl⟩ := List.mem_map.mp hj
        exact (hlt c hc).1
    _ = _ := by rw [← hhit, List.length_filterMap_eq_countP]

/-- What is counted for a cell are the points that lie in it. -/
theorem getElem?_counts (points : List (Point2 α)) {j i : Nat} (hj : j < cells) (hi : i < cells) :
    ((counts points xRange yRange cells)[j]?.bind (·[i]?)) =
      some (points.countP fun p => cellOf? xRange yRange cells p == some (j, i)) := by
  rw [counts, List.getElem?_map, List.getElem?_range hj, Option.map_some, Option.bind_some,
    List.getElem?_map, List.getElem?_range hi, Option.map_some]
  refine congrArg some ((count_columns _ j i).trans ?_)
  rw [List.count_filterMap]

end Counts

/-! ## Points of the domain -/

/-- The point lies in the domain, its walls included. -/
def InDomain (xRange yRange : Interval ℝ) (p : Point2 Exact) : Prop :=
  xRange.exact.contains p.x = true ∧ yRange.exact.contains p.y = true

/-- The point is at the upper end of a range. -/
def OnUpperWall (xRange yRange : Interval ℝ) (p : Point2 Exact) : Prop :=
  p.x = .number xRange.high ∨ p.y = .number yRange.high

/-- The point lies in the cell with this row and column: not below its lower
ends, and below its upper ones. -/
def InCell (xRange yRange : Interval ℝ) (cells : Nat) (c : Nat × Nat) (p : Point2 Exact) : Prop :=
  c.1 < cells ∧ c.2 < cells ∧ ∃ x y, p = ⟨.number x, .number y⟩ ∧
    x ∈ Set.Ico (xRange.edge cells c.2) (xRange.edge cells (c.2 + 1)) ∧
    y ∈ Set.Ico (yRange.edge cells c.1) (yRange.edge cells (c.1 + 1))

section Domain

variable {xRange yRange : Interval ℝ} {cells : Nat} {p : Point2 Exact}

theorem cellOf?_exact (hx : xRange.low < xRange.high) (hy : yRange.low < yRange.high) {c : Nat × Nat} :
    cellOf? xRange.exact yRange.exact cells p = some c ↔ InCell xRange yRange cells c p := by
  obtain ⟨px, py⟩ := p
  rw [cellOf?_eq_some, cell?_exact hx, cell?_exact hy, InCell]
  constructor
  · rintro ⟨⟨hi, x, rfl, hx⟩, hj, y, rfl, hy⟩
    exact ⟨hj, hi, x, y, rfl, hx, hy⟩
  · rintro ⟨hj, hi, x, y, hp, hx, hy⟩
    obtain ⟨rfl, rfl⟩ := Point2.mk.inj hp
    exact ⟨⟨hi, x, rfl, hx⟩, hj, y, rfl, hy⟩

/-- Each point of the domain has a cell, except at an upper wall. -/
theorem exists_inCell (hx : xRange.low < xRange.high) (hy : yRange.low < yRange.high) (hcells : 0 < cells) :
    (∃ c, InCell xRange yRange cells c p) ↔ InDomain xRange yRange p ∧ ¬ OnUpperWall xRange yRange p := by
  have hcolumn := exists_cell?_exact (v := p.x) hx hcells
  have hrow := exists_cell?_exact (v := p.y) hy hcells
  simp only [← cellOf?_exact hx hy, cellOf?_eq_some]
  rw [InDomain, OnUpperWall, not_or]
  constructor
  · rintro ⟨c, hi, hj⟩
    obtain ⟨hinx, hnex⟩ := hcolumn.mp ⟨_, hi⟩
    obtain ⟨hiny, hney⟩ := hrow.mp ⟨_, hj⟩
    exact ⟨⟨hinx, hiny⟩, hnex, hney⟩
  · rintro ⟨⟨hinx, hiny⟩, hnex, hney⟩
    obtain ⟨i, hi⟩ := hcolumn.mpr ⟨hinx, hnex⟩
    obtain ⟨j, hj⟩ := hrow.mpr ⟨hiny, hney⟩
    exact ⟨(j, i), hi, hj⟩

/-- The cells do not overlap. -/
theorem inCell_unique (hx : xRange.low < xRange.high) (hy : yRange.low < yRange.high) {c c' : Nat × Nat}
    (h : InCell xRange yRange cells c p) (h' : InCell xRange yRange cells c' p) : c = c' :=
  Option.some.inj (((cellOf?_exact hx hy).mpr h).symm.trans ((cellOf?_exact hx hy).mpr h'))

/-- The cells count the points of the domain that are on no upper wall. -/
theorem total_exact (hx : xRange.low < xRange.high) (hy : yRange.low < yRange.high) (hcells : 0 < cells)
    (points : List (Point2 Exact)) : total (counts points xRange.exact yRange.exact cells) =
      points.countP fun p => decide (InDomain xRange yRange p ∧ ¬ OnUpperWall xRange yRange p) := by
  rw [total_counts]
  refine List.countP_congr fun p _ => ?_
  rw [decide_eq_true_eq, ← exists_inCell hx hy hcells, Option.isSome_iff_exists]
  simp only [cellOf?_exact hx hy]

theorem countP_domain (points : List (Point2 Exact)) :
    (points.countP fun p => decide (InDomain xRange yRange p ∧ ¬ OnUpperWall xRange yRange p)) +
      (points.countP fun p => decide (InDomain xRange yRange p ∧ OnUpperWall xRange yRange p)) =
      points.countP fun p => decide (InDomain xRange yRange p) := by
  induction points with
  | nil => rfl
  | cons p points ih =>
      simp only [List.countP_cons, decide_eq_true_eq]
      by_cases hin : InDomain xRange yRange p <;> by_cases hwall : OnUpperWall xRange yRange p <;>
        simp only [hin, hwall, not_true_eq_false, not_false_eq_true, and_true, and_false, if_true, if_false] <;>
        omega

end Domain
end Density

/-! ## Particles after a step -/

section Particles

variable {r : Interval ℝ}

/-- A bounced number is inside. -/
theorem Interval.contains_bounceOff (h : r.low < r.high) (restitution x v : Exact)
    (hfinite : Scalar.isFinite (ParticleSystem.bounceOff r.exact restitution x v).1 = true) :
    r.exact.contains (ParticleSystem.bounceOff r.exact restitution x v).1 = true := by
  rw [Interval.contains_exact]
  cases x with
  | undefined => cases hfinite
  | number x =>
      simp only [ParticleSystem.bounceOff, Interval.exact, Exact.less_number, decide_eq_true_eq]
      by_cases hbelow : x < r.low
      · rw [if_pos hbelow]
        exact ⟨r.low, rfl, le_rfl, h.le⟩
      · rw [if_neg hbelow]
        by_cases habove : r.high < x
        · rw [if_pos habove]
          exact ⟨r.high, rfl, h.le, le_rfl⟩
        · rw [if_neg habove]
          exact ⟨x, rfl, not_lt.mp hbelow, not_lt.mp habove⟩

/-- What is clamped is inside, be it defined or not. -/
theorem Interval.contains_clamp (h : r.low < r.high) (v : Exact) :
    r.exact.contains (r.exact.clamp v) = true := by
  rw [Interval.contains_exact]
  have hhigh : ∀ x, r.low ≤ x → ∃ y, (if Scalar.less (Exact.number x) r.exact.high then Exact.number x
      else r.exact.high) = .number y ∧ r.low ≤ y ∧ y ≤ r.high := by
    intro x hlow
    simp only [Interval.exact, Exact.less_number, decide_eq_true_eq]
    by_cases hx : x < r.high
    · rw [if_pos hx]
      exact ⟨x, rfl, hlow, hx.le⟩
    · rw [if_neg hx]
      exact ⟨r.high, rfl, h.le, le_rfl⟩
  cases v with
  | undefined => exact hhigh r.low le_rfl
  | number x =>
      have hlow : (if Scalar.less r.exact.low (Exact.number x) then Exact.number x else r.exact.low) =
          .number (if r.low < x then x else r.low) := by
        simp only [Interval.exact, Exact.less_number, decide_eq_true_eq]
        split <;> rfl
      rw [Interval.clamp, hlow]
      refine hhigh _ ?_
      split
      · exact le_of_lt ‹_›
      · exact le_rfl

end Particles

/-- The point where a particle is. -/
def Particle.point {α : Type} (p : Particle α) : Point2 α := ⟨p.x, p.y⟩

namespace ParticleSystem

variable {s s' : ParticleSystem Exact} {p p' : Particle Exact} {ps ps' : List (Particle Exact)} {dt : Exact}
  {dt? : Option Exact} {n : Nat} {xRange yRange : Interval ℝ}

/-- The system moves its particles in this domain. -/
structure Walled (s : ParticleSystem Exact) (xRange yRange : Interval ℝ) : Prop where
  xWalls : s.physics.xRange = xRange.exact
  yWalls : s.physics.yRange = yRange.exact
  xLess : xRange.low < xRange.high
  yLess : yRange.low < yRange.high

theorem Walled.congr (hs : s.Walled xRange yRange) (h : s'.physics = s.physics) : s'.Walled xRange yRange :=
  ⟨h ▸ hs.xWalls, h ▸ hs.yWalls, hs.xLess, hs.yLess⟩

/-- A bounced particle is inside, or it is put there. -/
theorem Walled.recover_bounce (hs : s.Walled xRange yRange) (p : Particle Exact) :
    Density.InDomain xRange yRange (s.recover (s.bounce p)).1.point := by
  rw [recover]
  split
  · rename_i hfinite
    rw [Motion.isFinite, Bool.and_eq_true, Bool.and_eq_true, Bool.and_eq_true] at hfinite
    obtain ⟨⟨⟨hx, hy⟩, -⟩, -⟩ := hfinite
    simp only [bounce, bounceMotion, hs.xWalls, hs.yWalls] at hx hy
    refine ⟨?_, ?_⟩ <;> simp only [Particle.point, bounce, bounceMotion, hs.xWalls, hs.yWalls]
    · exact Interval.contains_bounceOff hs.xLess _ _ _ hx
    · exact Interval.contains_bounceOff hs.yLess _ _ _ hy
  · simp only [Particle.point, respawn, place, hs.xWalls, hs.yWalls]
    exact ⟨Interval.contains_clamp hs.xLess _, Interval.contains_clamp hs.yLess _⟩

theorem Walled.advance (hs : s.Walled xRange yRange) (h : s.advance p dt = ⟨p', s', none⟩) :
    Density.InDomain xRange yRange p'.point := by
  have hlaws := s.sameLaws_gradient p.x p.y
  obtain ⟨slope, s₁, q, hgradient, rfl, rfl, hmark⟩ := advance_ok h
  rw [hgradient] at hlaws
  obtain ⟨hmotion, -⟩ := mark_ok hmark
  rw [Particle.point, hmotion]
  exact (hs.congr hlaws.physics).recover_bounce _

theorem Walled.advanceAll (hs : s.Walled xRange yRange) (h : s.advanceAll dt ps = ⟨ps', s', none⟩) :
    ∀ p ∈ ps', Density.InDomain xRange yRange p.point := by
  induction ps generalizing s ps' with
  | nil =>
      rw [ParticleSystem.advanceAll] at h
      cases h
      simp
  | cons p ps ih =>
      obtain ⟨p', s₁, rest, hadvance, hrest, rfl⟩ := advanceAll_cons h
      have hlaws := s.sameLaws_advance p dt
      rw [hadvance] at hlaws
      exact List.forall_mem_cons.mpr ⟨hs.advance hadvance, ih (hs.congr hlaws.physics) hrest⟩

/-- After a run of at least one step all particles are in the domain. -/
theorem Walled.run (hs : s.Walled xRange yRange) (h : s.run ps dt? (n + 1) = ⟨ps', s', none⟩) :
    ∀ p ∈ ps', Density.InDomain xRange yRange p.point := by
  obtain ⟨ps₁, s₁, hrun, hstep⟩ := run_succ h
  exact (hs.congr (sameLaws_run hrun).physics).advanceAll hstep

theorem length_run (h : s.run ps dt? n = ⟨ps', s', none⟩) : ps'.length = ps.length := by
  induction n generalizing ps' s' with
  | zero =>
      rw [ParticleSystem.run] at h
      cases h
      rfl
  | succ n ih =>
      obtain ⟨ps₁, s₁, hrun, hstep⟩ := run_succ h
      exact (length_advanceAll hstep).trans (ih hrun)

end ParticleSystem

namespace Density

variable {xRange yRange : Interval ℝ} {cells : Nat}

/-- The counts as numbers. -/
noncomputable def numbers (rows : List (List Nat)) : List (List Exact) :=
  rows.map fun row => row.map fun n => Scalar.ofInt (Int.ofNat n)

/-- What the counts of points say. -/
structure Tallies (xRange yRange : Interval ℝ) (cells : Nat) (points : List (Point2 Exact))
    (rows : List (List Nat)) : Prop where
  /-- There is a count for each cell, and it tells how many points lie in it. -/
  count : ∀ j < cells, ∀ i < cells, (rows[j]?.bind (·[i]?)) =
    some (points.countP fun p => decide (InCell xRange yRange cells (j, i) p))
  square : rows.length = cells ∧ ∀ row ∈ rows, row.length = cells
  /-- The points of the domain are counted, except at an upper wall. -/
  total : Density.total rows + (points.countP fun p =>
    decide (InDomain xRange yRange p ∧ OnUpperWall xRange yRange p)) =
      points.countP fun p => decide (InDomain xRange yRange p)

theorem tallies_counts (hx : xRange.low < xRange.high) (hy : yRange.low < yRange.high) (hcells : 0 < cells)
    (points : List (Point2 Exact)) :
    Tallies xRange yRange cells points (counts points xRange.exact yRange.exact cells) where
  count j hj i hi := by
    rw [getElem?_counts points hj hi]
    refine congrArg some (List.countP_congr fun p _ => ?_)
    rw [beq_iff_eq, decide_eq_true_eq, cellOf?_exact hx hy]
  square := by simp [counts]
  total := by rw [total_exact hx hy hcells, countP_domain]

/-- Only points on an upper wall are missing from the counts. -/
theorem Tallies.total_iff {points : List (Point2 Exact)} {rows : List (List Nat)}
    (h : Tallies xRange yRange cells points rows) :
    Density.total rows = (points.countP fun p => decide (InDomain xRange yRange p)) ↔
      ∀ p ∈ points, InDomain xRange yRange p → ¬ OnUpperWall xRange yRange p := by
  have htotal := h.total
  have hmissing : (points.countP fun p => decide (InDomain xRange yRange p ∧ OnUpperWall xRange yRange p)) = 0 ↔
      ∀ p ∈ points, InDomain xRange yRange p → ¬ OnUpperWall xRange yRange p := by
    simp only [List.countP_eq_zero, decide_eq_true_eq, not_and]
  rw [← hmissing]
  omega

/-- Each point of the domain that is on no upper wall lies in one cell, and
is counted there; one on an upper wall is counted nowhere. So the counts
together are the number of the points of the domain exactly if none of them
is on an upper wall. The points where particles are after a step all lie in
the domain, but they may be on an upper wall. -/
theorem counts_domain (hx : xRange.low < xRange.high) (hy : yRange.low < yRange.high) (hcells : 0 < cells) :
    (∀ points : List (Point2 Exact), ∃ rows,
      ofPoints points xRange.exact yRange.exact cells = .ok (numbers rows) ∧
      Tallies xRange yRange cells points rows ∧
      (total rows = (points.countP fun p => decide (InDomain xRange yRange p)) ↔
        ∀ p ∈ points, InDomain xRange yRange p → ¬ OnUpperWall xRange yRange p)) ∧
    (∀ p, InDomain xRange yRange p → ¬ OnUpperWall xRange yRange p → ∃! c, InCell xRange yRange cells c p) ∧
    (∀ p c, InCell xRange yRange cells c p → InDomain xRange yRange p ∧ ¬ OnUpperWall xRange yRange p) ∧
    ∀ (s : ParticleSystem Exact) (ps : List (Particle Exact)) (dt? : Option Exact) (n : Nat),
      s.physics.xRange = xRange.exact → s.physics.yRange = yRange.exact →
      (s.run ps dt? (n + 1)).failure? = none →
      let points := (s.run ps dt? (n + 1)).result.map Particle.point
      points.length = ps.length ∧ (∀ p ∈ points, InDomain xRange yRange p) ∧ ∃ rows,
        ofPoints points xRange.exact yRange.exact cells = .ok (numbers rows) ∧
        (total rows = ps.length ↔ ∀ p ∈ points, ¬ OnUpperWall xRange yRange p) := by
  have hpoints : ∀ points : List (Point2 Exact), ∃ rows,
      ofPoints points xRange.exact yRange.exact cells = .ok (numbers rows) ∧
      Tallies xRange yRange cells points rows ∧
      (total rows = (points.countP fun p => decide (InDomain xRange yRange p)) ↔
        ∀ p ∈ points, InDomain xRange yRange p → ¬ OnUpperWall xRange yRange p) := by
    intro points
    have htallies := tallies_counts hx hy hcells points
    exact ⟨_, rfl, htallies, htallies.total_iff⟩
  refine ⟨hpoints, fun p hin hwall => ?_, fun p c hc => (exists_inCell hx hy hcells).mp ⟨c, hc⟩, ?_⟩
  · obtain ⟨c, hc⟩ := (exists_inCell hx hy hcells).mpr ⟨hin, hwall⟩
    exact ⟨c, hc, fun c' hc' => inCell_unique hx hy hc' hc⟩
  · intro s ps dt? n hxs hys hnone
    have hrun := Advanced.eq_of_failure? hnone
    have hwalled : s.Walled xRange yRange := ⟨hxs, hys, hx, hy⟩
    have hlength := ParticleSystem.length_run hrun
    have hin : ∀ p ∈ (s.run ps dt? (n + 1)).result.map Particle.point, InDomain xRange yRange p :=
      List.forall_mem_map.mpr (hwalled.run hrun)
    obtain ⟨rows, hrows, -, hiff⟩ := hpoints ((s.run ps dt? (n + 1)).result.map Particle.point)
    rw [List.countP_eq_length.mpr fun p hp => decide_eq_true (hin p hp), List.length_map, hlength] at hiff
    refine ⟨by rw [List.length_map, hlength], hin, rows, hrows, hiff.trans ⟨fun h p hp => ?_, fun h p hp _ => ?_⟩⟩
    · exact h p hp (hin p hp)
    · exact h p hp

/-- The square around the origin. -/
noncomputable def square : Interval ℝ := ⟨-1, 1⟩

/-- A system over a flat potential, where nothing slows particles down. -/
noncomputable def glide : ParticleSystem Exact :=
  .ofAnchors (fun _ _ => .ok (.number 0))
    { descent := ⟨.number 0, .number 0⟩, dt := .number 1, restitution := .number 1, h := .number 1,
      trailLength := 1, spawnRadius := (.number 0, .number 0), tangentialSpeed := .number 0,
      xRange := square.exact, yRange := square.exact } [] none (.ofList [.number 0])

/-- A particle on its way to the upper wall. -/
noncomputable def thrown : Particle Exact := .ofMotion 0 ⟨.number 0, .number 0, .number 1, .number 0⟩

theorem glide_gradient (x y : Exact) : glide.gradient x y = (.ok (.number 0, .number 0), glide) := by
  have hquotient : Potential.quotient (.number 0) (.number 0) (2 * Exact.number 1) = .ok (Exact.number 0) := by
    have hwidth : (2 * Exact.number 1) = Exact.number 2 := by
      show Exact.number (((2 : ℤ) : ℝ) * 1) = _
      norm_num
    rw [hwidth, Potential.quotient, Exact.zero_eq, Exact.equal_number, if_neg (by norm_num)]
    show Except.ok (Exact.ofOption (quotient? (0 - 0) 2)) = _
    rw [quotient?, if_neg (by norm_num)]
    norm_num [Exact.ofOption]
  show (Potential.gradient _ x y (Exact.number 1), glide) = _
  simp only [Potential.gradient, Bind.bind, Except.bind, glide, ParticleSystem.ofAnchors]
  rw [hquotient]
  rfl

theorem glide_run : (glide.run [thrown] none 1).failure? = none ∧
    (glide.run [thrown] none 1).result.map Particle.point = [⟨.number 1, .number 0⟩] := by
  have hmove : thrown.toMotion.step glide.physics.descent (.number 1) (.number 0, .number 0) =
      ⟨.number 1, .number 0, .number 1, .number 0⟩ := by
    show Motion.mk (Exact.number _) (Exact.number _) (Exact.number _) (Exact.number _) = _
    norm_num
  have hinside : ∀ x u : ℝ, -1 ≤ x → x ≤ 1 →
      ParticleSystem.bounceOff square.exact (.number 1) (.number x) (.number u) = (.number x, .number u) := by
    intro x u hlow hhigh
    rw [ParticleSystem.bounceOff]
    norm_num [square, Interval.exact, hlow.not_gt, hhigh.not_gt]
  have hbounce : ParticleSystem.bounceMotion glide.physics ⟨.number 1, .number 0, .number 1, .number 0⟩ =
      ⟨.number 1, .number 0, .number 1, .number 0⟩ := by
    show (let r := ParticleSystem.bounceOff square.exact (.number 1) (.number 1) (.number 1)
      let r' := ParticleSystem.bounceOff square.exact (.number 1) (.number 0) (.number 0)
      Motion.mk r.1 r'.1 r.2 r'.2) = _
    rw [hinside 1 1 (by norm_num) le_rfl, hinside 0 0 (by norm_num) (by norm_num)]
  have hadvance : ∃ t, glide.advance thrown (.number 1) = ⟨{ thrown with
      toMotion := ⟨.number 1, .number 0, .number 1, .number 0⟩, trail := t }, glide, none⟩ := by
    refine ⟨⟨some 1, [⟨.number 1, .number 0, .number 0⟩]⟩, ?_⟩
    rw [ParticleSystem.advance, glide_gradient]
    dsimp only [ParticleSystem.bounce]
    rw [hmove, hbounce]
    rfl
  obtain ⟨t, ht⟩ := hadvance
  have htime : glide.timeOf none = .number 1 := rfl
  rw [ParticleSystem.run, ParticleSystem.step, ParticleSystem.advanceAll, htime, ht]
  exact ⟨rfl, rfl⟩

/-- The point at the origin is counted in one cell, and the particle that
was thrown in none. -/
theorem counts_domain_glide : square.low < square.high ∧
    (∃! c, InCell square square 2 c ⟨.number 0, .number 0⟩) ∧
    (glide.run [thrown] none (0 + 1)).failure? = none ∧ ∃ rows,
      ofPoints ((glide.run [thrown] none (0 + 1)).result.map Particle.point) square.exact square.exact (2 : Nat) =
        .ok (numbers rows) ∧ total rows ≠ 1 := by
  have hless : square.low < square.high := by norm_num [square]
  obtain ⟨-, hcell, -, hsteps⟩ := counts_domain hless hless Nat.two_pos
  obtain ⟨hnone, hpoints⟩ := glide_run
  obtain ⟨-, -, rows, hrows, hiff⟩ := hsteps glide [thrown] none 0 rfl rfl hnone
  refine ⟨hless, hcell _ ?_ ?_, hnone, rows, hrows, fun hone => ?_⟩
  · exact ⟨Interval.contains_exact.mpr ⟨0, rfl, by norm_num [square], by norm_num [square]⟩,
      Interval.contains_exact.mpr ⟨0, rfl, by norm_num [square], by norm_num [square]⟩⟩
  · rintro (hwall | hwall) <;> norm_num [square] at hwall
  · rw [Nat.zero_add, hpoints] at hiff
    exact hiff.mp hone _ List.mem_cons_self (Or.inl rfl)

/-- A particle that a step has taken to the upper wall is in the domain,
but no cell counts it. -/
theorem not_counted_thrown : (glide.run [thrown] none 1).failure? = none ∧ ∃ points rows,
    points = (glide.run [thrown] none 1).result.map Particle.point ∧
    ofPoints points square.exact square.exact (2 : Nat) = .ok (numbers rows) ∧
    (points.countP fun p => decide (InDomain square square p)) = 1 ∧ total rows = 0 := by
  have hless : square.low < square.high := by norm_num [square]
  obtain ⟨hnone, hpoints⟩ := glide_run
  have hin : InDomain square square ⟨.number 1, .number 0⟩ :=
    ⟨Interval.contains_exact.mpr ⟨1, rfl, by norm_num [square], le_rfl⟩,
      Interval.contains_exact.mpr ⟨0, rfl, by norm_num [square], by norm_num [square]⟩⟩
  refine ⟨hnone, [⟨.number 1, .number 0⟩], _, hpoints.symm, rfl, ?_, ?_⟩
  · rw [List.countP_singleton, if_pos (decide_eq_true hin)]
  · refine (total_exact hless hless Nat.two_pos _).trans (List.countP_eq_zero.mpr ?_)
    rintro p (_ | ⟨_, ⟨⟩⟩) htrue
    exact (of_decide_eq_true htrue).2 (Or.inl rfl)

end Density
end FieldScript
