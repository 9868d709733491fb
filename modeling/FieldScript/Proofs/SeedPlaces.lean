import FieldScript.Streamline.Tracer
import FieldScript.Proofs.ArcLength
import FieldScript.Proofs.CriticalPoints
import FieldScript.Proofs.DensityCounts

/-!
# Where curves start

Seeds in exact arithmetic. Random numbers and the centers of cells are
shares of a range, so they lie inside; points of rings are kept only if they
do. A seed on the border is found by what is left of a length after each
side. A length that ends at a corner counts as the beginning of the next
side, so that each point of the border belongs to one side
(`Seed.OnSide`): different lengths of less than one round lead to different
points.
-/

namespace FieldScript

open Classical

/-- The point with real coordinates. -/
def Point2.real (x y : ℝ) : Point2 Exact := ⟨.number x, .number y⟩

theorem Density.inDomain_real {xRange yRange : Interval ℝ} {x y : ℝ} :
    InDomain xRange yRange (.real x y) ↔
      x ∈ Set.Icc xRange.low xRange.high ∧ y ∈ Set.Icc yRange.low yRange.high := by
  simp [InDomain, Point2.real, Interval.contains_exact]

namespace Interval

variable {r : Interval ℝ}

/-- The length of an interval. -/
def width (r : Interval ℝ) : ℝ := r.high - r.low

theorem span_exact (r : Interval ℝ) : r.exact.span = .number r.width := rfl

theorem width_pos (h : r.low < r.high) : 0 < r.width := sub_pos.mpr h

/-- The point at a share of the width. -/
def point (r : Interval ℝ) (t : ℝ) : ℝ := r.low + t * r.width

theorem point_mem (h : r.low < r.high) {t : ℝ} (hlow : 0 ≤ t) (hhigh : t ≤ 1) :
    r.point t ∈ Set.Icc r.low r.high := by
  have hwidth := width_pos h
  have hle : t * r.width ≤ 1 * r.width := mul_le_mul_of_nonneg_right hhigh hwidth.le
  have hnonneg : 0 ≤ t * r.width := mul_nonneg hlow hwidth.le
  have hend : r.low + r.width = r.high := add_sub_cancel _ _
  rw [point]
  constructor <;> linarith

theorem point_inj (h : r.low < r.high) {t t' : ℝ} : r.point t = r.point t' ↔ t = t' := by
  rw [point, point, add_right_inj, mul_left_inj' (width_pos h).ne']

end Interval

/-! ## Random numbers -/

namespace RandomSource

variable {s : RandomSource Exact}

/-- A number that is at least zero and less than one. -/
def IsShare (u : Exact) : Prop := ∃ x : ℝ, u = .number x ∧ 0 ≤ x ∧ x < 1

theorem isShare_half : IsShare Scalar.half :=
  ⟨1 / 2, Exact.half_eq, by norm_num, by norm_num⟩

theorem isShare_iff {u : Exact} : IsShare u ↔ Scalar.lessEq 0 u = true ∧ Scalar.less u 1 = true := by
  rw [Exact.zero_eq, Exact.one_eq]
  cases u with
  | undefined => simp [IsShare, Scalar.lessEq, Exact.test]
  | number x => simp [IsShare, Exact.lessEq_number]

theorem Unit.isShare_next (hs : s.Unit) : IsShare s.next.1 := by
  show IsShare ((s.numbers[s.position % s.numbers.size]?).getD Scalar.half)
  cases hat : s.numbers[s.position % s.numbers.size]? with
  | none => exact isShare_half
  | some u => exact isShare_iff.mpr (hs u (Array.mem_of_getElem? hat))

theorem Unit.take (hs : s.Unit) (n : Nat) :
    (s.take n).1.length = n ∧ (∀ u ∈ (s.take n).1, IsShare u) ∧ (s.take n).2.Unit := by
  induction n generalizing s with
  | zero => exact ⟨rfl, List.forall_mem_nil _, hs⟩
  | succ n ih =>
      obtain ⟨hlength, hshares, hrest⟩ := ih (s := s.next.2) hs
      exact ⟨congrArg (· + 1) hlength, List.forall_mem_cons.mpr ⟨hs.isShare_next, hshares⟩, hrest⟩

end RandomSource

namespace Seed

open Density RandomSource

section Domain

variable {xRange yRange : Interval ℝ} (hx : xRange.low < xRange.high) (hy : yRange.low < yRange.high)

include hx hy in
theorem inDomain_of_shares {u v : Exact} (hu : IsShare u) (hv : IsShare v) : InDomain xRange yRange
    ⟨xRange.exact.low + u * xRange.exact.span, yRange.exact.low + v * yRange.exact.span⟩ := by
  obtain ⟨t, rfl, hlow, hhigh⟩ := hu
  obtain ⟨t', rfl, hlow', hhigh'⟩ := hv
  exact inDomain_real.mpr ⟨Interval.point_mem hx hlow hhigh.le, Interval.point_mem hy hlow' hhigh'.le⟩

include hx hy in
theorem random_exact {source : RandomSource Exact} (hs : source.Unit) (count : Nat) :
    (random xRange.exact yRange.exact count source).1.length = count ∧
      ∀ p ∈ (random xRange.exact yRange.exact count source).1, InDomain xRange yRange p := by
  obtain ⟨hlength, hshares, hrest⟩ := hs.take count
  obtain ⟨hlength', hshares', -⟩ := hrest.take count
  rw [random]
  dsimp only
  refine ⟨by rw [List.length_zipWith, hlength, hlength', Nat.min_self], fun p hp => ?_⟩
  rw [← List.map_uncurry_zip_eq_zipWith] at hp
  obtain ⟨⟨u, v⟩, huv, rfl⟩ := List.mem_map.mp hp
  obtain ⟨hu, hv⟩ := List.of_mem_zip huv
  exact inDomain_of_shares hx hy (hshares u hu) (hshares' v hv)

/-! ## Cells -/

/-- The number of rows is the least one whose square is large enough. -/
theorem isLeast_latticeSide {count : Nat} (hcount : 1 ≤ count) :
    IsLeast {n : ℕ | count ≤ n * n} (latticeSide count) := by
  have hpos : ∀ {n : ℕ}, count ≤ n * n → 0 < n := fun h => Nat.pos_of_ne_zero (by rintro rfl; omega)
  rw [latticeSide]
  cases hfind : (List.range count).find? fun n => 0 < n && count ≤ n * n with
  | none =>
      rw [Option.getD_none, max_eq_right hcount]
      refine ⟨Nat.le_mul_self count, fun n hn => ?_⟩
      by_contra hlt
      have hnot := List.find?_eq_none.mp hfind n (List.mem_range.mpr (not_le.mp hlt))
      exact hnot (by simpa using ⟨hpos hn, hn⟩)
  | some n =>
      obtain ⟨hn, -, hbefore⟩ := List.find?_range_eq_some.mp hfind
      rw [Bool.and_eq_true, decide_eq_true_eq, decide_eq_true_eq] at hn
      refine ⟨hn.2, fun m hm => ?_⟩
      by_contra hlt
      have hnot := hbefore m (not_le.mp hlt)
      simp [hpos hm, show count ≤ m * m from hm] at hnot

variable {n : Nat}

theorem centers_exact (r : Interval ℝ) (hn : 0 < n) :
    centers r.exact n = (List.range n).map fun i => .number (r.point ((i + 1 / 2) / n)) := by
  refine List.map_congr_left fun i _ => ?_
  have hne : ((n : ℤ) : ℝ) ≠ 0 := by exact_mod_cast hn.ne'
  rw [Exact.half_eq, Exact.ofInt_eq, Exact.ofInt_eq, Interval.span_exact, Exact.number_add, Exact.number_mul,
    Exact.number_div _ hne]
  show Exact.number (r.low + _) = _
  rw [Interval.point, Int.cast_natCast, Int.cast_natCast]
  congr 1
  ring

theorem center_mem {r : Interval ℝ} (hr : r.low < r.high) {i : Nat} (hi : i < n) :
    r.point ((i + 1 / 2) / n) ∈ Set.Icc r.low r.high := by
  have hn : (0 : ℝ) < n := Nat.cast_pos.mpr (by omega)
  have hle : (i : ℝ) + 1 ≤ n := by exact_mod_cast hi
  exact Interval.point_mem hr (by positivity) ((div_le_one hn).mpr (by linarith))

theorem center_inj {r : Interval ℝ} (hr : r.low < r.high) (hn : 0 < n) {i i' : Nat}
    (h : r.point ((i + 1 / 2) / n) = r.point ((i' + 1 / 2) / n)) : i = i' := by
  have hn' : (n : ℝ) ≠ 0 := Nat.cast_ne_zero.mpr hn.ne'
  rw [Interval.point_inj hr, div_left_inj' hn', add_left_inj] at h
  exact_mod_cast h

include hx hy in
theorem lattice_exact {count : Nat} (hcount : 1 ≤ count) :
    let n := latticeSide count
    let seeds := lattice xRange.exact yRange.exact count
    seeds.length = n * n ∧ seeds.Nodup ∧ ∀ p ∈ seeds, InDomain xRange yRange p := by
  intro n seeds
  have hside : count ≤ n * n := (isLeast_latticeSide hcount).1
  have hn : 0 < n := Nat.pos_of_ne_zero fun hzero => by
    rw [hzero] at hside
    omega
  have hseeds : seeds = (places n).map fun c =>
      .real (xRange.point ((c.2 + 1 / 2) / n)) (yRange.point ((c.1 + 1 / 2) / n)) := by
    show (centers yRange.exact n).flatMap _ = _
    rw [centers_exact yRange hn, centers_exact xRange hn, List.flatMap_map, places_eq, List.map_flatMap]
    simp only [List.map_map, Function.comp_def, Point2.real]
  rw [hseeds]
  refine ⟨by simp [places, List.length_product], ?_, ?_⟩
  · have hnodup : (places n).Nodup := (pairwise_places n).imp ReadBefore.ne
    refine hnodup.map fun c c' h => ?_
    obtain ⟨hxs, hys⟩ := Point2.mk.inj h
    exact Prod.ext (center_inj hy hn (Exact.number.inj hys)) (center_inj hx hn (Exact.number.inj hxs))
  · intro p hp
    obtain ⟨c, hc, rfl⟩ := List.mem_map.mp hp
    obtain ⟨hj, hi⟩ := mem_places.mp hc
    exact inDomain_real.mpr ⟨center_mem hx hi, center_mem hy hj⟩

end Domain

/-! ## The border -/

section Border

/-- The point of the complex plane with these coordinates. -/
def inPlane (x y : ℝ) : ℂ := ⟨x, y⟩

/-- The corners of the domain, counter-clockwise from the lower left one and
back to it. -/
def corners (xRange yRange : Interval ℝ) : List ℂ :=
  [inPlane xRange.low yRange.low, inPlane xRange.high yRange.low, inPlane xRange.high yRange.high,
    inPlane xRange.low yRange.high, inPlane xRange.low yRange.low]

/-- The point belongs to a side of the domain, and this is the length of the
way to it. The end of a side belongs to the next one. -/
inductive OnSide (xRange yRange : Interval ℝ) : ℝ → ℝ → ℝ → Prop
  | bottom {t : ℝ} (hlow : 0 ≤ t) (hhigh : t < xRange.width) :
      OnSide xRange yRange t (xRange.low + t) yRange.low
  | right {t : ℝ} (hlow : 0 ≤ t) (hhigh : t < yRange.width) :
      OnSide xRange yRange (xRange.width + t) xRange.high (yRange.low + t)
  | top {t : ℝ} (hlow : 0 ≤ t) (hhigh : t < xRange.width) :
      OnSide xRange yRange (xRange.width + (yRange.width + t)) (xRange.high - t) yRange.high
  | left {t : ℝ} (hlow : 0 ≤ t) (hhigh : t < yRange.width) :
      OnSide xRange yRange (xRange.width + (yRange.width + (xRange.width + t))) xRange.low (yRange.high - t)

/-- The point is inside both ranges and at an end of one of them. -/
structure OnBorder (xRange yRange : Interval ℝ) (x y : ℝ) : Prop where
  inside : x ∈ Set.Icc xRange.low xRange.high ∧ y ∈ Set.Icc yRange.low yRange.high
  atEnd : x = xRange.low ∨ x = xRange.high ∨ y = yRange.low ∨ y = yRange.high

/-- So many seeds in different points of the border: the ends of equal shares
of the way around, beginning at the first corner. -/
structure EvenlyAround (xRange yRange : Interval ℝ) (count : Nat) (seeds : List (Point2 Exact)) : Prop where
  length : seeds.length = count
  distinct : seeds.Nodup
  place : ∀ k < count, ∃ x y, seeds[k]? = some (.real x y) ∧ OnBorder xRange yRange x y ∧
    ∀ p, AtLength (corners xRange yRange) (k * wholeLength (corners xRange yRange) / count) p ↔ p = inPlane x y

theorem EvenlyAround.inDomain {xRange yRange : Interval ℝ} {count : Nat} {seeds : List (Point2 Exact)}
    (h : EvenlyAround xRange yRange count seeds) : ∀ p ∈ seeds, InDomain xRange yRange p := by
  intro p hp
  obtain ⟨k, hk⟩ := List.mem_iff_getElem?.mp hp
  have hlt := (List.getElem?_eq_some_iff.mp hk).1
  obtain ⟨x, y, hxy, hborder, -⟩ := h.place k (h.length ▸ hlt)
  rw [Option.some.inj (hk.symm.trans hxy)]
  exact inDomain_real.mpr hborder.inside

variable {xRange yRange : Interval ℝ} {s s' x y : ℝ}

theorem OnSide.onBorder (hx : xRange.low < xRange.high) (hy : yRange.low < yRange.high)
    (h : OnSide xRange yRange s x y) : OnBorder xRange yRange x y := by
  have hxend : xRange.low + xRange.width = xRange.high := add_sub_cancel _ _
  have hyend : yRange.low + yRange.width = yRange.high := add_sub_cancel _ _
  cases h with
  | bottom => exact ⟨⟨by constructor <;> linarith, Set.left_mem_Icc.mpr hy.le⟩, Or.inr (Or.inr (Or.inl rfl))⟩
  | right => exact ⟨⟨Set.right_mem_Icc.mpr hx.le, by constructor <;> linarith⟩, Or.inr (Or.inl rfl)⟩
  | top => exact ⟨⟨by constructor <;> linarith, Set.right_mem_Icc.mpr hy.le⟩, Or.inr (Or.inr (Or.inr rfl))⟩
  | left => exact ⟨⟨Set.left_mem_Icc.mpr hx.le, by constructor <;> linarith⟩, Or.inl rfl⟩

/-- A point belongs to one side only, and at one length. -/
theorem OnSide.length_unique (hx : xRange.low < xRange.high) (hy : yRange.low < yRange.high)
    (h : OnSide xRange yRange s x y) (h' : OnSide xRange yRange s' x y) : s = s' := by
  have hxend : xRange.low + xRange.width = xRange.high := add_sub_cancel _ _
  have hyend : yRange.low + yRange.width = yRange.high := add_sub_cancel _ _
  generalize hX : x = x' at h'
  generalize hY : y = y' at h'
  cases h <;> cases h' <;> linarith

/-- A length of less than one round ends on a side. -/
theorem onBoundary_exact (hlow : 0 ≤ s) (hhigh : s < 2 * (xRange.width + yRange.width)) :
    ∃ x y, onBoundary xRange.exact yRange.exact (.number s) = .real x y ∧ OnSide xRange yRange s x y := by
  rw [onBoundary]
  simp only [Interval.span_exact, Exact.number_sub, Exact.less_number, decide_eq_true_eq]
  split_ifs with hbottom hright htop
  · exact ⟨_, _, rfl, .bottom hlow hbottom⟩
  · have hside : OnSide xRange yRange _ _ _ := .right (by linarith) hright
    refine ⟨_, _, rfl, ?_⟩
    convert hside using 1
    ring
  · have hside : OnSide xRange yRange _ _ _ := .top (by linarith) htop
    refine ⟨_, _, rfl, ?_⟩
    convert hside using 1
    ring
  · have hleft : s - xRange.width - yRange.width - xRange.width < yRange.width := by linarith
    have hside : OnSide xRange yRange _ _ _ := .left (by linarith) hleft
    refine ⟨_, _, rfl, ?_⟩
    convert hside using 1
    ring

/-! ### Lengths along the border -/

theorem dist_horizontal (x x' y : ℝ) : dist (inPlane x y) (inPlane x' y) = |x - x'| :=
  Complex.dist_of_im_eq rfl

theorem dist_vertical (x y y' : ℝ) : dist (inPlane x y) (inPlane x y') = |y - y'| :=
  Complex.dist_of_re_eq rfl

theorem lineMap_inPlane (x x' y y' t : ℝ) : AffineMap.lineMap (inPlane x y) (inPlane x' y') t =
    inPlane (x + t * (x' - x)) (y + t * (y' - y)) := by
  apply Complex.ext <;> simp [AffineMap.lineMap_apply, inPlane, add_comm]

/-- On the first piece a length leads on in the direction of its end. -/
theorem atLength_piece {x' y' d t u v : ℝ} {rest : List ℂ}
    (hd : dist (inPlane x y) (inPlane x' y') = d) (hlow : 0 ≤ t) (hhigh : t < d)
    (hu : d * (u - x) = t * (x' - x)) (hv : d * (v - y) = t * (y' - y)) :
    AtLength (inPlane x y :: inPlane x' y' :: rest) t (inPlane u v) := by
  have hpos : 0 < d := hlow.trans_lt hhigh
  have hon : AtLength (inPlane x y :: inPlane x' y' :: rest) _ _ :=
    .onFirst (div_nonneg hlow hpos.le) ((div_le_one hpos).mpr hhigh.le)
  have hx : x + t / d * (x' - x) = u := by
    rw [div_mul_eq_mul_div, ← hu, mul_div_cancel_left₀ _ hpos.ne', add_sub_cancel]
  have hy : y + t / d * (y' - y) = v := by
    rw [div_mul_eq_mul_div, ← hv, mul_div_cancel_left₀ _ hpos.ne', add_sub_cancel]
  rwa [hd, div_mul_cancel₀ _ hpos.ne', lineMap_inPlane, hx, hy] at hon

theorem atLength_further {x y x' y' d : ℝ} {rest : List ℂ}
    {p : ℂ} (hd : dist (inPlane x y) (inPlane x' y') = d)
    (h : AtLength (inPlane x' y' :: rest) s p) : AtLength (inPlane x y :: inPlane x' y' :: rest) (d + s) p :=
  hd ▸ h.further

section Sides

variable (hx : xRange.low < xRange.high) (hy : yRange.low < yRange.high)

include hx in
theorem dist_bottom (y : ℝ) : dist (inPlane xRange.low y) (inPlane xRange.high y) = xRange.width := by
  rw [dist_horizontal, abs_sub_comm, abs_of_pos (sub_pos.mpr hx), Interval.width]

include hy in
theorem dist_right (x : ℝ) : dist (inPlane x yRange.low) (inPlane x yRange.high) = yRange.width := by
  rw [dist_vertical, abs_sub_comm, abs_of_pos (sub_pos.mpr hy), Interval.width]

include hx hy

theorem wholeLength_corners : wholeLength (corners xRange yRange) = 2 * (xRange.width + yRange.width) := by
  simp only [corners, wholeLength, dist_bottom hx, dist_right hy, dist_comm (inPlane xRange.high _),
    dist_comm (inPlane xRange.low yRange.high)]
  ring

/-- The length at which a point belongs to a side is that of the way along the border. -/
theorem OnSide.atLength (h : OnSide xRange yRange s x y) : AtLength (corners xRange yRange) s (inPlane x y) := by
  have hbottom := dist_bottom hx yRange.low
  have hright := dist_right hy xRange.high
  have htop := (dist_comm _ _).trans (dist_bottom hx yRange.high)
  have hleft := (dist_comm _ _).trans (dist_right hy xRange.low)
  rw [corners]
  cases h with
  | bottom hlow hhigh =>
      refine atLength_piece hbottom hlow hhigh ?_ ?_ <;> rw [Interval.width] <;> ring
  | right hlow hhigh =>
      refine atLength_further hbottom (atLength_piece hright hlow hhigh ?_ ?_) <;> rw [Interval.width] <;> ring
  | top hlow hhigh =>
      refine atLength_further hbottom (atLength_further hright (atLength_piece htop hlow hhigh ?_ ?_)) <;>
        rw [Interval.width] <;> ring
  | left hlow hhigh =>
      refine atLength_further hbottom (atLength_further hright (atLength_further htop
        (atLength_piece hleft hlow hhigh ?_ ?_))) <;> rw [Interval.width] <;> ring

theorem wholeLength_corners_pos : 0 < wholeLength (corners xRange yRange) := by
  rw [wholeLength_corners hx hy]
  exact mul_pos two_pos (add_pos (Interval.width_pos hx) (Interval.width_pos hy))

/-- Each seed is on a side, a share of the way around from the first corner. -/
theorem exists_onSide_boundary {count k : Nat} (hk : k < count) :
    ∃ x y, (boundary xRange.exact yRange.exact count)[k]? = some (.real x y) ∧
      OnSide xRange yRange (k * wholeLength (corners xRange yRange) / count) x y := by
  have hpos : (0 : ℝ) < count := Nat.cast_pos.mpr (by omega)
  have hround := wholeLength_corners_pos hx hy
  have hlow : 0 ≤ k * wholeLength (corners xRange yRange) / count := by positivity
  have hhigh : k * wholeLength (corners xRange yRange) / count < wholeLength (corners xRange yRange) := by
    rw [div_lt_iff₀ hpos, mul_comm]
    exact mul_lt_mul_of_pos_left (Nat.cast_lt.mpr hk) hround
  obtain ⟨x, y, hxy, hside⟩ := onBoundary_exact hlow (hhigh.trans_eq (wholeLength_corners hx hy))
  refine ⟨x, y, ?_, hside⟩
  have htwo : (2 : Exact) = .number 2 := Exact.ofNat_eq 2
  have hcount : (Scalar.ofInt ((max count 1 : Nat) : Int) : Exact) = .number count := by
    rw [max_eq_left (by omega), Exact.ofInt_eq, Int.cast_natCast]
  have hlength : Scalar.ofInt (k : Int) * (2 * (xRange.exact.span + yRange.exact.span)) /
      Scalar.ofInt ((max count 1 : Nat) : Int) = Exact.number (k * wholeLength (corners xRange yRange) / count) := by
    rw [hcount, htwo, Interval.span_exact, Interval.span_exact, Exact.ofInt_eq, Exact.number_add, Exact.number_mul,
      Exact.number_mul, Exact.number_div _ hpos.ne', Int.cast_natCast, wholeLength_corners hx hy]
  rw [boundary, List.getElem?_map, List.getElem?_range hk, Option.map_some, hlength, hxy]

/-- Different shares of the way around end in different points. -/
theorem nodup_boundary (count : Nat) : (boundary xRange.exact yRange.exact count).Nodup := by
  have hlength : (boundary xRange.exact yRange.exact count).length = count := by simp [boundary]
  refine List.nodup_iff_getElem?_ne_getElem?.mpr fun i j hij hj heq => ?_
  rw [hlength] at hj
  obtain ⟨x, y, hi, hside⟩ := exists_onSide_boundary hx hy (hij.trans hj)
  obtain ⟨x', y', hj', hside'⟩ := exists_onSide_boundary hx hy hj
  obtain ⟨hxx, hyy⟩ := Point2.mk.inj (Option.some.inj (hi.symm.trans (heq.trans hj')))
  obtain rfl := Exact.number.inj hxx
  obtain rfl := Exact.number.inj hyy
  have hcount : (count : ℝ) ≠ 0 := Nat.cast_ne_zero.mpr (by omega)
  have hsame := hside.length_unique hx hy hside'
  rw [div_left_inj' hcount, mul_left_inj' (wholeLength_corners_pos hx hy).ne', Nat.cast_inj] at hsame
  omega

theorem evenlyAround_boundary (count : Nat) :
    EvenlyAround xRange yRange count (boundary xRange.exact yRange.exact count) where
  length := by simp [boundary]
  distinct := nodup_boundary hx hy count
  place k hk := by
    obtain ⟨x, y, hat, hside⟩ := exists_onSide_boundary hx hy hk
    refine ⟨x, y, hat, hside.onBorder hx hy, fun p => ?_⟩
    constructor
    · exact fun hp => hp.unique (hside.atLength hx hy)
    · rintro rfl
      exact hside.atLength hx hy

end Sides

end Border

end Seed

/-! ## Strategies -/

namespace SeedStrategy

variable {name : String} {s : SeedStrategy}

theorem ofName_name (s : SeedStrategy) : ofName s.name = .ok s := by
  cases s <;> rfl

theorem eq_name_of_ofName (h : ofName name = .ok s) : name = s.name := by
  rw [ofName] at h
  cases hfind : all.find? fun s => s.name == name with
  | none =>
      rw [hfind] at h
      cases h
  | some found =>
      rw [hfind] at h
      have hsame : (found.name == name) = true := by
        simpa using List.find?_some hfind
      rw [← Except.ok.inj h, beq_iff_eq.mp hsame]

end SeedStrategy

namespace Tracer

open Seed Density

section Strategies

variable {α : Type} [Scalar α] {t t' : Tracer α} {name : String} {count : Nat} {seeds : List (Point2 α)}

/-- What the strategies do. -/
theorem seeds_name (t : Tracer α) (s : SeedStrategy) (count : Nat) : t.seeds s.name (count : Int) = match s with
    | .random => .ok ((Seed.random t.xRange t.yRange count t.random).1,
        { t with random := (Seed.random t.xRange t.yRange count t.random).2 })
    | .grid => .ok (lattice t.xRange t.yRange count, t)
    | .criticalPoint => t.criticalSeeds >>= fun ps => .ok (ps, t)
    | .boundary => .ok (boundary t.xRange t.yRange count, t) := by
  rw [Tracer.seeds, SeedStrategy.ofName_name]
  cases s with
  | random => rfl
  | grid =>
      have hcount : ¬ (count : Int) < 0 := by omega
      simp [hcount, bind, Except.bind, pure, Except.pure]
  | criticalPoint => rfl
  | boundary => rfl

/-- Seeds have a strategy. -/
theorem exists_strategy (h : t.seeds name (count : Int) = .ok (seeds, t')) : ∃ s : SeedStrategy, name = s.name := by
  obtain ⟨s, hs, -⟩ := bind_eq_ok.mp h
  exact ⟨s, SeedStrategy.eq_name_of_ofName hs⟩

theorem criticalSeeds_eq_ok_iff : t.criticalSeeds = .ok seeds ↔ 0 ≤ t.settings.ringPoints ∧ ∃ centers,
    criticalPoints t.flow t.xRange t.yRange t.settings.scanResolution t.settings.criticalTolerance = .ok centers ∧
    seeds = centers.flatMap (ring t.xRange t.yRange t.settings.ringRadius t.settings.ringPoints.toNat) := by
  rw [criticalSeeds, bind_eq_ok]
  by_cases hpoints : t.settings.ringPoints < 0
  · simp [hpoints, not_le.mpr hpoints, throw, throwThe, MonadExceptOf.throw, bind, Except.bind]
  · simp [hpoints, not_lt.mp hpoints, pure, Except.pure, eq_comm]

/-- The scan for critical points is what can fail. -/
theorem exists_criticalSeeds_iff : (∃ seeds, t.criticalSeeds = .ok seeds) ↔ 0 ≤ t.settings.ringPoints ∧
    0 ≤ t.settings.scanResolution ∧ AnswersOn t.flow t.xRange t.yRange t.settings.scanResolution.toNat := by
  rw [← exists_criticalPoints_iff _ _ _ _ t.settings.criticalTolerance]
  constructor
  · rintro ⟨seeds, h⟩
    obtain ⟨hpoints, centers, hcenters, -⟩ := criticalSeeds_eq_ok_iff.mp h
    exact ⟨hpoints, centers, hcenters⟩
  · rintro ⟨hpoints, centers, hcenters⟩
    exact ⟨_, criticalSeeds_eq_ok_iff.mpr ⟨hpoints, centers, hcenters, rfl⟩⟩

end Strategies

section Exactly

variable {t t' : Tracer Exact} {xRange yRange : Interval ℝ} {name : String} {count : Nat}
  {seeds : List (Point2 Exact)}

/-- The tracer has this domain, and a source of random numbers from zero to one. -/
structure Over (t : Tracer Exact) (xRange yRange : Interval ℝ) : Prop where
  xBounds : t.xRange = xRange.exact
  yBounds : t.yRange = yRange.exact
  xLess : xRange.low < xRange.high
  yLess : yRange.low < yRange.high
  random : t.random.Unit

theorem inDomain_of_mem_ring {radius : Exact} {points : Nat} {center p : Point2 Exact}
    (hp : p ∈ ring xRange.exact yRange.exact radius points center) : InDomain xRange yRange p := by
  have hinside := (List.mem_filter.mp hp).2
  rwa [Bool.and_eq_true] at hinside

/-- The seeds of any strategy are inside the domain. -/
theorem Over.inDomain (ht : t.Over xRange yRange) (hcount : 1 ≤ count)
    (h : t.seeds name (count : Int) = .ok (seeds, t')) : ∀ p ∈ seeds, InDomain xRange yRange p := by
  obtain ⟨s, rfl⟩ := exists_strategy h
  rw [seeds_name, ht.xBounds, ht.yBounds] at h
  cases s with
  | random =>
      obtain ⟨rfl, -⟩ := Prod.mk.inj (Except.ok.inj h)
      exact (random_exact ht.xLess ht.yLess ht.random count).2
  | grid =>
      obtain ⟨rfl, -⟩ := Prod.mk.inj (Except.ok.inj h)
      exact (lattice_exact ht.xLess ht.yLess hcount).2.2
  | boundary =>
      obtain ⟨rfl, -⟩ := Prod.mk.inj (Except.ok.inj h)
      exact (evenlyAround_boundary ht.xLess ht.yLess count).inDomain
  | criticalPoint =>
      obtain ⟨ps, hps, hseeds⟩ := bind_eq_ok.mp h
      obtain ⟨rfl, -⟩ := Prod.mk.inj (Except.ok.inj hseeds)
      obtain ⟨-, centers, -, rfl⟩ := criticalSeeds_eq_ok_iff.mp hps
      intro p hp
      obtain ⟨center, -, hp⟩ := List.mem_flatMap.mp hp
      rw [ht.xBounds, ht.yBounds] at hp
      exact inDomain_of_mem_ring hp

/-- Seeds in exact arithmetic, over any domain and for any positive count.
Whatever the strategy, they are inside the domain. Random ones and those on
the border are as many as are asked for, and those on the border divide the
way around it into equal parts. The cells are those of the least square that
has enough of them. The search for critical points needs a flow with a
direction wherever it looks. -/
theorem seeds_placed (ht : t.Over xRange yRange) (hcount : 1 ≤ count) :
    (∀ name seeds t', t.seeds name (count : Int) = .ok (seeds, t') → ∀ p ∈ seeds, InDomain xRange yRange p) ∧
    (∃ seeds t', t.seeds SeedStrategy.random.name (count : Int) = .ok (seeds, t') ∧ seeds.length = count) ∧
    (∃ n seeds, t.seeds SeedStrategy.grid.name (count : Int) = .ok (seeds, t) ∧
      IsLeast {n : ℕ | count ≤ n * n} n ∧ seeds.length = n * n ∧ seeds.Nodup) ∧
    (∃ seeds, t.seeds SeedStrategy.boundary.name (count : Int) = .ok (seeds, t) ∧
      EvenlyAround xRange yRange count seeds) ∧
    ((∃ seeds t', t.seeds SeedStrategy.criticalPoint.name (count : Int) = .ok (seeds, t')) ↔
      0 ≤ t.settings.ringPoints ∧ 0 ≤ t.settings.scanResolution ∧
        AnswersOn t.flow t.xRange t.yRange t.settings.scanResolution.toNat) := by
  refine ⟨fun _ _ _ h => ht.inDomain hcount h, ?_, ?_, ?_, ?_⟩
  · refine ⟨_, _, seeds_name t .random count, ?_⟩
    rw [ht.xBounds, ht.yBounds]
    exact (random_exact ht.xLess ht.yLess ht.random count).1
  · refine ⟨latticeSide count, _, seeds_name t .grid count, isLeast_latticeSide hcount, ?_⟩
    rw [ht.xBounds, ht.yBounds]
    obtain ⟨hlength, hnodup, -⟩ := lattice_exact ht.xLess ht.yLess hcount
    exact ⟨hlength, hnodup⟩
  · refine ⟨_, seeds_name t .boundary count, ?_⟩
    rw [ht.xBounds, ht.yBounds]
    exact evenlyAround_boundary ht.xLess ht.yLess count
  · rw [← exists_criticalSeeds_iff, seeds_name]
    constructor
    · rintro ⟨seeds, t', h⟩
      obtain ⟨ps, hps, -⟩ := bind_eq_ok.mp h
      exact ⟨ps, hps⟩
    · rintro ⟨seeds, h⟩
      exact ⟨seeds, t, bind_eq_ok.mpr ⟨seeds, h, rfl⟩⟩

/-- A tracer over a square, along a flow away from the origin. -/
noncomputable def outwards : Tracer Exact where
  flow x y := .ok (x, y)
  xRange := square.exact
  yRange := square.exact
  settings := TracerSettings.standard
  height := none
  random := .constant

/-- Five seeds: in nine cells, or from the lower left corner around the square. -/
theorem seeds_placed_outwards : outwards.Over square square ∧
    (∃ seeds t', outwards.seeds "random" 5 = .ok (seeds, t') ∧ seeds.length = 5) ∧
    (∃ seeds, outwards.seeds "grid" 5 = .ok (seeds, outwards) ∧ seeds.length = 9) ∧
    (∃ seeds, outwards.seeds "boundary" 5 = .ok (seeds, outwards) ∧ seeds.length = 5 ∧
      seeds[0]? = some (.real (-1) (-1))) ∧
    ∃ seeds t', outwards.seeds "critical-point" 5 = .ok (seeds, t') ∧
      ∀ p ∈ seeds, InDomain square square p := by
  have hover : outwards.Over square square := by
    refine ⟨rfl, rfl, by norm_num [square], by norm_num [square], fun u hu => ?_⟩
    obtain rfl : u = Scalar.half := by simpa [outwards, RandomSource.constant, RandomSource.ofList] using hu
    exact RandomSource.isShare_iff.mp RandomSource.isShare_half
  obtain ⟨hinside, hrandom, ⟨n, cells, hcells, hleast, hlength, -⟩, ⟨border, hborder, haround⟩, hcritical⟩ :=
    seeds_placed hover (by norm_num : 1 ≤ 5)
  refine ⟨hover, hrandom, ⟨cells, hcells, ?_⟩, ⟨border, hborder, haround.length, ?_⟩, ?_⟩
  · have hthree : IsLeast {n : ℕ | 5 ≤ n * n} 3 := ⟨by norm_num, fun m (hm : 5 ≤ m * m) => by
      by_contra hlt
      interval_cases m <;> omega⟩
    rw [hlength, hleast.unique hthree]
  · obtain ⟨x, y, hat, -, hplace⟩ := haround.place 0 (by norm_num)
    have hfirst : AtLength (corners square square) 0 (inPlane square.low square.low) := by
      simpa [corners] using AtLength.onFirst (a := inPlane square.low square.low)
        (b := inPlane square.high square.low) le_rfl zero_le_one
    rw [Nat.cast_zero, zero_mul, zero_div] at hplace
    obtain ⟨rfl, rfl⟩ := Complex.mk.inj ((hplace _).mp hfirst)
    exact hat
  · obtain ⟨seeds, t', hseeds⟩ := hcritical.mpr ⟨by decide, by decide, fun c _ => ⟨_, rfl⟩⟩
    exact ⟨seeds, t', hseeds, hinside _ _ _ hseeds⟩

end Exactly

end Tracer
end FieldScript
