import FieldScript.Proofs.DensityCounts
import FieldScript.Proofs.SquareTables

/-!
# Fluxes over time

A flux keeps one number for each cell of its grid and moves it, at each look
at the points, by a share of its difference from the count of the cell. In
exact arithmetic the number is therefore a mean of the counts that were
seen, in which a count weighs the less the older it is (`Flux.faded`): that
is an invariant of the update (`Flux.update_exact`), and all looks together
follow by induction (`Flux.foldl_update`). Means are not negative, and the
means of all cells together are no more than the most points of a look.

What is shown of a number depends on it alone, by a scale that is zero up to
the floor and rises to one (`Flux.Scale`).
-/

namespace FieldScript

open Classical

namespace Density

/-- How many of the points lie in a cell. -/
noncomputable def hits (xRange yRange : Interval ℝ) (cells : Nat) (c : Nat × Nat)
    (points : List (Point2 Exact)) : Nat :=
  points.countP fun p => decide (InCell xRange yRange cells c p)

section Hits

variable {xRange yRange : Interval ℝ} (hx : xRange.low < xRange.high) (hy : yRange.low < yRange.high)
  (cells : Nat) (points : List (Point2 Exact))
include hx hy

theorem counts_exact : counts points xRange.exact yRange.exact cells =
    table cells fun c => hits xRange yRange cells c points := by
  refine List.map_congr_left fun j _ => List.map_congr_left fun i _ => ?_
  refine ((count_columns _ j i).trans (List.count_filterMap ..)).trans (List.countP_congr fun p _ => ?_)
  rw [beq_iff_eq, decide_eq_true_eq, cellOf?_exact hx hy]

/-- No point lies in two cells. -/
theorem sum_hits_le : ∑ j ∈ Finset.range cells, ∑ i ∈ Finset.range cells,
    (hits xRange yRange cells (j, i) points : ℝ) ≤ points.length := by
  have htotal : total (counts points xRange.exact yRange.exact cells) ≤ points.length :=
    (total_counts points).trans_le List.countP_le_length
  rw [counts_exact hx hy, total, table, List.map_map] at htotal
  exact_mod_cast htotal

end Hits
end Density

namespace Flux

open Density

/-! ## Means -/

/-- The mean of the counts in which each new one enters with the share `s`:
the older a count is, the less it weighs. -/
noncomputable def faded (s : ℝ) (counts : List Nat) : ℝ :=
  ∑ k ∈ Finset.range counts.length, s * (1 - s) ^ (counts.length - (k + 1)) * counts.getD k 0

theorem faded_nil (s : ℝ) : faded s [] = 0 := Finset.sum_range_zero _

theorem faded_concat (s : ℝ) (counts : List Nat) (n : Nat) :
    faded s (counts ++ [n]) = faded s counts + (n - faded s counts) * s := by
  have hold : ∀ k ∈ Finset.range counts.length,
      s * (1 - s) ^ (counts.length + 1 - (k + 1)) * ((counts ++ [n]).getD k 0 : Nat) =
        (1 - s) * (s * (1 - s) ^ (counts.length - (k + 1)) * (counts.getD k 0 : Nat)) := by
    intro k hk
    have hlt : k < counts.length := Finset.mem_range.mp hk
    rw [List.getD_append _ _ _ _ hlt, Nat.succ_sub hlt, pow_succ]
    ring
  have hnew : (counts ++ [n]).getD counts.length 0 = n := by
    simp [List.getD_eq_getElem?_getD]
  rw [faded, List.length_append, List.length_singleton, Finset.sum_range_succ, Finset.sum_congr rfl hold,
    ← Finset.mul_sum, hnew, Nat.sub_self, pow_zero, faded]
  ring

theorem faded_nonneg {s : ℝ} (hs : s ∈ Set.Icc 0 1) (counts : List Nat) : 0 ≤ faded s counts := by
  have hrest : 0 ≤ 1 - s := sub_nonneg.mpr hs.2
  exact Finset.sum_nonneg fun k _ =>
    mul_nonneg (mul_nonneg hs.1 (pow_nonneg hrest _)) (Nat.cast_nonneg _)

/-! ## Looks at points -/

/-- A flux in exact arithmetic. -/
noncomputable def exact (xRange yRange : Interval ℝ) (cells : Nat) (smoothing floor : ℝ)
    (level : Nat × Nat → ℝ) : Flux Exact :=
  ⟨xRange.exact, yRange.exact, cells, .number smoothing, .number floor, table cells fun c => .number (level c)⟩

section Looks

variable {xRange yRange : Interval ℝ} (hx : xRange.low < xRange.high) (hy : yRange.low < yRange.high)
  (cells : Nat) (s floor : ℝ)

theorem empty_exact : empty xRange.exact yRange.exact cells (.number s) (.number floor) =
    exact xRange yRange cells s floor fun _ => 0 := by
  rw [empty, exact, table, List.map_const', List.map_const', List.length_range, Exact.zero_eq]

include hx hy

/-- A look moves each number towards the count of its cell. -/
theorem update_exact (level : Nat × Nat → ℝ) (points : List (Point2 Exact)) :
    (exact xRange yRange cells s floor level).update points = exact xRange yRange cells s floor fun c =>
      level c + (hits xRange yRange cells c points - level c) * s := by
  rw [update]
  dsimp only [exact]
  rw [counts_exact hx hy, zipWith_table]
  rfl

/-- After all looks each number is a mean of the counts of its cell. -/
theorem foldl_update (looks : List (List (Point2 Exact))) :
    looks.foldl update (exact xRange yRange cells s floor fun _ => 0) =
      exact xRange yRange cells s floor fun c => faded s (looks.map (hits xRange yRange cells c)) := by
  induction looks using List.reverseRecOn with
  | nil => simp only [List.foldl_nil, List.map_nil, faded_nil]
  | append_singleton looks points ih =>
      rw [List.foldl_concat, ih, update_exact hx hy]
      simp only [List.map_append, List.map_singleton, faded_concat]

/-- All means together are no more than the points of a look. -/
theorem sum_faded_le (hs : s ∈ Set.Icc 0 1) {looks : List (List (Point2 Exact))} {m : Nat}
    (hm : ∀ points ∈ looks, points.length ≤ m) : ∑ j ∈ Finset.range cells, ∑ i ∈ Finset.range cells,
      faded s (looks.map (hits xRange yRange cells (j, i))) ≤ m := by
  induction looks using List.reverseRecOn with
  | nil =>
      simp only [List.map_nil, faded_nil, Finset.sum_const_zero]
      exact Nat.cast_nonneg m
  | append_singleton looks points ih =>
      have hold := ih fun points hpoints => hm points (List.mem_append_left _ hpoints)
      have hnew : ∑ j ∈ Finset.range cells, ∑ i ∈ Finset.range cells,
          (hits xRange yRange cells (j, i) points : ℝ) ≤ m :=
        (sum_hits_le hx hy cells points).trans (Nat.cast_le.mpr (hm points (by simp)))
      simp only [List.map_append, List.map_singleton, faded_concat, Finset.sum_add_distrib,
        ← Finset.sum_mul, Finset.sum_sub_distrib]
      -- The total is a mean of the old total and of the new counts.
      nlinarith [hs.1, hs.2]

end Looks

/-! ## Intensities -/

/-- A scale for numbers from zero to one: zero up to the floor and only
there, and never less for a larger number. -/
structure Scale (floor : ℝ) (shade : ℝ → ℝ) : Prop where
  unit : ∀ v, shade v ∈ Set.Icc 0 1
  zero : ∀ v, shade v = 0 ↔ v ≤ floor
  mono : Monotone shade

/-- How far a number is from the floor to the top, and one from there on. -/
noncomputable def height (floor top v : ℝ) : ℝ := min (max ((v - floor) / (top - floor)) 0) 1

/-- What is shown brightest. -/
def brightest (count : Int) : ℚ := max 40 (count / 2)

/-- The intensity of a number. -/
noncomputable def shade (floor top v : ℝ) : ℝ :=
  if floor < v then height floor top v ^ ((3 / 4 : ℚ) : ℝ) else 0

section Shades

variable {floor top v w : ℝ}

theorem height_mem (floor top v : ℝ) : height floor top v ∈ Set.Icc 0 1 :=
  ⟨le_min (le_max_right _ _) zero_le_one, min_le_right _ _⟩

theorem height_pos (htop : floor < top) (hv : floor < v) : 0 < height floor top v :=
  lt_min (lt_max_of_lt_left (div_pos (sub_pos.mpr hv) (sub_pos.mpr htop))) zero_lt_one

theorem height_mono (htop : floor < top) (h : v ≤ w) : height floor top v ≤ height floor top w := by
  have hspan : 0 < top - floor := sub_pos.mpr htop
  rw [height, height]
  gcongr

theorem scale_shade (htop : floor < top) : Scale floor (shade floor top) where
  unit v := by
    obtain ⟨hlow, hhigh⟩ := height_mem floor top v
    rw [shade]
    split
    · exact ⟨Real.rpow_nonneg hlow _, Real.rpow_le_one hlow hhigh (by norm_num)⟩
    · exact ⟨le_rfl, zero_le_one⟩
  zero v := by
    rw [shade]
    split <;> rename_i hv
    · have hpos := Real.rpow_pos_of_pos (height_pos htop hv) ((3 / 4 : ℚ) : ℝ)
      exact ⟨fun h => absurd h hpos.ne', fun h => absurd hv h.not_gt⟩
    · exact ⟨fun _ => not_lt.mp hv, fun _ => rfl⟩
  mono v w hle := by
    have hlow := (height_mem floor top w).1
    by_cases hv : floor < v
    · rw [shade, shade, if_pos hv, if_pos (hv.trans_le hle)]
      exact Real.rpow_le_rpow (height_mem floor top v).1 (height_mono htop hle) (by norm_num)
    · rw [shade, if_neg hv, shade]
      split
      · exact Real.rpow_nonneg hlow _
      · exact le_rfl

theorem ceiling_exact (count : Int) : (ceiling count : Exact) = .number (brightest count) := by
  have hhalf : (Scalar.ofInt count * Scalar.half : Exact) = .number (count / 2) := by
    rw [Exact.half_eq, Exact.ofInt_eq, Exact.number_mul, mul_one_div]
  have hforty : (40 : Exact) = .number 40 := Exact.ofNat_eq 40
  have htop : ((brightest count : ℚ) : ℝ) = max 40 ((count : ℝ) / 2) := by
    rw [brightest]
    push_cast
    rfl
  rw [ceiling, hhalf, hforty, Exact.less_number, htop]
  by_cases h : (40 : ℝ) < count / 2
  · rw [if_pos (decide_eq_true h), max_eq_right h.le]
  · rw [if_neg (by rwa [decide_eq_true_eq]), max_eq_left (not_lt.mp h)]

theorem intensity_exact {f : Flux Exact} {count : Int} (hf : f.floor = .number floor)
    (htop : floor < brightest count) (v : ℝ) :
    f.intensity count (.number v) = .number (shade floor (brightest count) v) := by
  rw [intensity, hf, ceiling_exact, shade]
  by_cases hv : floor < v
  · have hspan : brightest count - floor ≠ 0 := (sub_pos.mpr htop).ne'
    have hpower : power? (height floor (brightest count) v) (3 / 4 : ℚ) =
        some (height floor (brightest count) v ^ ((3 / 4 : ℚ) : ℝ)) := power?_of_pos (height_pos htop hv) _
    have hquotient : mkRat 3 4 = 3 / 4 := by norm_num
    have hexponent : (Scalar.ofRat (mkRat 3 4) : Exact) = .number (3 / 4 : ℚ) :=
      congrArg (fun q : ℚ => Exact.number q) hquotient
    have hless : Scalar.less (Exact.number floor) (.number v) = true := decide_eq_true hv
    rw [if_pos hless, if_pos hv]
    dsimp only
    rw [Exact.number_sub, Exact.number_sub, Exact.number_div _ hspan, Exact.zero_eq, Exact.one_eq, hexponent]
    show Exact.ofOption (power? (height floor (brightest count) v) (3 / 4 : ℚ)) = _
    rw [hpower]
    rfl
  · rw [if_neg (by rwa [Exact.less_number, decide_eq_true_eq]), if_neg hv, Exact.zero_eq]

end Shades

/-! ## The history of a flux -/

/-- The numbers of a flux after looks at these points: the means of the
counts of the cells. -/
structure History (xRange yRange : Interval ℝ) (cells : Nat) (s : ℝ) (looks : List (List (Point2 Exact)))
    (levels : List (List ℝ)) : Prop where
  square : levels.length = cells ∧ ∀ row ∈ levels, row.length = cells
  mean : ∀ j < cells, ∀ i < cells, levels[j]?.bind (·[i]?) =
    some (faded s (looks.map (hits xRange yRange cells (j, i))))
  nonneg : ∀ row ∈ levels, ∀ v ∈ row, 0 ≤ v
  total : ∀ m : Nat, (∀ points ∈ looks, points.length ≤ m) → (levels.map List.sum).sum ≤ m

/-- A flux that began with nothing has in each cell the mean of its counts,
and shows it by a scale, whenever the floor is below what is shown
brightest. -/
theorem update_history {xRange yRange : Interval ℝ} (hx : xRange.low < xRange.high)
    (hy : yRange.low < yRange.high) (cells : Nat) {s : ℝ} (hs : s ∈ Set.Icc 0 1) (floor : ℝ)
    (looks : List (List (Point2 Exact))) :
    let f := looks.foldl update (empty xRange.exact yRange.exact cells (.number s) (.number floor))
    ∃ levels : List (List ℝ), f.smoothed = levels.map (List.map .number) ∧
      History xRange yRange cells s looks levels ∧
      ∀ count : Int, floor < brightest count → ∃ shade : ℝ → ℝ, Scale floor shade ∧
        f.intensities count = levels.map (List.map fun v => .number (shade v)) := by
  intro f
  have hf : f = exact xRange yRange cells s floor fun c =>
      faded s (looks.map (hits xRange yRange cells c)) := by
    rw [← foldl_update hx hy, ← empty_exact]
  refine ⟨table cells fun c => faded s (looks.map (hits xRange yRange cells c)), ?_, ?_, ?_⟩
  · rw [hf, map_table]
    rfl
  · refine ⟨⟨by simp [table], fun row hrow => (mem_table hrow).1⟩, fun j hj i hi => getElem?_table hj hi,
      fun row hrow v hv => ?_, fun m hm => ?_⟩
    · obtain ⟨c, rfl⟩ := (mem_table hrow).2 v hv
      exact faded_nonneg hs _
    · rw [sum_table]
      exact sum_faded_le hx hy cells s hs hm
  · intro count htop
    refine ⟨shade floor (brightest count), scale_shade htop, ?_⟩
    have hshade : ∀ v, f.intensity count (.number v) = .number (shade floor (brightest count) v) :=
      intensity_exact (by rw [hf]; rfl) htop
    have hsmoothed : f.smoothed = table cells fun c =>
        .number (faded s (looks.map (hits xRange yRange cells c))) := by
      rw [hf]
      rfl
    rw [intensities, hsmoothed]
    exact (map_table _).trans (by simp only [hshade, map_table])

/-- The origin is seen twice, and each look enters with one fourth. -/
theorem update_history_origin : square.low < square.high ∧ (1 / 4 : ℝ) ∈ Set.Icc 0 1 ∧ ∃ levels : List (List ℝ),
    ([[⟨.number 0, .number 0⟩], [⟨.number 0, .number 0⟩]].foldl update
      (empty square.exact square.exact 2 (.number (1 / 4)) (.number 2))).smoothed =
        levels.map (List.map .number) ∧
    levels[1]?.bind (·[1]?) = some (7 / 16) ∧ (levels.map List.sum).sum ≤ 1 := by
  have hless : square.low < square.high := by norm_num [square]
  have hshare : (1 / 4 : ℝ) ∈ Set.Icc 0 1 := by constructor <;> norm_num
  have hhits : hits square square 2 (1, 1) [⟨.number 0, .number 0⟩] = 1 := by
    rw [hits, List.countP_singleton, if_pos]
    refine decide_eq_true ⟨Nat.one_lt_two, Nat.one_lt_two, 0, 0, rfl, ?_, ?_⟩ <;>
      norm_num [square, Interval.edge]
  have hfaded : faded (1 / 4) [1, 1] = 7 / 16 := by
    norm_num [faded, Finset.sum_range_succ]
  obtain ⟨levels, hlevels, hhistory, -⟩ := update_history hless hless 2 hshare 2
    [[⟨.number 0, .number 0⟩], [⟨.number 0, .number 0⟩]]
  refine ⟨hless, hshare, levels, hlevels, ?_, by exact_mod_cast hhistory.total 1 (by simp)⟩
  rw [hhistory.mean 1 Nat.one_lt_two 1 Nat.one_lt_two, List.map_cons, List.map_cons, List.map_nil, hhits,
    hfaded]

end Flux
end FieldScript
