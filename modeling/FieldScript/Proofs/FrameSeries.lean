import FieldScript.Animation
import FieldScript.Proofs.ExactNumbers
import FieldScript.Proofs.Outcome

/-!
# Series of frames

The frames of an animation are counted once, by the integral part of a
quotient, and then computed one by one from their numbers. In exact
arithmetic they begin at `start` and go towards `stop` in steps of one size,
up or down (`Animation.towards`). Because of the tolerance in the count the
last one may lie beyond `stop`, but by no more than the tolerance; and as
the integral part is the greatest one, what it falls short is less than a
step (`Animation.frames_series`).
-/

namespace FieldScript
namespace Animation

/-! ## Counting -/

section Counts

variable {α : Type} [Scalar α] {a : Animation α} {values : List α} {n : ℤ}

theorem frameCount_of_stepCount (h : a.stepCount = .ok n) : a.frameCount = .ok (n + 1) :=
  bind_eq_ok.mpr ⟨n, h, rfl⟩

theorem frames_of_stepCount (h : a.stepCount = .ok n) :
    a.frames = .ok ((List.range (n + 1).toNat).map a.frame) :=
  bind_eq_ok.mpr ⟨n + 1, frameCount_of_stepCount h, rfl⟩

end Counts

/-! ## Real numbers -/

/-- The animation in exact arithmetic. -/
def exact (parameter : String) (start stop step : ℝ) : Animation Exact :=
  ⟨parameter, .number start, .number stop, .number step⟩

/-- One if the way from the start to the stop is up, minus one if it is down. -/
noncomputable def towards (start stop : ℝ) : ℝ := if start ≤ stop then 1 else -1

/-- The steps from the start that end before the stop, or beyond it by no more
than the share `ε` of a step. -/
noncomputable def stepsTo (ε start stop step : ℝ) : ℤ := ⌊|stop - start| / step + ε⌋

section Series

variable {parameter : String} {start stop step : ℝ}

theorem towards_mul_distance (start stop : ℝ) : towards start stop * |stop - start| = stop - start := by
  rw [towards]
  split <;> rename_i h
  · rw [abs_of_nonneg (by linarith), one_mul]
  · rw [abs_of_nonpos (by linarith), neg_one_mul, neg_neg]

theorem towards_mul_self (start stop : ℝ) : towards start stop * towards start stop = 1 := by
  rw [towards]
  split <;> norm_num

theorem stepCount_exact (parameter : String) (start stop : ℝ) (hstep : 0 < step) :
    (exact parameter start stop step).stepCount = .ok (stepsTo (1 / 10 ^ 9) start stop step) := by
  have hzero : ¬ Scalar.equal (exact parameter start stop step).step (Scalar.ofInt 0) = true := by
    show ¬ decide (step = ((0 : ℤ) : ℝ)) = true
    rw [decide_eq_true_eq, Int.cast_zero]
    exact hstep.ne'
  have htolerance : (tolerance : Exact) = .number (1 / 10 ^ 9) := by
    show Exact.number ((mkRat 1 1000000000 : ℚ) : ℝ) = _
    norm_num
  have hsteps : Scalar.abs (Exact.number stop - .number start) / .number step + tolerance =
      .number (|stop - start| / step + 1 / 10 ^ 9) := by
    have habs : Scalar.abs (Exact.number stop - .number start) = .number |stop - start| := rfl
    rw [habs, Exact.number_div _ hstep.ne', htolerance, Exact.number_add]
  rw [stepCount, if_neg hzero]
  dsimp only [exact]
  rw [hsteps]
  rfl

theorem frame_exact (parameter : String) (start stop step : ℝ) (i : ℕ) :
    (exact parameter start stop step).frame i =
      .number (start + i * (towards start stop * step)) := by
  have hdirection : (exact parameter start stop step).direction = .number (towards start stop) := by
    have hle : Scalar.lessEq (exact parameter start stop step).start (exact parameter start stop step).stop =
        decide (start ≤ stop) := rfl
    rw [direction, towards]
    by_cases h : start ≤ stop <;> simp [hle, h, Exact.ofInt_eq]
  rw [frame, hdirection, Exact.ofInt_eq, Int.cast_natCast]
  dsimp only [exact]
  rw [Exact.number_mul, Exact.number_mul, Exact.number_add]
  congr 1
  ring

section Steps

variable {ε : ℝ}

/-- No step is taken back. -/
theorem stepsTo_nonneg (start stop : ℝ) (hε : 0 ≤ ε) (hstep : 0 < step) : 0 ≤ stepsTo ε start stop step := by
  have hquotient : 0 ≤ |stop - start| / step := div_nonneg (abs_nonneg _) hstep.le
  exact Int.floor_nonneg.mpr (by linarith)

/-- The steps lead beyond the stop by no more than the tolerance, and one
more step would lead beyond it. -/
theorem stepsTo_bounds (start stop : ℝ) (hε : 0 ≤ ε) (hstep : 0 < step) :
    stepsTo ε start stop step * step - |stop - start| ≤ ε * step ∧
      |stop - start| - stepsTo ε start stop step * step < step := by
  have hlow := Int.floor_le (|stop - start| / step + ε)
  have hhigh := Int.lt_floor_add_one (|stop - start| / step + ε)
  have hdistance : |stop - start| / step * step = |stop - start| := div_mul_cancel₀ _ hstep.ne'
  rw [stepsTo]
  constructor <;> nlinarith

/-- A distance of whole steps is reached. -/
theorem stepsTo_of_multiple (hε : ε ∈ Set.Ico 0 1) (hstep : 0 < step) {k : ℤ} (h : |stop - start| = k * step) :
    stepsTo ε start stop step = k := by
  rw [stepsTo, h, mul_div_cancel_right₀ _ hstep.ne', Int.floor_intCast_add, Int.floor_eq_zero_iff.mpr hε, add_zero]

end Steps

/-- The values go from the start towards the stop in steps of one size. They
end before the stop by less than a step, beyond it by no more than a
billionth of a step, and at the stop if whole steps lead there. -/
structure Series (start stop step : ℝ) (values : List ℝ) : Prop where
  progression : ∀ i < values.length, values[i]? = some (start + i * (towards start stop * step))
  first : values.head? = some start
  overshoot : ∀ last ∈ values.getLast?, towards start stop * (last - stop) ≤ 1 / 10 ^ 9 * step
  shortfall : ∀ last ∈ values.getLast?, towards start stop * (stop - last) < step
  reached : (∃ k : ℤ, |stop - start| = k * step) → values.getLast? = some stop

theorem series_stepsTo (hstep : 0 < step) {n : ℕ} (hn : stepsTo (1 / 10 ^ 9) start stop step = n) :
    Series start stop step
      ((List.range (n + 1)).map fun i : ℕ => start + i * (towards start stop * step)) := by
  have htolerance : (1 / 10 ^ 9 : ℝ) ∈ Set.Ico 0 1 := by constructor <;> norm_num
  have hlast : ((List.range (n + 1)).map fun i : ℕ => start + i * (towards start stop * step)).getLast? =
      some (start + n * (towards start stop * step)) := by
    rw [List.range_succ, List.map_append, List.map_singleton, List.getLast?_concat]
  -- Measured along the way, the last value is so many steps from the start.
  have hway : towards start stop * (start + n * (towards start stop * step) - stop) =
      n * step - |stop - start| := by
    linear_combination (n * step - |stop - start|) * towards_mul_self start stop +
      towards start stop * towards_mul_distance start stop
  obtain ⟨hover, hshort⟩ := stepsTo_bounds start stop htolerance.1 hstep
  rw [hn, Int.cast_natCast] at hover hshort
  refine ⟨fun i hi => ?_, ?_, ?_, ?_, ?_⟩
  · rw [List.length_map, List.length_range] at hi
    rw [List.getElem?_map, List.getElem?_range hi, Option.map_some]
  · simp [List.range_succ_eq_map]
  · intro last hmem
    obtain rfl := Option.some.inj (hlast.symm.trans hmem)
    rw [hway]
    exact hover
  · intro last hmem
    obtain rfl := Option.some.inj (hlast.symm.trans hmem)
    linarith
  · rintro ⟨k, hk⟩
    have hkn : (k : ℝ) = n := by exact_mod_cast (stepsTo_of_multiple htolerance hstep hk).symm.trans hn
    rw [hlast]
    congr 1
    linear_combination towards_mul_distance start stop - towards start stop * hk -
      towards start stop * step * hkn

/-- The frames are as many as are counted, at least one, and they are a
series of values from the start towards the stop. -/
theorem frames_series (parameter : String) (start stop : ℝ) (hstep : 0 < step) : ∃ values : List ℝ,
    (exact parameter start stop step).frames = .ok (values.map .number) ∧
    (exact parameter start stop step).frameCount = .ok values.length ∧ 1 ≤ values.length ∧
    Series start stop step values := by
  have htolerance : (0 : ℝ) ≤ 1 / 10 ^ 9 := by norm_num
  obtain ⟨n, hn⟩ := Int.eq_ofNat_of_zero_le (stepsTo_nonneg start stop htolerance hstep)
  have hcount := stepCount_exact parameter start stop hstep
  rw [hn] at hcount
  refine ⟨_, ?_, ?_, ?_, series_stepsTo hstep hn⟩
  · rw [frames_of_stepCount hcount, List.map_map]
    have hframe : (exact parameter start stop step).frame =
        Exact.number ∘ fun i : ℕ => start + i * (towards start stop * step) :=
      funext (frame_exact parameter start stop step)
    rw [hframe]
    rfl
  · rw [frameCount_of_stepCount hcount]
    simp
  · simp

/-- Downwards in four steps, to the end. -/
theorem frames_series_downwards : (0 : ℝ) < 1 / 4 ∧ ∃ values : List ℝ,
    (exact "t" 1 0 (1 / 4)).frames = .ok (values.map .number) ∧
    (exact "t" 1 0 (1 / 4)).frameCount = .ok values.length ∧ values.getLast? = some 0 := by
  obtain ⟨values, hframes, hcount, -, hseries⟩ := frames_series "t" 1 0 (by norm_num : (0 : ℝ) < 1 / 4)
  exact ⟨by norm_num, values, hframes, hcount, hseries.reached ⟨4, by norm_num⟩⟩

end Series
end Animation
end FieldScript
