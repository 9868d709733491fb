import FieldScript.Proofs.SafePotential

/-!
# Grids and their points

A safe field asks the field below for a whole grid first, and if that fails
for one point after the other. The values do not show which of the two it was
(`Field.safe_pointwise`): at each place of the grid stands what the safe field
gives for the coordinates there, whatever becomes of the other places.

The field below has to compute grids number by number
(`Field.Elementwise`). The formulas of programs do (`Prepared.elementwise`),
since a call with grids has the values of the calls at their points
(`Prepared.call_points`).
-/

namespace FieldScript

namespace Samples

/-! ## Single numbers and places -/

variable {s : Samples} {shape : List Nat} {i : Nat}

theorem fills_scalar (x : Float) : (scalar x).Fills [] := ⟨rfl, rfl⟩

/-- A single number is read at every place. -/
theorem reader_eq_first (hs : s.shape = []) (hi : i < shapeSize shape) : s.reader shape i = s.first := by
  rw [reader, hs]
  split
  · rename_i heq
    obtain rfl := eq_of_beq heq
    obtain rfl : i = 0 := Nat.lt_one_iff.mp hi
    rfl
  · rfl

theorem Fills.getElem? (h : s.Fills shape) (hi : i < shapeSize shape) : s.data[i]? = some (s.get i) := by
  rw [get, Array.getElem?_eq_getElem (h.size_eq.symm ▸ hi), Option.getD_some]

/-- Single numbers have no part in the common shape. -/
theorem commonShape?_append {shapes rest : List (List Nat)} (h : ∀ r ∈ rest, r = []) :
    commonShape? (shapes ++ rest) = commonShape? shapes := by
  induction rest using List.reverseRecOn with
  | nil => rw [List.append_nil]
  | append_singleton rest r ih =>
      obtain ⟨hrest, hr⟩ := List.forall_mem_append.mp h
      obtain rfl := List.forall_mem_singleton.mp hr
      have hlast : commonShape? (shapes ++ (rest ++ [[]])) =
          (commonShape? (shapes ++ rest)).bind fun shape => joinShapes? shape [] := by
        rw [← List.append_assoc, commonShape?, List.foldlM_append, ← commonShape?]
        cases commonShape? (shapes ++ rest) with
        | none => rfl
        | some shape =>
            show (joinShapes? shape []).bind some = _
            exact Option.bind_fun_some _
      rw [hlast, ih hrest]
      cases commonShape? shapes with
      | none => rfl
      | some shape => exact joinShapes?_nil shape

theorem commonShape?_scalars (xs : List Float) : commonShape? ((xs.map scalar).map Samples.shape) = some [] := by
  rw [← List.nil_append (List.map _ _), commonShape?_append]
  · rfl
  · intro r hr
    obtain ⟨v, hv, rfl⟩ := List.mem_map.mp hr
    obtain ⟨x, -, rfl⟩ := List.mem_map.mp hv
    rfl

theorem commonShape?_two (a b : List Nat) : commonShape? [a, b] = joinShapes? a b := by
  rw [commonShape?, List.foldlM_cons, nil_joinShapes?, Option.bind_eq_bind, Option.bind_some]
  exact Option.bind_fun_some _

/-! ## Tables -/

section Tables

variable {args : List Samples} {f : List Float → Except Failure Float}

/-- What all samples have at a place of the common shape. -/
def readings (args : List Samples) (shape : List Nat) (i : Nat) : List Float :=
  args.map fun s => s.reader shape i

theorem readings_append (args args' : List Samples) (shape : List Nat) (i : Nat) :
    readings (args ++ args') shape i = readings args shape i ++ readings args' shape i :=
  List.map_append

theorem readings_scalars (xs : List Float) : readings (xs.map scalar) [] 0 = xs := by
  rw [readings, List.map_map]
  exact List.map_id' xs

theorem get_of_tabulate? (hshape : commonShape? (args.map Samples.shape) = some shape)
    (h : tabulate? args f = .ok s) (hi : i < shapeSize shape) : f (readings args shape i) = .ok (s.get i) := by
  rw [tabulate?_eq hshape] at h
  obtain ⟨values, hvalues, h⟩ := bind_eq_ok.mp h
  obtain rfl := Except.ok.inj h
  obtain ⟨z, hz, hf⟩ := getElem?_of_mapM_ok hvalues (List.getElem?_range hi)
  rw [get, List.getElem?_toArray, hz]
  exact hf

theorem tabulate?_of_forall {g : Nat → Float} (hshape : commonShape? (args.map Samples.shape) = some shape)
    (h : ∀ i, f (readings args shape i) = .ok (g i)) :
    ∃ s, tabulate? args f = .ok s ∧ s.Fills shape ∧ ∀ i < shapeSize shape, s.get i = g i := by
  obtain ⟨s, hs, hfills, -⟩ := exists_tabulate? (P := fun _ => True) hshape fun i => ⟨g i, h i, trivial⟩
  exact ⟨s, hs, hfills, fun i hi => Except.ok.inj ((get_of_tabulate? hshape hs hi).symm.trans (h i))⟩

theorem tabulate?_eq_scalar {z : Float} (hshape : commonShape? (args.map Samples.shape) = some [])
    (h : f (readings args [] 0) = .ok z) : tabulate? args f = .ok (scalar z) := by
  rw [tabulate?_eq hshape, show shapeSize [] = 1 from rfl, List.range_one, List.mapM_cons, List.mapM_nil]
  show (f (readings args [] 0) >>= _) >>= _ = _
  rw [h]
  rfl

end Tables

end Samples

namespace Field

/-! ## Safe fields -/

def finite? (x : Float) : Option Float := if x.isFinite then some x else none

theorem finiteOr_eq (fallback x : Float) : finiteOr fallback x = (finite? x).getD fallback := by
  rw [finiteOr, finite?]
  split <;> rfl

theorem safeValue_scalar (fallback x : Float) : safeValue (.scalar x) fallback = .scalar (finiteOr fallback x) := by
  simp [safeValue, Samples.map, Samples.scalar]

/-- The value of the field at a point, if it has one that is finite. -/
def value? (f : Field) (x y : Float) : Option Float :=
  (f (.scalar x) (.scalar y)).toOption.bind fun s => finite? s.first

/-- Where it has samples for grids they fill the common shape of the
coordinates, and each of them is the value at its point. Where the field fails
at a point, or has no finite value, what stands in the samples is not
finite. -/
def Elementwise (f : Field) : Prop :=
  ∀ {x y s : Samples} {shape : List Nat}, Samples.joinShapes? x.shape y.shape = some shape → f x y = .ok s →
    s.Fills shape ∧ ∀ i < Samples.shapeSize shape,
      finite? (s.get i) = f.value? (x.reader shape i) (y.reader shape i)

variable {f : Field} {fallback : Float} {x y : Samples} {shape : List Nat}

theorem safePoint_eq (hhidden : ∀ x y e, f x y = .error e → hides e = true) (fallback a b : Float) :
    safePoint fallback f a b = .ok ((f.value? a b).getD fallback) := by
  rw [safePoint, value?]
  cases h : f (.scalar a) (.scalar b) with
  | ok s => exact congrArg _ (finiteOr_eq fallback s.first)
  | error e => exact if_pos (hhidden _ _ e h)

/-- At a point the field is asked once. -/
theorem safe_scalar (hhidden : ∀ x y e, f x y = .error e → hides e = true) (helementwise : f.Elementwise)
    (fallback a b : Float) :
    f.safe fallback (.scalar a) (.scalar b) = .ok (.scalar ((f.value? a b).getD fallback)) := by
  rw [safe, value?]
  cases h : f (.scalar a) (.scalar b) with
  | ok s =>
      have hfills : s.Fills [] := (helementwise rfl h).1
      show Except.ok (safeValue s fallback) = .ok (.scalar ((finite? s.first).getD fallback))
      rw [Samples.eq_scalar_of_fills hfills, safeValue_scalar, finiteOr_eq]
      rfl
  | error e =>
      dsimp only
      rw [hhidden _ _ e h]
      rfl

/-- For grids of coordinates, or a grid and a number, a safe field has at each
place what it has at the point there: the value of the field below, or the
default if it has none that is finite. -/
theorem safe_pointwise (hhidden : ∀ x y e, f x y = .error e → hides e = true) (helementwise : f.Elementwise)
    (fallback : Float) (hx : x.Fills x.shape) (hy : y.Fills y.shape)
    (hshape : Samples.joinShapes? x.shape y.shape = some shape) :
    ∃ s, f.safe fallback x y = .ok s ∧ s.Fills shape ∧ ∀ i < Samples.shapeSize shape,
      ∃ z, s.data[i]? = some z ∧
        f.safe fallback (.scalar (x.reader shape i)) (.scalar (y.reader shape i)) = .ok (.scalar z) ∧
          z = (f.value? (x.reader shape i) (y.reader shape i)).getD fallback := by
  suffices hvalues : ∃ s, f.safe fallback x y = .ok s ∧ s.Fills shape ∧ ∀ i < Samples.shapeSize shape,
      s.get i = (f.value? (x.reader shape i) (y.reader shape i)).getD fallback by
    obtain ⟨s, hs, hfills, hvalue⟩ := hvalues
    refine ⟨s, hs, hfills, fun i hi => ⟨s.get i, hfills.getElem? hi, ?_, hvalue i hi⟩⟩
    rw [hvalue i hi]
    exact safe_scalar hhidden helementwise fallback _ _
  rw [safe]
  cases hcall : f x y with
  | ok s =>
      obtain ⟨hfills, hvalue⟩ := helementwise hshape hcall
      have hfills' : (safeValue s fallback).Fills shape :=
        ⟨hfills.shape_eq, (Array.size_map).trans hfills.size_eq⟩
      refine ⟨_, rfl, hfills', fun i hi => ?_⟩
      rw [← hvalue i hi, ← finiteOr_eq, Samples.get, safeValue, Samples.map, Array.getElem?_map,
        hfills.getElem? hi, Option.map_some, Option.getD_some]
  | error e =>
      dsimp only
      rw [hhidden x y e hcall, Bool.not_true, if_neg Bool.false_ne_true]
      by_cases hscalar : (x.isScalar && y.isScalar) = true
      · rw [if_pos hscalar]
        obtain ⟨hxs, hys⟩ := Bool.and_eq_true_iff.mp hscalar
        have hxnil : x.shape = [] := List.isEmpty_iff.mp hxs
        have hynil : y.shape = [] := List.isEmpty_iff.mp hys
        rw [hxnil, hynil] at hshape
        obtain rfl : [] = shape := Option.some.inj hshape
        refine ⟨_, rfl, Samples.fills_scalar fallback, fun i hi => ?_⟩
        rw [hxnil] at hx
        rw [hynil] at hy
        -- The coordinates are the point at which the field has just failed.
        rw [Samples.eq_scalar_of_fills hx, Samples.eq_scalar_of_fills hy] at hcall
        rw [Samples.reader_eq_first hxnil hi, Samples.reader_eq_first hynil hi, value?, hcall]
        obtain rfl : i = 0 := Nat.lt_one_iff.mp hi
        rfl
      · rw [if_neg hscalar]
        refine Samples.tabulate?_of_forall ?_ fun i => safePoint_eq hhidden fallback _ _
        exact (Samples.commonShape?_two _ _).trans hshape

/-- A reciprocal for single numbers only, which fails for the grid and then
at one of its points. -/
theorem safe_pointwise_reciprocal :
    let f : Field := fun x y =>
      if x.isScalar && y.isScalar then
        if x.first == 0 then .error .divisionByZero else .ok (.scalar (1 / x.first))
      else .error .notApplicable
    ∃ s, f.safe 0 ⟨[3], #[2, 0, 4]⟩ (.scalar 1) = .ok s ∧ s.data = #[0.5, 0, 0.25] ∧
      f.safe 0 (.scalar 0) (.scalar 1) = .ok (.scalar 0) := by
  intro f
  have hhidden : ∀ x y e, f x y = .error e → hides e = true := by
    intro x y e h
    dsimp only [f] at h
    split at h
    · split at h
      · obtain rfl := Except.error.inj h
        rfl
      · cases h
    · obtain rfl := Except.error.inj h
      rfl
  have helementwise : f.Elementwise := by
    intro x y s shape hshape h
    dsimp only [f] at h
    split at h
    · rename_i hscalar
      split at h
      · cases h
      · rename_i hzero
        obtain ⟨hx, hy⟩ := Bool.and_eq_true_iff.mp hscalar
        rw [List.isEmpty_iff.mp hx, List.isEmpty_iff.mp hy] at hshape
        obtain rfl : [] = shape := Option.some.inj hshape
        obtain rfl := Except.ok.inj h
        refine ⟨Samples.fills_scalar _, fun i hi => ?_⟩
        obtain rfl : i = 0 := Nat.lt_one_iff.mp hi
        rw [Samples.reader_eq_first (List.isEmpty_iff.mp hx) hi, Samples.reader_eq_first (List.isEmpty_iff.mp hy) hi,
          value?]
        show _ = Option.bind (Except.toOption (if (x.first == 0) = true then _ else _)) _
        rw [if_neg hzero]
        rfl
    · cases h
  obtain ⟨s, hs, hfills, hpoints⟩ := safe_pointwise hhidden helementwise 0 (x := ⟨[3], #[2, 0, 4]⟩)
    (y := .scalar 1) ⟨rfl, rfl⟩ (Samples.fills_scalar 1) (show _ = some [3] from rfl)
  have hdata : (f.safe 0 ⟨[3], #[2, 0, 4]⟩ (.scalar 1)).toOption.map (·.data) = some #[0.5, 0, 0.25] := by
    decide +kernel
  rw [hs] at hdata
  have hdata : s.data = #[0.5, 0, 0.25] := Option.some.inj hdata
  refine ⟨s, hs, hdata, ?_⟩
  obtain ⟨z, hz, hpoint, -⟩ := hpoints 1 (by decide)
  rw [hdata] at hz
  obtain rfl : (0 : Float) = z := Option.some.inj hz
  exact hpoint

end Field

/-! ## Calls of formulas -/

namespace Prepared

variable {p : Prepared} {environment overrides : Assignment} {values : List Samples} {s : Samples}

/-- Why calls with so many values fail, if they do. -/
def failure? (p : Prepared) (environment overrides : Assignment) (count : Nat) : Option Failure :=
  if overrides.any fun o => ownNames.contains o.1 then some .notApplicable
  else if count != p.formula.args.length then
    some (.argumentCount p.formula.text p.formula.args.length count)
  else
    match p.freeValues fun n => (overrides.lookup n).or (environment.lookup n) with
    | .error f => some f
    | .ok _ => p.fault

/-- The value of a variable; an override counts before the environment. -/
def variableOf (environment overrides : Assignment) (n : String) : Samples :=
  ((overrides.lookup n).or (environment.lookup n)).getD (.scalar Binary64.nan)

theorem freeValues_eq {free : List Samples}
    (h : p.freeValues (fun n => (overrides.lookup n).or (environment.lookup n)) = .ok free) :
    free = p.formula.free.map (variableOf environment overrides) := by
  refine eq_map_of_mapM_ok (fun n v hv => ?_) h
  split at hv
  · rename_i w hw
    obtain rfl := Except.ok.inj hv
    have hw : (overrides.lookup n).or (environment.lookup n) = some w := hw
    rw [variableOf, hw, Option.getD_some]
  · cases hv

/-- A call fails for reasons that do not depend on the values, or has a table
of numbers. -/
theorem call_eq_table (p : Prepared) (environment overrides : Assignment) (values : List Samples) :
    p.call environment values overrides = match p.failure? environment overrides values.length with
      | some f => .error f
      | none => Samples.tabulate? (values ++ p.formula.free.map (variableOf environment overrides))
          fun xs => .ok (p.plan.eval xs) := by
  unfold Prepared.call Prepared.inputs failure?
  dsimp only
  split
  · rfl
  · split
    · rfl
    · cases hfree : p.freeValues fun n => (overrides.lookup n).or (environment.lookup n) with
      | error f => rfl
      | ok free =>
          rw [freeValues_eq hfree]
          cases p.fault <;> rfl

theorem shape_variableOf (henvironment : ∀ v ∈ environment, v.2.shape = [])
    (hoverrides : ∀ v ∈ overrides, v.2.shape = []) (n : String) : (variableOf environment overrides n).shape = [] := by
  rw [variableOf]
  cases h : (overrides.lookup n).or (environment.lookup n) with
  | none => rfl
  | some v =>
      rcases Option.or_eq_some_iff.mp h with h | ⟨-, h⟩
      · exact Assignment.shape_of_lookup hoverrides h
      · exact Assignment.shape_of_lookup henvironment h

section Points

variable (henvironment : ∀ v ∈ environment, v.2.shape = []) (hoverrides : ∀ v ∈ overrides, v.2.shape = [])
  {shape : List Nat} (hshape : Samples.commonShape? (values.map Samples.shape) = some shape)

include henvironment hoverrides

theorem commonShape?_variables (p : Prepared) : Samples.commonShape?
    ((values ++ p.formula.free.map (variableOf environment overrides)).map Samples.shape) =
      Samples.commonShape? (values.map Samples.shape) := by
  rw [List.map_append, Samples.commonShape?_append]
  intro r hr
  obtain ⟨v, hv, rfl⟩ := List.mem_map.mp hr
  obtain ⟨n, -, rfl⟩ := List.mem_map.mp hv
  exact shape_variableOf henvironment hoverrides n

include hshape

/-- With numbers for the variables, a call with grids has what the calls at
their points have. -/
theorem call_points (h : p.call environment values overrides = .ok s) :
    s.Fills shape ∧ ∀ i < Samples.shapeSize shape,
      p.call environment ((Samples.readings values shape i).map .scalar) overrides = .ok (.scalar (s.get i)) := by
  rw [call_eq_table] at h
  have hcommon := (commonShape?_variables henvironment hoverrides p).trans hshape
  cases hfailure : p.failure? environment overrides values.length with
  | some f =>
      rw [hfailure] at h
      cases h
  | none =>
      rw [hfailure] at h
      refine ⟨(Samples.fills_of_tabulate? hcommon h).1, fun i hi => ?_⟩
      rw [call_eq_table, List.length_map, Samples.readings, List.length_map, hfailure]
      refine Samples.tabulate?_eq_scalar ?_ ?_
      · exact (commonShape?_variables henvironment hoverrides p).trans (Samples.commonShape?_scalars _)
      · rw [← Samples.get_of_tabulate? hcommon h hi, Samples.readings_append, Samples.readings_append,
          Samples.readings_scalars]
        refine congrArg (fun free => Except.ok (p.plan.eval (_ ++ free))) (List.map_congr_left fun v hv => ?_)
        obtain ⟨n, -, rfl⟩ := List.mem_map.mp hv
        have hn := shape_variableOf henvironment hoverrides n
        rw [Samples.reader_eq_first hn hi, Samples.reader_eq_first hn Nat.one_pos]

/-- It fails as they do. -/
theorem call_eq_error_iff {f : Failure} {values' : List Samples} {shape' : List Nat}
    (hshape' : Samples.commonShape? (values'.map Samples.shape) = some shape')
    (hlength : values'.length = values.length) :
    p.call environment values' overrides = .error f ↔ p.call environment values overrides = .error f := by
  rw [call_eq_table, call_eq_table, hlength]
  cases p.failure? environment overrides values.length with
  | some g => exact Iff.rfl
  | none =>
      obtain ⟨s, hs, -⟩ := Samples.tabulate?_of_forall (f := fun xs => .ok (p.plan.eval xs))
        ((commonShape?_variables henvironment hoverrides p).trans hshape) fun i => rfl
      obtain ⟨s', hs', -⟩ := Samples.tabulate?_of_forall (f := fun xs => .ok (p.plan.eval xs))
        ((commonShape?_variables henvironment hoverrides p).trans hshape') fun i => rfl
      dsimp only
      rw [hs, hs']
      exact iff_of_false (fun h => by cases h) (fun h => by cases h)

end Points

/-- The field of a formula computes grids number by number. -/
theorem elementwise (henvironment : ∀ v ∈ environment, v.2.shape = [])
    (hoverrides : ∀ v ∈ overrides, v.2.shape = []) : (Field.ofPrepared p environment overrides).Elementwise := by
  intro x y s shape hshape h
  have hcommon : Samples.commonShape? ([x, y].map Samples.shape) = some shape :=
    (Samples.commonShape?_two _ _).trans hshape
  obtain ⟨hfills, hpoints⟩ := call_points henvironment hoverrides hcommon h
  refine ⟨hfills, fun i hi => ?_⟩
  rw [Field.value?, Field.ofPrepared, show p.call environment [.scalar (x.reader shape i), .scalar (y.reader shape i)]
    overrides = .ok (.scalar (s.get i)) from hpoints i hi]
  rfl

end Prepared
end FieldScript
