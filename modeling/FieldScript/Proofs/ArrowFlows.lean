import FieldScript.Proofs.LabelFallbacks
import FieldScript.Proofs.PlotSamples
import FieldScript.Proofs.SafeGrids

/-!
# Arrows and flows

The arrows of a vector definition are sampled with grids of coordinates, its
field lines follow a flow that asks for one point at a time. Formulas work
value by value, so a grid fails exactly if one of its points does, and the
components at a node are those of a call with the two coordinates.

The flow pads the values with zeros for the parameters that follow, and the
sampler does not: `Session.arrows_follow_flow` says that both show one field
for two parameters, and that there are no arrows for any other number. It
also says when the arrows fail as a whole.
-/

namespace FieldScript

theorem Samples.commonShape?_coordinates {x y : Samples} (hshape : x.shape = y.shape) :
    commonShape? ([x, y].map Samples.shape) = some x.shape := by
  rw [List.map_cons, List.map_cons, List.map_nil, ← hshape]
  exact commonShape?_pair (List.forall_mem_nil _)

theorem Samples.scalar_injective : Function.Injective Samples.scalar := by
  intro a b h
  have hdata : #[a] = #[b] := congrArg Samples.data h
  simpa using hdata

/-- Called with the wrong number of values, a formula fails in a way that is
hidden. -/
theorem Prepared.call_of_count (p : Prepared) (environment overrides : Assignment) {values : List Samples}
    (h : p.formula.args.length ≠ values.length) :
    ∃ f, p.call environment values overrides = .error f ∧ Field.hides f = true := by
  have hcount : (values.length != p.formula.args.length) = true := by simpa using h.symm
  rw [call_eq_table, failure?, if_pos hcount]
  split
  · rename_i f hf
    refine ⟨f, rfl, ?_⟩
    split at hf
    · obtain rfl := Option.some.inj hf
      rfl
    · obtain rfl := Option.some.inj hf
      rfl
  · rename_i hf
    split at hf
    · cases hf
    · cases hf

namespace Evaluator

/-! ## Components at grids and at points -/

section Components

variable {ev : Evaluator} {overrides : Assignment} {values values' : List Samples} {shape shape' : List Nat}
  (henvironment : ∀ v ∈ ev.environment, v.2.shape = []) (hoverrides : ∀ v ∈ overrides, v.2.shape = [])
  (hshape : Samples.commonShape? (values.map Samples.shape) = some shape)

theorem callAll_cons (ev : Evaluator) (p : Prepared) (ps : List Prepared) (values : List Samples)
    (overrides : Assignment) : ev.callAll (p :: ps) values overrides =
      p.call ev.environment values overrides >>= fun s => ev.callAll ps values overrides >>= fun ss =>
        .ok (s :: ss) :=
  List.mapM_cons

include henvironment hoverrides hshape

/-- Components have at a grid what they have at its points. -/
theorem callAll_points {ps : List Prepared} {ss : List Samples} (h : ev.callAll ps values overrides = .ok ss) :
    (∀ s ∈ ss, s.Fills shape) ∧ ∀ i < Samples.shapeSize shape,
      ev.callAll ps ((Samples.readings values shape i).map .scalar) overrides =
        .ok (ss.map fun s => .scalar (s.get i)) := by
  induction ps generalizing ss with
  | nil =>
      obtain rfl := Except.ok.inj h
      exact ⟨List.forall_mem_nil _, fun i _ => rfl⟩
  | cons p ps ih =>
      obtain ⟨s, ss', hs, hss', rfl⟩ := mapM_cons_eq_ok.mp h
      obtain ⟨hfills, hpoints⟩ := ih hss'
      obtain ⟨hfill, hpoint⟩ := Prepared.call_points henvironment hoverrides hshape hs
      refine ⟨List.forall_mem_cons.mpr ⟨hfill, hfills⟩, fun i hi => ?_⟩
      exact mapM_cons_eq_ok.mpr ⟨_, _, hpoint i hi, hpoints i hi, rfl⟩

/-- They fail there as they do at the points. -/
theorem callAll_eq_error_iff (hshape' : Samples.commonShape? (values'.map Samples.shape) = some shape')
    (hlength : values'.length = values.length) (ps : List Prepared) {f : Failure} :
    ev.callAll ps values' overrides = .error f ↔ ev.callAll ps values overrides = .error f := by
  have hcall : ∀ (p : Prepared) g, p.call ev.environment values' overrides = .error g ↔
      p.call ev.environment values overrides = .error g :=
    fun p g => Prepared.call_eq_error_iff henvironment hoverrides hshape hshape' hlength
  induction ps with
  | nil => exact iff_of_false (fun h => by cases h) (fun h => by cases h)
  | cons p ps ih =>
      rw [callAll_cons, callAll_cons]
      cases h : p.call ev.environment values overrides with
      | error g =>
          rw [(hcall p g).mpr h]
          exact Iff.rfl
      | ok s =>
          cases h' : p.call ev.environment values' overrides with
          | error g =>
              rw [(hcall p g).mp h'] at h
              cases h
          | ok s' =>
              have hrest : ∀ (s : Samples) {r : Except Failure (List Samples)},
                  (Except.ok s >>= fun s => r >>= fun ss => Except.ok (s :: ss)) = .error f ↔ r = .error f := by
                intro s r
                cases r with
                | error g => exact Iff.rfl
                | ok ss => exact iff_of_false (fun h => by cases h) (fun h => by cases h)
              rw [hrest, hrest]
              exact ih

end Components

end Evaluator

namespace Field

/-! ## Heights -/

/-- The field fills grids, and fails there as it does at all points. -/
structure Uniform (f : Field) : Prop where
  fails : ∀ {x y : Samples} {e : Failure}, x.shape = y.shape →
    ∀ a b, f x y = .error e ↔ f (.scalar a) (.scalar b) = .error e
  fills : ∀ {x y s : Samples}, x.shape = y.shape → f x y = .ok s → s.Fills x.shape

theorem uniform_zero : zero.Uniform where
  fails hshape a b := by
    obtain ⟨s, hs, -⟩ := zero_finite hshape
    rw [hs]
    exact iff_of_false (fun h => by cases h) (fun h => by cases h)
  fills hshape h := by
    obtain ⟨s', hs', hfills, -⟩ := zero_finite hshape
    obtain rfl := Except.ok.inj (hs'.symm.trans h)
    exact hfills

theorem uniform_ofPrepared {environment overrides : Assignment} (p : Prepared)
    (henvironment : ∀ v ∈ environment, v.2.shape = []) (hoverrides : ∀ v ∈ overrides, v.2.shape = []) :
    (ofPrepared p environment overrides).Uniform where
  fails {x y e} hshape a b := by
    have hcommon := Samples.commonShape?_coordinates hshape
    have hpoint : Samples.commonShape? ([Samples.scalar a, .scalar b].map Samples.shape) = some [] := rfl
    exact Prepared.call_eq_error_iff henvironment hoverrides hpoint hcommon rfl
  fills hshape h := Prepared.fills_call henvironment hoverrides hshape h

namespace Uniform

variable {f : Field} {x y : Samples} {e : Failure} (h : f.Uniform) (fallback : Float)

include h

/-- Where all points fail in a hidden way, the defaults stand. -/
theorem exists_defaults (hshape : x.shape = y.shape) (hf : f x y = .error e) (hhides : hides e = true) :
    ∃ s, f.safe fallback x y = .ok s ∧ s.Fills x.shape := by
  rw [Field.safe, hf]
  dsimp only
  rw [hhides, Bool.not_true, if_neg Bool.false_ne_true]
  split
  · rename_i hscalar
    have hnil : x.shape = [] := List.isEmpty_iff.mp (Bool.and_eq_true_iff.mp hscalar).1
    exact ⟨_, rfl, hnil ▸ Samples.fills_scalar fallback⟩
  · have hcommon := Samples.commonShape?_coordinates hshape
    refine (Samples.tabulate?_of_forall (g := fun _ => fallback) hcommon fun i => ?_).imp
      fun s hs => ⟨hs.1, hs.2.1⟩
    show safePoint fallback f _ _ = _
    rw [safePoint, (h.fails hshape _ _).mp hf]
    exact if_pos hhides

theorem safe_eq_error_iff (hshape : x.shape = y.shape) :
    f.safe fallback x y = .error e ↔ f x y = .error e ∧ hides e = false := by
  cases hf : f x y with
  | ok s =>
      rw [Field.safe, hf]
      exact iff_of_false (fun h => by cases h) (fun h => by cases h.1)
  | error g =>
      cases hhides : hides g with
      | true =>
          obtain ⟨s, hs, -⟩ := h.exists_defaults fallback hshape hf hhides
          rw [hs]
          refine iff_of_false (fun h => by cases h) ?_
          rintro ⟨heq, he⟩
          rw [← Except.error.inj heq, hhides] at he
          cases he
      | false =>
          rw [Field.safe, hf]
          dsimp only
          rw [hhides, Bool.not_false, if_pos rfl]
          exact ⟨fun heq => ⟨heq, Except.error.inj heq ▸ hhides⟩, And.left⟩

/-- Made safe, a field that fails everywhere or nowhere still does so, unless
the failure is hidden. -/
theorem safe : (f.safe fallback).Uniform := by
  refine ⟨fun {x y e} hshape a b => ?_, fun {x y s} hshape hs => ?_⟩
  · have hpoint := h.safe_eq_error_iff (x := .scalar a) (y := .scalar b) (e := e) fallback rfl
    rw [hpoint, h.safe_eq_error_iff fallback hshape, h.fails hshape a b]
  · cases hf : f x y with
    | ok s' =>
        rw [Field.safe, hf] at hs
        obtain rfl := Except.ok.inj hs
        have hfills := h.fills hshape hf
        exact ⟨hfills.shape_eq, (Array.size_map).trans hfills.size_eq⟩
    | error e =>
        cases hhides : hides e with
        | true =>
            obtain ⟨s', hs', hfills⟩ := h.exists_defaults fallback hshape hf hhides
            rwa [Except.ok.inj (hs'.symm.trans hs)] at hfills
        | false =>
            rw [(h.safe_eq_error_iff fallback hshape).mpr ⟨hf, hhides⟩] at hs
            cases hs

end Uniform

/-- The height at a point where the field below has a finite value. -/
theorem potential_safe {f : Field} (fallback : Float) {a b u : Float} (h : f (.scalar a) (.scalar b) = .ok (.scalar u))
    (hu : u.isFinite = true) : (f.safe fallback).potential a b = .ok u := by
  rw [potential, Field.safe, h]
  show (if (safeValue (.scalar u) fallback).data.size == 1 then _ else _) = _
  rw [safeValue_scalar, finiteOr, if_pos hu]
  rfl

end Field

/-! ## Arrows at the nodes of a grid -/

namespace Lattice

/-- Each pair of coordinates has its place in the grid. -/
theorem exists_node (xs ys : List Float) {a b : Float} (ha : a ∈ xs) (hb : b ∈ ys) :
    ∃ i < ys.length * xs.length, (ys.flatMap fun _ => xs)[i]? = some a ∧
      (ys.flatMap fun y => List.replicate xs.length y)[i]? = some b := by
  obtain ⟨k, hk, rfl⟩ := List.getElem_of_mem ha
  induction ys with
  | nil => cases hb
  | cons y ys ih =>
      rw [List.length_cons, Nat.succ_mul]
      rw [List.flatMap_cons, List.flatMap_cons]
      rcases List.mem_cons.mp hb with rfl | hb
      · refine ⟨k, by omega, ?_, ?_⟩
        · rw [List.getElem?_append_left hk, List.getElem?_eq_getElem hk]
        · rw [List.getElem?_append_left (by rwa [List.length_replicate]), List.getElem?_replicate, if_pos hk]
      · obtain ⟨i, hi, hx, hy⟩ := ih hb
        refine ⟨xs.length + i, by omega, ?_, ?_⟩
        · rw [List.getElem?_append_right (Nat.le_add_right _ _), Nat.add_sub_cancel_left, hx]
        · rw [List.getElem?_append_right (by rw [List.length_replicate]; exact Nat.le_add_right _ _),
            List.length_replicate, Nat.add_sub_cancel_left, hy]

theorem mesh_nodes (xs ys : List Float) :
    let nodes := Samples.mesh xs.toArray ys.toArray
    nodes.1.shape = nodes.2.shape ∧ nodes.1.Fills nodes.1.shape ∧
      ∀ a ∈ xs, ∀ b ∈ ys, ∃ i < Samples.shapeSize nodes.1.shape, nodes.1.get i = a ∧ nodes.2.get i = b := by
  have hx : (Samples.mesh xs.toArray ys.toArray).1.data = (ys.flatMap fun _ => xs).toArray := by
    simp [Samples.mesh]
  have hy : (Samples.mesh xs.toArray ys.toArray).2.data =
      (ys.flatMap fun y => List.replicate xs.length y).toArray := by
    simp [Samples.mesh]
  have hsize : Samples.shapeSize (Samples.mesh xs.toArray ys.toArray).1.shape = ys.length * xs.length := by
    simp [Samples.mesh, Samples.shapeSize]
  refine ⟨rfl, ⟨rfl, ?_⟩, fun a ha b hb => ?_⟩
  · rw [hsize, hx]
    simp
  · obtain ⟨i, hi, hxi, hyi⟩ := exists_node xs ys ha hb
    refine ⟨i, hsize ▸ hi, ?_, ?_⟩
    · rw [Samples.get, hx, List.getElem?_toArray, hxi, Option.getD_some]
    · rw [Samples.get, hy, List.getElem?_toArray, hyi, Option.getD_some]

/-- A square grid, with a place for each pair of coordinates. -/
theorem exists_grid (xRange yRange : Interval Float) (n : Nat) :
    ∃ x y, grid xRange yRange n n = .ok (x, y) ∧ x.shape = y.shape ∧ x.Fills x.shape ∧
      ∀ a ∈ xRange.spaced n, ∀ b ∈ yRange.spaced n,
        ∃ i < Samples.shapeSize x.shape, x.get i = a ∧ y.get i = b := by
  have hspaced : ∀ r : Interval Float, r.spaced? (n : Int) = .ok (r.spaced n) := by
    intro r
    rw [Interval.spaced?, if_neg (by omega), Int.toNat_natCast]
  refine ⟨_, _, ?_, mesh_nodes (xRange.spaced n) (yRange.spaced n)⟩
  rw [grid, hspaced, hspaced]
  rfl

end Lattice

namespace ArrowSample

/-- There is an arrow at this place of the plane, with these components. -/
def Shows (s : ArrowSample) (a b : Float) (v : List Float) : Prop :=
  ∃ (k : Nat) (z : Float), s.origins[k]? = some ⟨a, b, z⟩ ∧ s.vectors[k]? = some v ∧
    s.magnitudes[k]? = some (norm v)

variable {f : VectorField} {xRange yRange : Interval Float} {n : Nat} {surface : Field} {x y z : Samples}
  {ss : List Samples}

theorem components_of_ok (h : f x y = .ok ss) (hfills : ∀ s ∈ ss, s.Fills x.shape) :
    components f x y = .ok (.ok ss) := by
  have hall : (f x y >>= fun cs => cs.mapM fun c => c.stretch? x.shape) = .ok ss := by
    refine bind_eq_ok.mpr ⟨ss, h, (mapM_eq_map fun s hs => ?_).trans (congrArg _ (List.map_id ss))⟩
    rw [Samples.stretch?, (hfills s hs).shape_eq, beq_self_eq_true, if_pos rfl, id]
  rw [components, hall]

theorem components_of_error {e : Failure} (h : f x y = .error e) :
    components f x y = if Field.hides e then .ok (.error e.describe) else .error e := by
  rw [components, h]
  rfl

theorem heights_eq (hfills : ∀ z, surface x y = .ok z → z.Fills x.shape) :
    heights (some surface) x y = (surface x y).map Field.safeValue := by
  rw [heights]
  cases h : surface x y with
  | error e => rfl
  | ok z =>
      have hshape : (Field.safeValue z).shape = x.shape := (hfills z h).shape_eq
      show (Field.safeValue z).stretch? x.shape = _
      rw [Samples.stretch?, hshape, beq_self_eq_true, if_pos rfl]
      rfl

variable (hgrid : Lattice.grid xRange yRange n n = .ok (x, y))

include hgrid

theorem sample_of_hidden {e : Failure} (hcalls : f x y = .error e) (hhides : Field.hides e = true) :
    sample f xRange yRange n (some surface) =
      .ok (empty, ["Vector field could not be sampled: " ++ e.describe]) := by
  rw [sample, hgrid]
  show (components f x y >>= _) = _
  rw [components_of_error hcalls, hhides, if_pos rfl]
  rfl

theorem sample_of_error {e : Failure} (hcalls : f x y = .error e) (hhides : Field.hides e = false) :
    sample f xRange yRange n (some surface) = .error e := by
  rw [sample, hgrid]
  show (components f x y >>= _) = _
  rw [components_of_error hcalls, hhides, if_neg Bool.false_ne_true]
  rfl

variable (hcalls : f x y = .ok ss) (hfills : ∀ s ∈ ss, s.Fills x.shape)
  (hheights : ∀ z, surface x y = .ok z → z.Fills x.shape)

include hcalls hfills hheights

theorem sample_of_heights_error {e : Failure} (h : surface x y = .error e) :
    sample f xRange yRange n (some surface) = .error e := by
  rw [sample, hgrid]
  show (components f x y >>= _) = _
  rw [components_of_ok hcalls hfills]
  show (heights (some surface) x y >>= _) = _
  rw [heights_eq hheights, h]
  rfl

/-- A sample has an arrow at each node at which the components are finite and
make an arrow that is long enough to be seen. -/
theorem sample_of_ok (hx : x.Fills x.shape) (h : surface x y = .ok z) :
    ∃ s, sample f xRange yRange n (some surface) = .ok (s, []) ∧ (ss = [] → s = empty) ∧
      ∀ i < Samples.shapeSize x.shape, (∀ c ∈ ss, (c.get i).isFinite = true) →
        shortest ≤ norm (ss.map fun c => c.get i) →
          s.Shows (x.get i) (y.get i) (ss.map fun c => c.get i) := by
  have hsample : sample f xRange yRange n (some surface) =
      let rows := (SurfaceMesh.pointsOf x y (Field.safeValue z)).zipIdx.map fun p =>
        let v := ss.map fun c => c.get p.2
        (p.1, v, norm v)
      let kept := rows.filter fun r => r.2.1.all Float.isFinite && r.2.2 ≥ shortest
      .ok (⟨kept.map (·.1), kept.map (·.2.1), kept.map (·.2.2)⟩, []) := by
    rw [sample, hgrid]
    show (components f x y >>= _) = _
    rw [components_of_ok hcalls hfills]
    show (heights (some surface) x y >>= _) = _
    rw [heights_eq hheights, h]
    rfl
  refine ⟨_, hsample, fun hnone => ?_, fun i hi hfinite hlong => ?_⟩
  · have hshort : ¬ norm [] ≥ shortest := by decide +kernel
    have hkept : ∀ points : List (Point3 Float × Nat), ((points.map fun p =>
        (p.1, ([] : List Float), norm [])).filter fun r => r.2.1.all Float.isFinite && r.2.2 ≥ shortest) = [] := by
      intro points
      refine List.filter_eq_nil_iff.mpr fun r hr => ?_
      obtain ⟨p, -, rfl⟩ := List.mem_map.mp hr
      simpa using hshort
    rw [hnone]
    simp only [List.map_nil, hkept, empty]
  · have hpoint : (SurfaceMesh.pointsOf x y (Field.safeValue z))[i]? =
        some ⟨x.get i, y.get i, (Field.safeValue z).get i⟩ := by
      rw [SurfaceMesh.pointsOf, List.getElem?_map, List.getElem?_range (hx.size_eq.symm ▸ hi), Option.map_some]
    have hrow : (⟨x.get i, y.get i, (Field.safeValue z).get i⟩, ss.map (fun c => c.get i),
        norm (ss.map fun c => c.get i)) ∈
          ((SurfaceMesh.pointsOf x y (Field.safeValue z)).zipIdx.map fun p =>
            (p.1, ss.map (fun c => c.get p.2), norm (ss.map fun c => c.get p.2))).filter
              fun r => r.2.1.all Float.isFinite && r.2.2 ≥ shortest := by
      refine List.mem_filter.mpr ⟨List.mem_map.mpr ⟨(_, i), List.mem_zipIdx_iff_getElem?.mpr hpoint, rfl⟩, ?_⟩
      rw [Bool.and_eq_true, List.all_map, List.all_eq_true, decide_eq_true_iff]
      exact ⟨hfinite, hlong⟩
    obtain ⟨k, hk⟩ := List.getElem?_of_mem hrow
    refine ⟨k, (Field.safeValue z).get i, ?_, ?_, ?_⟩ <;> dsimp only <;> rw [List.getElem?_map, hk] <;> rfl

end ArrowSample

/-! ## Flows -/

/-- A flow follows the first two components where they are finite. -/
theorem Flow.ofComponents_of_callAll {ev : Evaluator} {cs : List Prepared} {extra : Nat} {values : Assignment}
    {a b u v : Float} {ss : List Samples}
    (h : ev.callAll cs (.scalar a :: .scalar b :: List.replicate extra (.scalar 0)) values =
      .ok (.scalar u :: .scalar v :: ss)) (hu : u.isFinite = true) (hv : v.isFinite = true) :
    Flow.ofComponents cs extra ev.environment values a b = .ok (u, v) := by
  cases cs with
  | nil => cases h
  | cons c₀ cs =>
      obtain ⟨s₀, ss₀, h₀, hss, heq⟩ := mapM_cons_eq_ok.mp h
      obtain ⟨rfl, rfl⟩ := List.cons.inj heq
      cases cs with
      | nil => cases hss
      | cons c₁ cs =>
          obtain ⟨s₁, ss₁, h₁, -, heq⟩ := mapM_cons_eq_ok.mp hss
          obtain ⟨rfl, rfl⟩ := List.cons.inj heq
          have hx := Field.potential_safe 0 (a := a) (b := b)
            (f := fun x y => c₀.call ev.environment (x :: y :: List.replicate extra (.scalar 0)) values) h₀ hu
          have hy := Field.potential_safe 0 (a := a) (b := b)
            (f := fun x y => c₁.call ev.environment (x :: y :: List.replicate extra (.scalar 0)) values) h₁ hv
          show (Field.potential _ a b >>= fun u => Field.potential _ a b >>= fun v => pure (u, v)) = _
          rw [hx]
          show (Field.potential _ a b >>= fun v => pure (u, v)) = _
          rw [hy]
          rfl

/-! ## Samples of arrows -/

namespace Evaluator

variable {ev : Evaluator}

/-- The callables of a definition take its arguments. -/
theorem ProperlyKept.proper_componentCallables (h : ev.ProperlyKept) {fn : NamedFunction} {index : Nat}
    {es : List Expr} {cs : List Prepared} (hcs : (ev.componentCallables fn index es).1 = .ok cs) :
    ∀ c ∈ cs, c.Proper fn.params := by
  induction es generalizing ev index cs with
  | nil =>
      obtain rfl := Except.ok.inj hcs
      exact List.forall_mem_nil _
  | cons e es ih =>
      have hkept : (ev.keep (keyOf (fn.name ++ "[" ++ toString index ++ "]") fn.params)
          (Prepared.ofExpr (fn.name ++ "[" ++ toString index ++ "]") fn.params e)).2.ProperlyKept :=
        h.keep fun p hp => Prepared.proper_ofExpr hp
      rw [Evaluator.componentCallables] at hcs
      split at hcs
      · cases hcs
      · rename_i c ev' hkeep
        rw [hkeep] at hkept
        split at hcs
        · cases hcs
        · rename_i cs' ev'' hrest
          obtain rfl := Except.ok.inj hcs
          exact List.forall_mem_cons.mpr ⟨hkept _ c (lookup_keep hkeep), ih hkept (congrArg Prod.fst hrest)⟩

theorem ProperlyKept.proper_componentFunction (h : ev.ProperlyKept) {name : String} {kind : DefinitionKind}
    {cs : List Prepared} (hcs : (ev.componentFunction name kind).1 = .ok cs) :
    ∃ fn, ev.definitions.get? name = some fn ∧ ∀ c ∈ cs, c.Proper fn.params := by
  rw [Evaluator.componentFunction] at hcs
  split at hcs
  · cases hcs
  · rename_i fn hfn
    split at hcs
    · cases hcs
    · exact ⟨fn, definition_of_require hfn, h.proper_componentCallables hcs⟩

theorem ProperlyKept.askedFor (h : ev.ProperlyKept) (kind : DefinitionKind) (names : List String) :
    (ev.askedFor kind names).ProperlyKept := by
  induction names generalizing ev with
  | nil => exact h
  | cons n names ih => exact ih (h.componentFunction n kind)

/-- The ways in which a plotted definition keeps a session from answering: it
has no callables, a component fails at every point in a way that is not
hidden, or its arrows would stand on a surface that has no height at any
point. -/
inductive PlotEscapes (ev : Evaluator) (surface : Field) (values : Assignment) (name : String) : Prop
  | callable (f : Failure) (h : (ev.vectorFunction name).1 = .error f)
  | component (cs : List Prepared) (f : Failure) (hcs : (ev.vectorFunction name).1 = .ok cs)
      (h : ∀ a b, ev.callAll cs [.scalar a, .scalar b] values = .error f) (hkind : Field.hides f = false)
  | height (cs : List Prepared) (f : Failure) (hcs : (ev.vectorFunction name).1 = .ok cs)
      (hcalls : ∀ a b, ∃ ss, ev.callAll cs [.scalar a, .scalar b] values = .ok ss)
      (h : ∀ a b, surface (.scalar a) (.scalar b) = .error f)

end Evaluator

namespace Session

open Evaluator (PlotEscapes)

variable {p : Program} {time : Option Float} {surface : Field} {ev : Evaluator} {name : String} {n : Nat}

section Points

variable (henvironment : ∀ v ∈ ev.environment, v.2.shape = [])

theorem shape_frameValues (p : Program) (time : Option Float) : ∀ v ∈ p.frameValues time, v.2.shape = [] := by
  rw [Program.frameValues]
  split
  · exact List.forall_mem_nil _
  · exact List.forall_mem_singleton.mpr rfl

include henvironment

theorem callAll_grid_points {x y : Samples} (hshape : x.shape = y.shape) {cs : List Prepared} {ss : List Samples}
    (h : ev.callAll cs [x, y] (p.frameValues time) = .ok ss) :
    (∀ s ∈ ss, s.Fills x.shape) ∧ ∀ i < Samples.shapeSize x.shape,
      ev.callAll cs [.scalar (x.get i), .scalar (y.get i)] (p.frameValues time) =
        .ok (ss.map fun s => .scalar (s.get i)) := by
  obtain ⟨hfills, hpoints⟩ := Evaluator.callAll_points henvironment (shape_frameValues p time)
    (Samples.commonShape?_coordinates hshape) h
  refine ⟨hfills, fun i hi => ?_⟩
  have hreaders : Samples.readings [x, y] x.shape i = [x.get i, y.get i] := by
    simp [Samples.readings, Samples.reader, hshape]
  rw [← hpoints i hi, hreaders]
  rfl

theorem callAll_grid_error_iff {x y : Samples} (hshape : x.shape = y.shape) (cs : List Prepared) {f : Failure}
    (a b : Float) : ev.callAll cs [x, y] (p.frameValues time) = .error f ↔
      ev.callAll cs [.scalar a, .scalar b] (p.frameValues time) = .error f := by
  have hcommon := Samples.commonShape?_coordinates hshape
  have hpoint : Samples.commonShape? ([Samples.scalar a, .scalar b].map Samples.shape) = some [] := rfl
  exact Evaluator.callAll_eq_error_iff henvironment (shape_frameValues p time) hpoint hcommon rfl cs

theorem callAll_grid_ok_iff {x y : Samples} (hshape : x.shape = y.shape) (cs : List Prepared) (a b : Float) :
    (∃ ss, ev.callAll cs [x, y] (p.frameValues time) = .ok ss) ↔
      ∃ ss, ev.callAll cs [.scalar a, .scalar b] (p.frameValues time) = .ok ss := by
  have herror : ∀ f, ev.callAll cs [x, y] (p.frameValues time) = .error f ↔
      ev.callAll cs [.scalar a, .scalar b] (p.frameValues time) = .error f :=
    fun f => callAll_grid_error_iff henvironment hshape cs a b
  cases hgrid : ev.callAll cs [x, y] (p.frameValues time) with
  | error f =>
      rw [(herror f).mp hgrid]
  | ok ss =>
      cases hpoint : ev.callAll cs [.scalar a, .scalar b] (p.frameValues time) with
      | error f =>
          rw [(herror f).mpr hpoint] at hgrid
          cases hgrid
      | ok ss' => exact iff_of_true ⟨ss, rfl⟩ ⟨ss', rfl⟩

end Points

section Samples

variable {cs : List Prepared} (henvironment : ∀ v ∈ ev.environment, v.2.shape = []) (hsurface : surface.Uniform)

theorem sampleOf_eq (hcs : (ev.vectorFunction name).1 = .ok cs) :
    sampleOf p .vector time surface ArrowSample.sample ev name n =
      ArrowSample.sample (fun x y => ev.callAll cs [x, y] (p.frameValues time)) p.xRange p.yRange n
        (some surface) := by
  show (ev.vectorFunction name).1 >>= _ = _
  rw [hcs]
  rfl

include henvironment hsurface

/-- The arrows of a definition can be sampled exactly if it does not
escape. -/
theorem sampleOf_error_iff : (∃ f, sampleOf p .vector time surface ArrowSample.sample ev name n = .error f) ↔
    PlotEscapes ev surface (p.frameValues time) name := by
  obtain ⟨x, y, hgrid, hshape, hx, -⟩ := Lattice.exists_grid p.xRange p.yRange n
  cases hcs : (ev.vectorFunction name).1 with
  | error f =>
      refine iff_of_true ⟨f, ?_⟩ (.callable f hcs)
      show (ev.vectorFunction name).1 >>= _ = _
      rw [hcs]
      rfl
  | ok cs =>
      have hinj : ∀ {cs'}, (ev.vectorFunction name).1 = .ok cs' → cs' = cs :=
        fun h => Except.ok.inj (h.symm.trans hcs)
      rw [sampleOf_eq hcs]
      cases hcalls : ev.callAll cs [x, y] (p.frameValues time) with
      | error f =>
          have hpoints := fun a b => (callAll_grid_error_iff henvironment hshape cs a b).mp hcalls
          cases hhides : Field.hides f with
          | false =>
              exact iff_of_true ⟨f, ArrowSample.sample_of_error hgrid hcalls hhides⟩
                (.component cs f hcs hpoints hhides)
          | true =>
              rw [ArrowSample.sample_of_hidden hgrid hcalls hhides]
              refine iff_of_false (by rintro ⟨_, h⟩; cases h) ?_
              rintro (⟨g, hg⟩ | ⟨cs', g, hcs', hg, hkind⟩ | ⟨cs', g, hcs', hg, -⟩)
              · cases hcs.symm.trans hg
              · obtain rfl := hinj hcs'
                rw [Except.error.inj ((hpoints 0 0).symm.trans (hg 0 0)), hkind] at hhides
                cases hhides
              · obtain rfl := hinj hcs'
                obtain ⟨ss, hss⟩ := hg 0 0
                cases (hpoints 0 0).symm.trans hss
      | ok ss =>
          have hpoints := fun a b => (callAll_grid_ok_iff henvironment hshape cs a b).mp ⟨ss, hcalls⟩
          obtain ⟨hfills, -⟩ := callAll_grid_points henvironment hshape hcalls
          have hheights : ∀ z, surface x y = .ok z → z.Fills x.shape := fun z hz => hsurface.fills hshape hz
          cases hz : surface x y with
          | error f =>
              exact iff_of_true ⟨f, ArrowSample.sample_of_heights_error hgrid hcalls hfills hheights hz⟩
                (.height cs f hcs hpoints fun a b => (hsurface.fails hshape a b).mp hz)
          | ok z =>
              obtain ⟨s, hs, -⟩ := ArrowSample.sample_of_ok
                (f := fun x y => ev.callAll cs [x, y] (p.frameValues time)) hgrid hcalls hfills hheights hx hz
              rw [hs]
              refine iff_of_false (by rintro ⟨_, h⟩; cases h) ?_
              rintro (⟨g, hg⟩ | ⟨cs', g, hcs', hg, hkind⟩ | ⟨cs', g, hcs', -, hg⟩)
              · cases hcs.symm.trans hg
              · obtain rfl := hinj hcs'
                obtain ⟨ss', hss'⟩ := hpoints 0 0
                cases hss'.symm.trans (hg 0 0)
              · cases hz.symm.trans ((hsurface.fails hshape 0 0).mpr (hg 0 0))

/-- The sample has an arrow for the components at a node, if they are finite
and make an arrow that is long enough to be seen. -/
theorem shows_of_sampleOf {r : ArrowSample × List String}
    (h : sampleOf p .vector time surface ArrowSample.sample ev name n = .ok r)
    (hcs : (ev.vectorFunction name).1 = .ok cs) {a b : Float} (ha : a ∈ p.xRange.spaced n)
    (hb : b ∈ p.yRange.spaced n) {vs : List Float}
    (hcalls : ev.callAll cs [.scalar a, .scalar b] (p.frameValues time) = .ok (vs.map .scalar))
    (hfinite : ∀ v ∈ vs, v.isFinite = true) (hlong : ArrowSample.shortest ≤ ArrowSample.norm vs) :
    r.1.Shows a b vs := by
  obtain ⟨x, y, hgrid, hshape, hx, hnodes⟩ := Lattice.exists_grid p.xRange p.yRange n
  rw [sampleOf_eq hcs] at h
  obtain ⟨ss, hss⟩ := (callAll_grid_ok_iff henvironment hshape cs a b).mpr ⟨_, hcalls⟩
  obtain ⟨hfills, hpoints⟩ := callAll_grid_points henvironment hshape hss
  have hheights : ∀ z, surface x y = .ok z → z.Fills x.shape := fun z hz => hsurface.fills hshape hz
  cases hz : surface x y with
  | error f =>
      rw [ArrowSample.sample_of_heights_error hgrid hss hfills hheights hz] at h
      cases h
  | ok z =>
      obtain ⟨s, hs, -, hshows⟩ := ArrowSample.sample_of_ok
        (f := fun x y => ev.callAll cs [x, y] (p.frameValues time)) hgrid hss hfills hheights hx hz
      obtain rfl := Except.ok.inj (hs.symm.trans h)
      obtain ⟨i, hi, rfl, rfl⟩ := hnodes a ha b hb
      obtain rfl : ss.map (fun c => c.get i) = vs := by
        have heq := Except.ok.inj ((hpoints i hi).symm.trans hcalls)
        refine List.map_injective_iff.mpr Samples.scalar_injective ?_
        rw [← heq, List.map_map]
        rfl
      exact hshows i hi (fun c hc => hfinite _ (List.mem_map_of_mem hc)) hlong

omit henvironment in
/-- A definition of more than two arguments, or of fewer, has no arrows. -/
theorem empty_of_sampleOf {r : ArrowSample × List String}
    (h : sampleOf p .vector time surface ArrowSample.sample ev name n = .ok r)
    (hcs : (ev.vectorFunction name).1 = .ok cs) (hargs : ∀ c ∈ cs, c.formula.args.length ≠ 2) :
    r.1 = .empty := by
  obtain ⟨x, y, hgrid, hshape, hx, -⟩ := Lattice.exists_grid p.xRange p.yRange n
  rw [sampleOf_eq hcs] at h
  cases cs with
  | nil =>
      have hcalls : ev.callAll [] [x, y] (p.frameValues time) = .ok [] := rfl
      have hheights : ∀ z, surface x y = .ok z → z.Fills x.shape := fun z hz => hsurface.fills hshape hz
      cases hz : surface x y with
      | error f =>
          rw [ArrowSample.sample_of_heights_error hgrid hcalls (List.forall_mem_nil _) hheights hz] at h
          cases h
      | ok z =>
          obtain ⟨s, hs, hempty, -⟩ :=
            ArrowSample.sample_of_ok (f := fun x y => ev.callAll [] [x, y] (p.frameValues time))
              hgrid hcalls (List.forall_mem_nil _) hheights hx hz
          obtain rfl := Except.ok.inj (hs.symm.trans h)
          exact hempty rfl
  | cons c cs =>
      have hcount : c.formula.args.length ≠ [x, y].length := hargs c List.mem_cons_self
      obtain ⟨f, hf, hhides⟩ := c.call_of_count ev.environment (p.frameValues time) hcount
      have hcalls : ev.callAll (c :: cs) [x, y] (p.frameValues time) = .error f := by
        rw [Evaluator.callAll_cons, hf]
        rfl
      rw [ArrowSample.sample_of_hidden hgrid hcalls hhides] at h
      obtain rfl := Except.ok.inj h
      rfl

end Samples

/-! ## Arrows of programs -/

/-- The evaluator after it was asked for the surface and for the definitions
of these plots. -/
def asked (p : Program) (ev : Evaluator) (plots : List (String × Nat)) : Evaluator :=
  (ev.compileKept p.surfaceExpr ["x", "y"]).2.askedFor .vector (plots.map (·.1))

/-- What keeps a session from answering with arrows: there is no potential, or
one of the plotted definitions escapes when it is its turn. -/
inductive ArrowsEscape (p : Program) (ev : Evaluator) (time : Option Float) : Prop
  | potential (f : Failure) (h : plotted ⟨some p, some ev, []⟩ time = .error f)
  | plot (field : Field) (before : List (String × Nat)) (name : String) (n : Nat) (after : List (String × Nat))
      (hfield : plotted ⟨some p, some ev, []⟩ time = .ok field)
      (hplots : p.vectorPlots = before ++ (name, n) :: after) (hbound : ev.unbound.lookup name = none)
      (h : (asked p ev before).PlotEscapes field (p.frameValues time) name)

theorem uniform_of_plotted (henvironment : ∀ v ∈ ev.environment, v.2.shape = []) {ws : List String}
    {field : Field} (h : plotted ⟨some p, some ev, ws⟩ time = .ok field) : field.Uniform := by
  rw [plotted_eq] at h
  split at h
  · obtain rfl := Except.ok.inj h
    exact (Field.uniform_ofPrepared _ henvironment (shape_frameValues p time)).safe _
  · obtain rfl := Except.ok.inj h
    exact Field.uniform_zero
  · cases h

theorem run_potential (p : Program) (ev : Evaluator) (ws : List String) (time : Option Float) :
    ∃ ws', (potential time).run.run ⟨some p, some ev, ws⟩ = (plotted ⟨some p, some ev, []⟩ time,
      ⟨some p, some (ev.compileKept p.surfaceExpr ["x", "y"]).2, ws'⟩) := by
  have hkept := Evaluator.compileKept_environment ev p.surfaceExpr ["x", "y"]
  rw [potential, run_bind, run_frame, plotted_eq, Evaluator.compileKept_answer]
  cases ev.compile p.surfaceExpr ["x", "y"] with
  | ok f => exact ⟨ws, by rw [← hkept]; rfl⟩
  | error f => cases f <;> exact ⟨_, rfl⟩

/-- The arrows are those of the plots, one after the other, on the surface. -/
theorem run_arrows (p : Program) (ev : Evaluator) (ws : List String) (time : Option Float) :
    ∃ ws', (arrows time).run.run ⟨some p, some ev, ws⟩ =
      let session : Session := ⟨some p, some (ev.compileKept p.surfaceExpr ["x", "y"]).2, ws'⟩
      match plotted ⟨some p, some ev, []⟩ time with
      | .error f => (.error f, session)
      | .ok field => ((p.vectorPlots.map fun v => (v.1, (v.2 : Int))).foldlM
          (sampleStep "vector" p .vector time field ArrowSample.sample) []).run.run session := by
  obtain ⟨ws', hpotential⟩ := run_potential p ev ws time
  refine ⟨ws', ?_⟩
  have hrun : (arrows time).run.run ⟨some p, some ev, ws⟩ =
      (potential time >>= fun field => currentProgram >>= fun p' =>
        (p.vectorPlots.map fun v => (v.1, (v.2 : Int))).foldlM
          (sampleStep "vector" p' .vector time field ArrowSample.sample) []).run.run
            ⟨some p, some ev, ws⟩ := rfl
  rw [hrun, run_bind, hpotential]
  cases plotted ⟨some p, some ev, []⟩ time with
  | error f => rfl
  | ok field => rfl

/-- The session answers exactly if nothing escapes. -/
theorem exists_arrows_iff (henvironment : ∀ v ∈ ev.environment, v.2.shape = []) (ws : List String) :
    (∃ samples s', (arrows time).run.run ⟨some p, some ev, ws⟩ = (.ok samples, s')) ↔
      ¬ ArrowsEscape p ev time := by
  obtain ⟨ws', hrun⟩ := run_arrows p ev ws time
  have hfirst := Evaluator.extends_compileKept ev p.surfaceExpr ["x", "y"]
  rw [hrun]
  cases hfield : plotted ⟨some p, some ev, []⟩ time with
  | error f =>
      refine iff_of_false ?_ (not_not_intro (.potential f hfield))
      rintro ⟨samples, s', h⟩
      cases congrArg Prod.fst h
  | ok field =>
      have huniform := uniform_of_plotted henvironment hfield
      have hasked : ∀ before : List (String × Nat), ∀ v ∈ (asked p ev before).environment, v.2.shape = [] := by
        intro before
        rw [asked, (Evaluator.extends_askedFor _ _ _).environment, hfirst.environment]
        exact henvironment
      dsimp only
      rw [exists_run_samples_iff, hfirst.unbound]
      constructor
      · rintro h (⟨f, hf⟩ | ⟨field', before, name, n, after, hfield', hplots, hbound, hescapes⟩)
        · cases hfield.symm.trans hf
        · obtain rfl := Except.ok.inj (hfield.symm.trans hfield')
          obtain ⟨r, hr⟩ := h (before.map fun v => (v.1, (v.2 : Int))) (name, n)
            (after.map fun v => (v.1, (v.2 : Int))) (by rw [hplots, List.map_append]; rfl) hbound
          rw [List.map_map] at hr
          obtain ⟨f, hf⟩ := (sampleOf_error_iff (hasked before) huniform (n := n)).mpr hescapes
          cases hr.symm.trans hf
      · intro h before plot after hplots hbound
        obtain ⟨before', rest, hsplit, rfl, hrest⟩ := List.map_eq_append_iff.mp hplots
        obtain ⟨⟨name, n⟩, after', rfl, rfl, -⟩ := List.map_eq_cons_iff.mp hrest
        rw [List.map_map]
        cases hsample : sampleOf p .vector time field ArrowSample.sample
            ((ev.compileKept p.surfaceExpr ["x", "y"]).2.askedFor .vector (before'.map (·.1))) name n with
        | ok r => exact ⟨r, hsample⟩
        | error f =>
            refine absurd (.plot field before' name n after' hfield hsplit hbound ?_) h
            exact (sampleOf_error_iff (hasked before') huniform).mp ⟨f, hsample⟩

theorem lookup_map_snd {α β γ : Type} [BEq α] (g : β → γ) (l : List (α × β)) (a : α) :
    (l.map fun v => (v.1, g v.2)).lookup a = (l.lookup a).map g := by
  induction l with
  | nil => rfl
  | cons v l ih =>
      rw [List.map_cons, List.lookup_cons, List.lookup_cons, ih]
      cases a == v.1 <;> rfl

end Session

namespace Evaluator

variable {ev : Evaluator}

/-- Variables are numbers, whatever an evaluator is asked. -/
theorem shape_serveAll (h : ∀ v ∈ ev.environment, v.2.shape = []) (rs : List Request) :
    ∀ v ∈ (ev.serveAll rs).environment, v.2.shape = [] := by
  induction rs generalizing ev with
  | nil => exact h
  | cons r rs ih =>
      refine ih ?_
      have hsame : ∀ {e : Assignment}, e = ev.environment → ∀ v ∈ e, v.2.shape = [] := by
        rintro _ rfl
        exact h
      cases r with
      | compile text args => exact hsame (compileKept_environment ev text args)
      | evaluate text values => exact hsame (evaluateKept_environment ev text values)
      | function n => exact hsame (function_environment ev n)
      | vectorFunction n | tensorFunction n => exact hsame (componentFunction_environment ev n _)
      | set n x =>
          intro v hv
          have hinsert : v ∈ ev.environment.insert n (.scalar x) := hv
          rw [Assignment.insert] at hinsert
          split at hinsert
          · obtain ⟨w, hw, rfl⟩ := List.mem_map.mp hinsert
            split
            · rfl
            · exact h w hw
          · rcases List.mem_append.mp hinsert with hv | hv
            · exact h v hv
            · obtain rfl := List.mem_singleton.mp hv
              rfl
      | unset n => exact fun v hv => h v (List.mem_of_mem_filter hv)

end Evaluator

namespace Session

variable {p : Program} {time : Option Float} {ev₀ : Evaluator} {ws₀ : List String}

theorem flow_ofDefinition {ev : Evaluator} {name : String} {d : NamedFunction} {cs : List Prepared}
    (hd : ev.definitions.get? name = some d) (hcs : (ev.vectorFunction name).1 = .ok cs) (values : Assignment) :
    (Flow.ofDefinition ev name values).1 =
      .ok (Flow.ofComponents cs (d.params.length - 2) ev.environment values) := by
  have hextends : Evaluator.Extends ev (ev.vectorFunction name).2 := Evaluator.extends_componentFunction ev name _
  show (ev.vectorFunction name).1.map (fun cs => Flow.ofComponents cs
    (((((ev.vectorFunction name).2.definitions.get? name).map fun d => d.params.length).getD 0) - 2)
      (ev.vectorFunction name).2.environment values) = _
  rw [hcs, hextends.definitions, hextends.environment, hd]
  rfl

/-- The flow and the arrows of a definition have the same components: the
flow at each point, the arrows at the nodes of the grid if there are two
arguments. -/
theorem flow_of_sampleOf {ev : Evaluator} {surface : Field} {name : String} {n : Nat}
    {r : ArrowSample × List String} (henvironment : ∀ v ∈ ev.environment, v.2.shape = [])
    (hkept : ev.ProperlyKept) (hsurface : surface.Uniform)
    (h : sampleOf p .vector time surface ArrowSample.sample ev name n = .ok r) :
    ∃ d cs flow, ev.definitions.get? name = some d ∧ (ev.vectorFunction name).1 = .ok cs ∧
      (Flow.ofDefinition ev name (p.frameValues time)).1 = .ok flow ∧
      (d.params.length ≠ 2 → r.1 = .empty) ∧
      ∀ a b u v w, ev.callAll cs
          (.scalar a :: .scalar b :: List.replicate (d.params.length - 2) (.scalar 0)) (p.frameValues time) =
            .ok [.scalar u, .scalar v, .scalar w] →
        u.isFinite = true → v.isFinite = true → w.isFinite = true → flow a b = .ok (u, v) ∧
          (d.params.length = 2 → a ∈ p.xRange.spaced n → b ∈ p.yRange.spaced n →
            ArrowSample.shortest ≤ ArrowSample.norm [u, v, w] → r.1.Shows a b [u, v, w]) := by
  obtain ⟨cs, hcs, -⟩ := bind_eq_ok.mp h
  obtain ⟨d, hd, hproper⟩ := hkept.proper_componentFunction hcs
  refine ⟨d, cs, _, hd, hcs, flow_ofDefinition hd hcs _, fun hparams => ?_, ?_⟩
  · refine empty_of_sampleOf hsurface h hcs fun c hc => ?_
    rw [(hproper c hc).args_eq]
    exact hparams
  · intro a b u v w hcalls hu hv hw
    refine ⟨Flow.ofComponents_of_callAll hcalls hu hv, fun hparams ha hb hlong => ?_⟩
    rw [hparams] at hcalls
    have hfinite : ∀ c ∈ [u, v, w], c.isFinite = true := by simp [hu, hv, hw]
    exact shows_of_sampleOf henvironment hsurface h hcs ha hb hcalls hfinite hlong

/-- Field lines and arrows of a plotted definition that is bound, after any
requests. The flow of the definition has the components at each point, with
zero for more than two arguments. The arrows have them too at the nodes of
the grid, if there are two arguments; otherwise there are no arrows. -/
theorem arrows_follow_flow (hev : p.evaluator = .ok (ev₀, ws₀)) (rs : List Request) (time : Option Float) (ws : List String) :
    let ev := ev₀.serveAll rs
    let used := asked p ev p.vectorPlots
    let values := p.frameValues time
    ((∃ samples s', (arrows time).run.run ⟨some p, some ev, ws⟩ = (.ok samples, s')) ↔
      ¬ ArrowsEscape p ev time) ∧
    ∀ samples s', (arrows time).run.run ⟨some p, some ev, ws⟩ = (.ok samples, s') →
      s'.evaluator = some used ∧ ∀ name n, p.vectorPlots.reverse.lookup name = some n →
        ev.unbound.lookup name = none → ∃ d cs flow sample, p.definitions.get? name = some d ∧
          (used.vectorFunction name).1 = .ok cs ∧ (Flow.ofDefinition used name values).1 = .ok flow ∧
          samples.lookup name = some sample ∧ (d.params.length ≠ 2 → sample = .empty) ∧
          ∀ a b u v w, used.callAll cs
              (.scalar a :: .scalar b :: List.replicate (d.params.length - 2) (.scalar 0)) values =
                .ok [.scalar u, .scalar v, .scalar w] →
            u.isFinite = true → v.isFinite = true → w.isFinite = true → flow a b = .ok (u, v) ∧
              (d.params.length = 2 → a ∈ p.xRange.spaced n → b ∈ p.yRange.spaced n →
                ArrowSample.shortest ≤ ArrowSample.norm [u, v, w] → sample.Shows a b [u, v, w]) := by
  intro ev used values
  have hprepared : ev₀.prepared = [] := (Evaluator.sameCallables_of_bindAll hev).2
  have henvironment₀ : ev₀.environment = [] := Evaluator.environment_of_bindAll hev
  have henvironment : ∀ v ∈ ev.environment, v.2.shape = [] :=
    Evaluator.shape_serveAll (by rw [henvironment₀]; exact List.forall_mem_nil _) rs
  have hview : Evaluator.SameView (fun _ => True) ev₀ ev :=
    (Evaluator.SameView.refl hprepared).serveAll hprepared fun _ _ _ _ => trivial
  have hextends : Evaluator.Extends ev used :=
    (Evaluator.extends_compileKept ev _ _).trans (Evaluator.extends_askedFor _ _ _)
  have hkept : used.ProperlyKept :=
    (((Evaluator.properlyKept_of_prepared hprepared).serveAll rs).compileKept _ _).askedFor _ _
  have hused : ∀ v ∈ used.environment, v.2.shape = [] := hextends.environment ▸ henvironment
  refine ⟨exists_arrows_iff henvironment ws, fun samples s' h => ?_⟩
  obtain ⟨ws', hrun⟩ := run_arrows p ev ws time
  rw [hrun] at h
  cases hfield : plotted ⟨some p, some ev, []⟩ time with
  | error f =>
      rw [hfield] at h
      cases congrArg Prod.fst h
  | ok field =>
      have huniform := uniform_of_plotted henvironment hfield
      rw [hfield] at h
      obtain ⟨hlast, hsamples⟩ := run_samples h
      rw [List.map_map] at hlast hsamples
      refine ⟨hlast, fun name n hplot hbound => ?_⟩
      obtain ⟨r, hr, hlookup⟩ := (hsamples name).2 n
        (by rw [← List.map_reverse, lookup_map_snd (fun n : Nat => (n : Int)), hplot]; rfl)
        ((Evaluator.extends_compileKept ev _ _).unbound ▸ hbound)
      obtain ⟨d, cs, flow, hd, hcs, hflow, hempty, hnodes⟩ := flow_of_sampleOf hused hkept huniform hr
      have hdefinition : p.definitions.get? name = some d := by
        rw [← hd, hextends.definitions, hview.definitions, (Evaluator.sameCallables_of_bindAll hev).1]
      exact ⟨d, cs, flow, r.1, hdefinition, hcs, hflow, hlookup, hempty, hnodes⟩

/-- A definition of two arguments with the parameter of the animation, at one
of the nodes of its plot. -/
theorem arrows_follow_flow_animated :
    let source := "DEF VEC_F(x, y) = [x, y, t]\nPLOT3D 0*x\nANIMATE t FROM 0 TO 4 STEP 1\nPLOT_VECFIELD VEC_F GRID 2"
    ∃ p ev ws samples s' sample flow, Program.ofSource source = .ok p ∧ p.evaluator = .ok (ev, ws) ∧
      (arrows (some 2)).run.run ⟨some p, some ev, []⟩ = (.ok samples, s') ∧
        samples.lookup "VEC_F" = some sample ∧ sample.Shows (-1) 1 [-1, 1, 2] ∧
          (Flow.ofDefinition (asked p ev p.vectorPlots) "VEC_F" (p.frameValues (some 2))).1 = .ok flow ∧
            flow (-1) 1 = .ok (-1, 1) := by
  intro source
  have hcompiled : ((Program.ofSource source).toOption.bind fun p => p.evaluator.toOption.bind fun r =>
      ((arrows (some 2)).run.run ⟨some p, some r.1, []⟩).1.toOption.bind fun _ =>
        ((asked p r.1 p.vectorPlots).vectorFunction "VEC_F").1.toOption.bind fun cs =>
          ((asked p r.1 p.vectorPlots).callAll cs [.scalar (-1), .scalar 1] (p.frameValues (some 2))).toOption.map
            fun ss => decide (ss.map (fun s => (s.shape, s.data)) = [([], #[-1]), ([], #[1]), ([], #[2])]) &&
              decide (p.vectorPlots.reverse.lookup "VEC_F" = some 2) &&
                decide (r.1.unbound.lookup "VEC_F" = none) &&
                  decide ((p.definitions.get? "VEC_F").map (fun d => d.params.length) = some 2) &&
                    decide (p.xRange.spaced 2 = [-1, 1] ∧ p.yRange.spaced 2 = [-1, 1])) = some true := by
    decide +kernel
  obtain ⟨p, hp, h⟩ := Option.bind_eq_some_iff.mp hcompiled
  obtain ⟨⟨ev, ws⟩, hev, h⟩ := Option.bind_eq_some_iff.mp h
  obtain ⟨samples, hsamples, h⟩ := Option.bind_eq_some_iff.mp h
  obtain ⟨cs, hcs, h⟩ := Option.bind_eq_some_iff.mp h
  obtain ⟨ss, hss, h⟩ := Option.map_eq_some_iff.mp h
  simp only [Bool.and_eq_true, decide_eq_true_eq] at h
  obtain ⟨⟨⟨⟨hcomponents, hplot⟩, hbound⟩, hparams⟩, hxs, hys⟩ := h
  obtain ⟨d, hd, hlength⟩ := Option.map_eq_some_iff.mp hparams
  have hprogram := eq_ok_of_toOption hp
  have hevaluator := eq_ok_of_toOption hev
  cases hrun : (arrows (some 2)).run.run ⟨some p, some ev, []⟩ with
  | mk answer s' =>
      rw [hrun] at hsamples
      obtain rfl := eq_ok_of_toOption hsamples
      obtain ⟨d', cs', flow, sample, hd', hcs', hflow, hsample, -, hnodes⟩ :=
        ((arrows_follow_flow hevaluator [] (some 2) []).2 samples s' hrun).2 "VEC_F" 2 hplot hbound
      obtain rfl := Option.some.inj (hd.symm.trans hd')
      obtain rfl := Except.ok.inj ((eq_ok_of_toOption hcs).symm.trans hcs')
      have hcalls : (asked p ev p.vectorPlots).callAll cs (.scalar (-1) :: .scalar 1 ::
          List.replicate (d.params.length - 2) (.scalar 0)) (p.frameValues (some 2)) =
            .ok [.scalar (-1), .scalar 1, .scalar 2] := by
        rw [hlength]
        refine (eq_ok_of_toOption hss).trans (congrArg Except.ok ?_)
        have hparts : Function.Injective fun s : Samples => (s.shape, s.data) := by
          rintro ⟨_, _⟩ ⟨_, _⟩ heq
          obtain ⟨rfl, rfl⟩ := Prod.mk.inj heq
          rfl
        exact List.map_injective_iff.mpr hparts hcomponents
      obtain ⟨hvalue, hshows⟩ := hnodes (-1) 1 (-1) 1 2 hcalls (by decide +kernel) (by decide +kernel) (by decide +kernel)
      refine ⟨p, ev, ws, samples, s', sample, flow, hprogram, hevaluator, hrun, hsample, ?_, hflow, hvalue⟩
      refine hshows hlength ?_ ?_ (by decide +kernel)
      · rw [hxs]
        exact List.mem_cons_self
      · rw [hys]
        exact List.mem_cons_of_mem _ List.mem_cons_self

/-- A definition of three arguments has no arrows, while its field lines
follow it with zero for the third one. -/
theorem arrows_not_flow :
    let source := "DEF VEC_F(x, y, s) = [3, 4, s]\nPLOT3D 0*x\nPLOT_VECFIELD VEC_F GRID 2"
    ∃ p ev ws samples s' sample, Program.ofSource source = .ok p ∧ p.evaluator = .ok (ev, ws) ∧
      (arrows none).run.run ⟨some p, some ev, []⟩ = (.ok samples, s') ∧
        samples.lookup "VEC_F" = some sample ∧ (∀ a b v, ¬ sample.Shows a b v) ∧
          p.xRange.spaced 2 = [-1, 1] ∧ p.yRange.spaced 2 = [-1, 1] ∧
            (∃ cs, (ev.vectorFunction "VEC_F").1 = .ok cs ∧
              (ev.callAll cs [.scalar (-1), .scalar 1, .scalar 0] (p.frameValues none)).toOption.map
                (fun ss => ss.map fun s => (s.shape, s.data)) = some [([], #[3]), ([], #[4]), ([], #[0])]) ∧
              ArrowSample.shortest ≤ ArrowSample.norm [3, 4, 0] ∧
                ∃ flow, (Flow.ofDefinition ev "VEC_F" (p.frameValues none)).1 = .ok flow ∧
                  flow (-1) 1 = .ok (3, 4) := by
  intro source
  have hcompiled : ((Program.ofSource source).toOption.bind fun p => p.evaluator.toOption.bind fun r =>
      ((arrows none).run.run ⟨some p, some r.1, []⟩).1.toOption.bind fun samples =>
        (samples.lookup "VEC_F").bind fun sample => (r.1.vectorFunction "VEC_F").1.toOption.bind fun cs =>
          (Flow.ofDefinition r.1 "VEC_F" (p.frameValues none)).1.toOption.bind fun flow =>
            (flow (-1) 1).toOption.map fun value => decide (value = (3, 4)) && decide (sample.vectors = []) &&
              decide (p.xRange.spaced 2 = [-1, 1] ∧ p.yRange.spaced 2 = [-1, 1]) &&
                decide ((r.1.callAll cs [.scalar (-1), .scalar 1, .scalar 0] (p.frameValues none)).toOption.map
                  (fun ss => ss.map fun s => (s.shape, s.data)) = some [([], #[3]), ([], #[4]), ([], #[0])])) =
        some true := by
    decide +kernel
  obtain ⟨p, hp, h⟩ := Option.bind_eq_some_iff.mp hcompiled
  obtain ⟨⟨ev, ws⟩, hev, h⟩ := Option.bind_eq_some_iff.mp h
  obtain ⟨samples, hsamples, h⟩ := Option.bind_eq_some_iff.mp h
  obtain ⟨sample, hsample, h⟩ := Option.bind_eq_some_iff.mp h
  obtain ⟨cs, hcs, h⟩ := Option.bind_eq_some_iff.mp h
  obtain ⟨flow, hflow, h⟩ := Option.bind_eq_some_iff.mp h
  obtain ⟨value, hvalue, h⟩ := Option.map_eq_some_iff.mp h
  simp only [Bool.and_eq_true, decide_eq_true_eq] at h
  obtain ⟨⟨⟨hpair, hvectors⟩, hxs, hys⟩, hcalls⟩ := h
  cases hrun : (arrows none).run.run ⟨some p, some ev, []⟩ with
  | mk answer s' =>
      rw [hrun] at hsamples
      obtain rfl := eq_ok_of_toOption hsamples
      refine ⟨p, ev, ws, samples, s', sample, eq_ok_of_toOption hp, eq_ok_of_toOption hev, hrun, hsample, ?_, hxs,
        hys, ⟨cs, eq_ok_of_toOption hcs, hcalls⟩, by decide +kernel, flow, eq_ok_of_toOption hflow, ?_⟩
      · rintro a b v ⟨k, z, -, hk, -⟩
        rw [hvectors] at hk
        cases hk
      · rw [eq_ok_of_toOption hvalue, ← hpair]

end Session
end FieldScript
