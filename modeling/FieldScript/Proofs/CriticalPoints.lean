import FieldScript.Streamline.Seed
import FieldScript.Proofs.FiniteNumbers
import FieldScript.Proofs.Outcome
import FieldScript.Proofs.SquareTables

/-!
# Critical points of a flow

A flow is looked at in the nodes of a square lattice. Its strength there is
a number, or infinite where the length of its direction is not finite. The
critical points are the nodes in which it is below a tolerance and nowhere
larger than in the nodes around, listed row by row
(`Seed.criticalPoints_exactly`). A node at the border has fewer nodes around
it: what lies outside the table of strengths does not count, as if it were
infinite (`Seed.isCritical_iff`).

Numbers are linearly ordered, so a lattice has a node of least strength.
It is critical if it is below the tolerance.
-/

/-- Those for which the condition holds, each replaced by a value. -/
theorem List.filterMap_ite {β γ : Type} (p : β → Bool) (f : β → γ) (as : List β) :
    (as.filterMap fun a => if p a then some (f a) else none) = (as.filter p).map f := by
  induction as with
  | nil => rfl
  | cons a as ih =>
      rw [List.filterMap_cons, List.filter_cons]
      by_cases h : p a <;> simp [h, ih]

theorem List.zipIdx_map_range {β : Type} (f : Nat → β) (n : Nat) :
    ((List.range n).map f).zipIdx = (List.range n).map fun i => (f i, i) := by
  refine List.ext_getElem (by simp) fun i _ _ => ?_
  simp

namespace FieldScript

/-! ## Nodes -/

namespace Interval

variable {α : Type} [Scalar α]

/-- The place of a number in a row of evenly spaced ones. -/
def node (r : Interval α) (n i : Nat) : α := (r.spaced n).getD i r.low

theorem spaced_eq_map (r : Interval α) (n : Nat) : r.spaced n = (List.range n).map (r.node n) := by
  have hlength : (r.spaced n).length = n := by
    rw [spaced]
    split
    · rename_i hone
      exact (beq_iff_eq.mp hone).symm
    · rw [List.length_map, List.length_range]
  refine List.ext_getElem (by simp [hlength]) fun i hi _ => ?_
  simp [node, List.getElem?_eq_getElem hi]

theorem spaced?_natCast (r : Interval α) (n : Nat) : r.spaced? (n : Int) = .ok (r.spaced n) := by
  rw [spaced?, if_neg (by omega), Int.toNat_natCast]

end Interval

namespace Seed

section Scan

variable {α : Type} [Scalar α]

/-- The node of a square lattice in a row and a column. -/
def latticeNode (xRange yRange : Interval α) (n : Nat) (c : Nat × Nat) : Point2 α :=
  ⟨xRange.node n c.2, yRange.node n c.1⟩

/-- The strength of a flow with these directions; none where it is not finite. -/
def strengthOf (F : α → α → α × α) (p : Point2 α) : Option α :=
  let m := Scalar.hypot (F p.x p.y).1 (F p.x p.y).2
  if Scalar.isFinite m then some m else none

/-- The strengths in all nodes, as they are looked up. -/
def strengths (F : α → α → α × α) (xRange yRange : Interval α) (n : Nat) : Array (Array (Option α)) :=
  ((table n fun c => strengthOf F (latticeNode xRange yRange n c)).map List.toArray).toArray

variable {flow : Flow α} {F : α → α → α × α} {xRange yRange : Interval α} {n : Nat} {tolerance : α}

theorem strengthIn_strengths (c : Nat × Nat) : strengthIn (strengths F xRange yRange n) c.1 c.2 =
    if c.1 < n ∧ c.2 < n then strengthOf F (latticeNode xRange yRange n c) else none := by
  have hlookup : strengthIn (strengths F xRange yRange n) c.1 c.2 =
      ((table n fun c => strengthOf F (latticeNode xRange yRange n c))[c.1]?.bind (·[c.2]?)).join := by
    simp [strengthIn, strengths, Option.bind_map]
  rw [hlookup]
  split <;> rename_i h
  · rw [getElem?_table h.1 h.2]
    rfl
  · rw [getElem?_table_eq_none h]
    rfl

/-- The rows or the columns differ, and neither by more than one. -/
def Beside (c c' : Nat × Nat) : Prop :=
  c' ≠ c ∧ c'.1 ≤ c.1 + 1 ∧ c.1 ≤ c'.1 + 1 ∧ c'.2 ≤ c.2 + 1 ∧ c.2 ≤ c'.2 + 1

/-- A node is critical if its strength is below the tolerance and at most
its own and those of the nodes around it. -/
theorem isCritical_iff {c : Nat × Nat} (hc : c ∈ places n) :
    let strength c := strengthOf F (latticeNode xRange yRange n c)
    isCritical (strengths F xRange yRange n) tolerance c.1 c.2 = true ↔
      isBelow tolerance (strength c) = true ∧ atMost (strength c) (strength c) = true ∧
        ∀ c' ∈ places n, Beside c c' → atMost (strength c) (strength c') = true := by
  intro strength
  have hinside : ∀ c' ∈ places n, strengthIn (strengths F xRange yRange n) c'.1 c'.2 = strength c' :=
    fun c' hc' => (strengthIn_strengths c').trans (if_pos (mem_places.mp hc'))
  rw [isCritical, hinside c hc, Bool.and_eq_true, List.all_eq_true]
  refine and_congr_right fun _ => ?_
  simp only [List.all_eq_true, List.mem_range, Bool.or_eq_true, beq_iff_eq]
  constructor
  · -- A node around is reached by steps of zero to two from the corner below.
    intro hall
    have haround : ∀ c' ∈ places n, c'.1 ≤ c.1 + 1 → c.1 ≤ c'.1 + 1 → c'.2 ≤ c.2 + 1 → c.2 ≤ c'.2 + 1 →
        atMost (strength c) (strength c') = true := by
      intro c' hc' _ _ _ _
      have hat := hall (c'.1 + 1 - c.1) (by omega) (c'.2 + 1 - c.2) (by omega)
      have hrow : c.1 + (c'.1 + 1 - c.1) - 1 = c'.1 := by omega
      have hcolumn : c.2 + (c'.2 + 1 - c.2) - 1 = c'.2 := by omega
      rw [hrow, hcolumn, hinside c' hc'] at hat
      rcases hat with (hzero | hzero) | hat
      · omega
      · omega
      · exact hat
    exact ⟨haround c hc (by omega) (by omega) (by omega) (by omega),
      fun c' hc' ⟨_, h1, h2, h3, h4⟩ => haround c' hc' h1 h2 h3 h4⟩
  · rintro ⟨hself, haround⟩ dj hdj di hdi
    by_cases hborder : c.1 + dj = 0 ∨ c.2 + di = 0
    · exact Or.inl hborder
    · refine Or.inr ?_
      have hlookup : strengthIn (strengths F xRange yRange n) (c.1 + dj - 1) (c.2 + di - 1) = _ :=
        strengthIn_strengths (c.1 + dj - 1, c.2 + di - 1)
      rw [hlookup]
      split <;> rename_i hin
      · by_cases hsame : (c.1 + dj - 1, c.2 + di - 1) = c
        · rw [hsame]
          exact hself
        · exact haround _ (mem_places.mpr hin) ⟨hsame, by omega, by omega, by omega, by omega⟩
      · cases strength c <;> rfl

/-- The directions are those of the flow, where it has one. -/
def Gives (flow : Flow α) (F : α → α → α × α) : Prop := ∀ x y v, flow x y = .ok v → F x y = v

theorem strength_eq_ok_iff (hF : Gives flow F) (p : Point2 α) {m : Option α} :
    strength flow p.x p.y = .ok m ↔ (∃ v, flow p.x p.y = .ok v) ∧ m = strengthOf F p := by
  rw [strength, bind_eq_ok]
  constructor
  · rintro ⟨v, hv, hm⟩
    obtain rfl := hF _ _ _ hv
    exact ⟨⟨_, hv⟩, (Except.ok.inj hm).symm⟩
  · rintro ⟨⟨v, hv⟩, rfl⟩
    obtain rfl := hF _ _ _ hv
    exact ⟨_, hv, rfl⟩

/-- The flow has a direction in each node. -/
def AnswersOn (flow : Flow α) (xRange yRange : Interval α) (n : Nat) : Prop :=
  ∀ c ∈ places n, ∃ v,
    flow (latticeNode xRange yRange n c).x (latticeNode xRange yRange n c).y = .ok v

theorem mapM_strength_eq_ok_iff (hF : Gives flow F) {rows : List (List (Option α))} :
    ((yRange.spaced n).mapM fun y => (xRange.spaced n).mapM fun x => strength flow x y) = .ok rows ↔
      AnswersOn flow xRange yRange n ∧ rows = table n fun c => strengthOf F (latticeNode xRange yRange n c) := by
  rw [Interval.spaced_eq_map, Interval.spaced_eq_map]
  have hanswers : AnswersOn flow xRange yRange n →
      (((List.range n).map (yRange.node n)).mapM fun y =>
        ((List.range n).map (xRange.node n)).mapM fun x => strength flow x y) =
      .ok (table n fun c => strengthOf F (latticeNode xRange yRange n c)) := by
    intro hall
    rw [table, List.mapM_map]
    refine mapM_eq_map fun j hj => ?_
    rw [Function.comp_apply, List.mapM_map]
    refine mapM_eq_map fun i hi => ?_
    have hc : (j, i) ∈ places n := mem_places.mpr ⟨List.mem_range.mp hj, List.mem_range.mp hi⟩
    exact (strength_eq_ok_iff hF (latticeNode xRange yRange n (j, i))).mpr ⟨hall _ hc, rfl⟩
  constructor
  · intro h
    have hall : AnswersOn flow xRange yRange n := by
      intro c hc
      obtain ⟨hj, hi⟩ := mem_places.mp hc
      obtain ⟨row, -, hrow⟩ := (mem_of_mapM_ok h).1 _ (List.mem_map_of_mem (List.mem_range.mpr hj))
      obtain ⟨m, -, hm⟩ := (mem_of_mapM_ok hrow).1 _ (List.mem_map_of_mem (List.mem_range.mpr hi))
      exact ((strength_eq_ok_iff hF (latticeNode xRange yRange n c)).mp hm).1
    exact ⟨hall, Except.ok.inj (h.symm.trans (hanswers hall))⟩
  · rintro ⟨hall, rfl⟩
    exact hanswers hall

/-- The nodes that are critical. -/
def criticalNodes (F : α → α → α × α) (xRange yRange : Interval α) (n : Nat) (tolerance : α) :
    List (Nat × Nat) :=
  (places n).filter fun c => isCritical (strengths F xRange yRange n) tolerance c.1 c.2

/-- The scan ends if the flow has a direction in each node, and finds the
critical nodes. -/
theorem criticalPoints_eq_ok_iff (hF : Gives flow F) {ps : List (Point2 α)} :
    criticalPoints flow xRange yRange n tolerance = .ok ps ↔ AnswersOn flow xRange yRange n ∧
      ps = (criticalNodes F xRange yRange n tolerance).map (latticeNode xRange yRange n) := by
  have hpoints : ∀ t : Array (Array (Option α)),
      ((yRange.spaced n).zipIdx.flatMap fun row => (xRange.spaced n).zipIdx.filterMap fun column =>
        if isCritical t tolerance row.2 column.2 then some (⟨column.1, row.1⟩ : Point2 α) else none) =
      ((places n).filter fun c => isCritical t tolerance c.1 c.2).map (latticeNode xRange yRange n) := by
    intro t
    rw [Interval.spaced_eq_map, Interval.spaced_eq_map, List.zipIdx_map_range, List.zipIdx_map_range,
      List.flatMap_map, places_eq, List.filter_flatMap, List.map_flatMap]
    refine List.flatMap_congr fun j _ => ?_
    dsimp only
    rw [List.filterMap_map, List.filter_map, List.map_map]
    exact List.filterMap_ite _ _ _
  have hscan : criticalPoints flow xRange yRange n tolerance =
      ((yRange.spaced n).mapM fun y => (xRange.spaced n).mapM fun x => strength flow x y) >>= fun rows =>
        .ok ((yRange.spaced n).zipIdx.flatMap fun row => (xRange.spaced n).zipIdx.filterMap fun column =>
          if isCritical (rows.map List.toArray).toArray tolerance row.2 column.2 then some ⟨column.1, row.1⟩
          else none) := by
    rw [criticalPoints, Interval.spaced?_natCast, Interval.spaced?_natCast]
    rfl
  rw [hscan]
  constructor
  · intro h
    obtain ⟨rows, hrows, hps⟩ := bind_eq_ok.mp h
    obtain ⟨hall, rfl⟩ := (mapM_strength_eq_ok_iff hF).mp hrows
    exact ⟨hall, (Except.ok.inj hps).symm.trans (hpoints _)⟩
  · rintro ⟨hall, rfl⟩
    exact bind_eq_ok.mpr ⟨_, (mapM_strength_eq_ok_iff hF).mpr ⟨hall, rfl⟩, congrArg _ (hpoints _)⟩

/-- The directions of a flow, and any where it has none. -/
def directions (flow : Flow α) : α → α → α × α := fun x y => (flow x y).toOption.getD (0, 0)

theorem gives_directions (flow : Flow α) : Gives flow (directions flow) := fun x y v h => by
  rw [directions, h]
  rfl

/-- The scan needs a lattice with a number of rows, and a direction in each node. -/
theorem exists_criticalPoints_iff (flow : Flow α) (xRange yRange : Interval α) (resolution : Int) (tolerance : α) :
    (∃ ps, criticalPoints flow xRange yRange resolution tolerance = .ok ps) ↔
      0 ≤ resolution ∧ AnswersOn flow xRange yRange resolution.toNat := by
  by_cases hcount : 0 ≤ resolution
  · obtain ⟨n, rfl⟩ := Int.eq_ofNat_of_zero_le hcount
    constructor
    · rintro ⟨ps, hps⟩
      exact ⟨hcount, ((criticalPoints_eq_ok_iff (gives_directions flow)).mp hps).1⟩
    · rintro ⟨-, hall⟩
      exact ⟨_, (criticalPoints_eq_ok_iff (gives_directions flow)).mpr ⟨hall, rfl⟩⟩
  · have hfails : xRange.spaced? resolution = .error .invalidValue := if_pos (by omega)
    rw [criticalPoints, hfails]
    simp [hcount, bind, Except.bind]

end Scan

/-! ## Numbers -/

open Binary64

/-- The length of the direction in a point, infinite where it is not finite. -/
def speed (F : Float → Float → Float × Float) (p : Point2 Float) : Float :=
  let m := Scalar.hypot (F p.x p.y).1 (F p.x p.y).2
  if m.isFinite then m else infinity

section Speeds

variable {F : Float → Float → Float × Float} {p q : Point2 Float} {tolerance : Float}

theorem isNumber_speed (F : Float → Float → Float × Float) (p : Point2 Float) : IsNumber (speed F p) := by
  rw [speed]
  split
  · exact isNumber_of_isFinite ‹_›
  · exact isNumber_infinity

theorem strengthOf_cases (F : Float → Float → Float × Float) (p : Point2 Float) :
    (speed F p).isFinite = true ∧ strengthOf F p = some (speed F p) ∨
      speed F p = infinity ∧ strengthOf F p = none := by
  rw [speed, strengthOf]
  split <;> rename_i h
  · exact Or.inl ⟨h, if_pos h⟩
  · exact Or.inr ⟨rfl, if_neg h⟩

theorem isBelow_iff (ht : IsNumber tolerance) :
    isBelow tolerance (strengthOf F p) = true ↔ speed F p < tolerance := by
  have hspeed := isNumber_speed F p
  have hnot : ¬ tolerance ≤ speed F p ↔ speed F p < tolerance := by
    rw [le_iff ht hspeed, lt_iff hspeed ht, not_le]
  rcases strengthOf_cases F p with ⟨-, hsome⟩ | ⟨hinfinite, hnone⟩
  · rw [hsome, isBelow, Bool.not_eq_true', ← hnot, ← Bool.not_eq_true]
    exact not_congr decide_eq_true_iff
  · have hself : Scalar.equal tolerance tolerance = true := beq_refl ht
    rw [hnone, isBelow, hself, ← hnot, hinfinite]
    simp [le_infinity ht]

theorem atMost_iff : atMost (strengthOf F p) (strengthOf F q) = true ↔ speed F p ≤ speed F q := by
  rcases strengthOf_cases F q with ⟨hfinite, hsome⟩ | ⟨hinfinite, hnone⟩
  · rw [hsome]
    rcases strengthOf_cases F p with ⟨-, hsome'⟩ | ⟨hinfinite', hnone'⟩
    · rw [hsome']
      exact decide_eq_true_iff
    · rw [hnone', hinfinite']
      simp [atMost, not_infinity_le hfinite]
  · rw [hnone, hinfinite]
    simp [atMost, le_infinity (isNumber_speed F p)]

end Speeds

/-! ## Critical nodes -/

/-- A node is critical if the flow is slower there than the tolerance, and
nowhere slower in the nodes around. -/
structure Critical (F : Float → Float → Float × Float) (xRange yRange : Interval Float) (n : Nat)
    (tolerance : Float) (c : Nat × Nat) : Prop where
  inside : c ∈ places n
  slow : speed F (latticeNode xRange yRange n c) < tolerance
  least : ∀ c' ∈ places n, Beside c c' →
    speed F (latticeNode xRange yRange n c) ≤ speed F (latticeNode xRange yRange n c')

section Nodes

variable {flow : Flow Float} {F : Float → Float → Float × Float} {xRange yRange : Interval Float} {n : Nat}
  {tolerance : Float} {c : Nat × Nat}

theorem mem_criticalNodes (ht : IsNumber tolerance) :
    c ∈ criticalNodes F xRange yRange n tolerance ↔ Critical F xRange yRange n tolerance c := by
  rw [criticalNodes, List.mem_filter]
  constructor
  · rintro ⟨hc, hcritical⟩
    obtain ⟨hbelow, -, haround⟩ := (isCritical_iff hc).mp hcritical
    exact ⟨hc, (isBelow_iff ht).mp hbelow, fun c' hc' hbeside => atMost_iff.mp (haround c' hc' hbeside)⟩
  · rintro ⟨hc, hslow, hleast⟩
    have hself : speed F (latticeNode xRange yRange n c) ≤ speed F (latticeNode xRange yRange n c) :=
      (le_iff (isNumber_speed _ _) (isNumber_speed _ _)).mpr le_rfl
    exact ⟨hc, (isCritical_iff hc).mpr ⟨(isBelow_iff ht).mpr hslow, atMost_iff.mpr hself,
      fun c' hc' hbeside => atMost_iff.mpr (hleast c' hc' hbeside)⟩⟩

/-- A node in which the flow is slowest of all is critical if the flow is
slow there. -/
theorem critical_of_slowest (hc : c ∈ places n) (hslow : speed F (latticeNode xRange yRange n c) < tolerance)
    (hall : ∀ c' ∈ places n, speed F (latticeNode xRange yRange n c) ≤ speed F (latticeNode xRange yRange n c')) :
    Critical F xRange yRange n tolerance c :=
  ⟨hc, hslow, fun c' hc' _ => hall c' hc'⟩

/-- If the flow is slow in some node, the slowest of all is critical. -/
theorem exists_critical_iff (ht : IsNumber tolerance) :
    (∃ c, Critical F xRange yRange n tolerance c) ↔
      ∃ c ∈ places n, speed F (latticeNode xRange yRange n c) < tolerance := by
  constructor
  · rintro ⟨c, hc⟩
    exact ⟨c, hc.inside, hc.slow⟩
  · rintro ⟨c, hc, hslow⟩
    obtain ⟨c₀, hc₀, hmin⟩ := (places n).toFinset.exists_min_image
      (fun c => place (speed F (latticeNode xRange yRange n c))) ⟨c, List.mem_toFinset.mpr hc⟩
    have hle : ∀ c' ∈ places n,
        speed F (latticeNode xRange yRange n c₀) ≤ speed F (latticeNode xRange yRange n c') := fun c' hc' =>
      (le_iff (isNumber_speed _ _) (isNumber_speed _ _)).mpr (hmin c' (List.mem_toFinset.mpr hc'))
    have hslow₀ : speed F (latticeNode xRange yRange n c₀) < tolerance := by
      rw [lt_iff (isNumber_speed _ _) ht] at hslow ⊢
      exact (hmin c (List.mem_toFinset.mpr hc)).trans_lt hslow
    exact ⟨c₀, critical_of_slowest (List.mem_toFinset.mp hc₀) hslow₀ hle⟩

theorem latticeNode_inj (hx : (xRange.spaced n).Nodup) (hy : (yRange.spaced n).Nodup) {c c' : Nat × Nat}
    (hc : c ∈ places n) (hc' : c' ∈ places n)
    (h : latticeNode xRange yRange n c = latticeNode xRange yRange n c') : c = c' := by
  rw [Interval.spaced_eq_map] at hx hy
  obtain ⟨hxs, hys⟩ := Point2.mk.inj h
  obtain ⟨hj, hi⟩ := mem_places.mp hc
  obtain ⟨hj', hi'⟩ := mem_places.mp hc'
  exact Prod.ext (List.inj_on_of_nodup_map hy (List.mem_range.mpr hj) (List.mem_range.mpr hj') hys)
    (List.inj_on_of_nodup_map hx (List.mem_range.mpr hi) (List.mem_range.mpr hi') hxs)

/-- The points that are found: the nodes `cs`, row by row, which are the
critical ones. -/
structure Found (F : Float → Float → Float × Float) (xRange yRange : Interval Float) (n : Nat)
    (tolerance : Float) (cs : List (Nat × Nat)) (ps : List (Point2 Float)) : Prop where
  points : ps = cs.map (latticeNode xRange yRange n)
  inOrder : cs.Pairwise ReadBefore
  critical : ∀ c, c ∈ cs ↔ Critical F xRange yRange n tolerance c
  slowest : ∀ c ∈ places n, speed F (latticeNode xRange yRange n c) < tolerance →
    (∀ c' ∈ places n, speed F (latticeNode xRange yRange n c) ≤ speed F (latticeNode xRange yRange n c')) → c ∈ cs
  nonempty : ps ≠ [] ↔ ∃ c ∈ places n, speed F (latticeNode xRange yRange n c) < tolerance
  /-- Points of different nodes differ, unless coordinates of the lattice fall together. -/
  distinct : (xRange.spaced n).Nodup → (yRange.spaced n).Nodup → ps.Nodup

theorem found_criticalNodes (ht : IsNumber tolerance) :
    Found F xRange yRange n tolerance (criticalNodes F xRange yRange n tolerance)
      ((criticalNodes F xRange yRange n tolerance).map (latticeNode xRange yRange n)) where
  points := rfl
  inOrder := (pairwise_places n).filter _
  critical c := mem_criticalNodes ht
  slowest c hc hslow hall := (mem_criticalNodes ht).mpr (critical_of_slowest hc hslow hall)
  nonempty := by
    rw [← exists_critical_iff ht, Ne, List.map_eq_nil_iff, List.eq_nil_iff_forall_not_mem, not_forall_not]
    exact exists_congr fun c => mem_criticalNodes ht
  distinct hx hy := by
    have hnodup : (criticalNodes F xRange yRange n tolerance).Nodup :=
      ((pairwise_places n).filter _).imp ReadBefore.ne
    refine hnodup.map_on fun c hc c' hc' h => ?_
    exact latticeNode_inj hx hy (List.mem_filter.mp hc).1 (List.mem_filter.mp hc').1 h

/-- The scan answers exactly if the flow does in every node. It finds the
critical nodes, row by row and each once: those in which the flow is slow
and nowhere slower in the nodes around. So every slow node in which it is
slowest of all is found, and there is some if it is slow anywhere. -/
theorem criticalPoints_exactly (flow : Flow Float) (xRange yRange : Interval Float) (n : Nat)
    (htolerance : 0 < tolerance) :
    ((∃ ps, criticalPoints flow xRange yRange n tolerance = .ok ps) ↔ AnswersOn flow xRange yRange n) ∧
    ∀ F, Gives flow F → ∀ ps, criticalPoints flow xRange yRange n tolerance = .ok ps →
      ∃ cs, Found F xRange yRange n tolerance cs ps := by
  have ht : IsNumber tolerance := (isNumber_of_lt htolerance).2
  constructor
  · rw [exists_criticalPoints_iff, and_iff_right (by omega), Int.toNat_natCast]
  · intro F hF ps hps
    obtain ⟨-, rfl⟩ := (criticalPoints_eq_ok_iff hF).mp hps
    exact ⟨_, found_criticalNodes ht⟩

/-- A flow away from a line, on which it stands still. -/
def fromLine (x _y : Float) : Float × Float := (x, 0)

/-- The points on the line are found in a lattice of three rows. -/
theorem criticalPoints_exactly_fromLine : (0 : Float) < 0.05 ∧ (Gives (fun x y => .ok (fromLine x y)) fromLine) ∧
    ∃ cs ps, criticalPoints (fun x y => .ok (fromLine x y)) ⟨-1, 1⟩ ⟨-1, 1⟩ (3 : Nat) 0.05 = .ok ps ∧
      Found fromLine ⟨-1, 1⟩ ⟨-1, 1⟩ 3 0.05 cs ps ∧ ps.Nodup ∧ ∀ j < 3, (j, 1) ∈ cs := by
  have hpositive : (0 : Float) < 0.05 := by decide +kernel
  have hgives : Gives (fun x y => .ok (fromLine x y)) fromLine := fun x y v h => Except.ok.inj h
  obtain ⟨hanswer, hfound⟩ := criticalPoints_exactly (fun x y => .ok (fromLine x y)) ⟨-1, 1⟩ ⟨-1, 1⟩ 3 hpositive
  obtain ⟨ps, hps⟩ := hanswer.mpr fun c _ => ⟨_, rfl⟩
  obtain ⟨cs, hcs⟩ := hfound fromLine hgives ps hps
  have hdistinct : ((⟨-1, 1⟩ : Interval Float).spaced 3).Nodup := by decide +kernel
  refine ⟨hpositive, hgives, cs, ps, hps, hcs, hcs.distinct hdistinct hdistinct, fun j hj => ?_⟩
  refine hcs.slowest _ (mem_places.mpr ⟨hj, by simp⟩) ?_ ?_
  · revert j
    decide +kernel
  · revert j
    decide +kernel

end Nodes
end Seed
end FieldScript
