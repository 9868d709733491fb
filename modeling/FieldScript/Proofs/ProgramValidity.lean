import FieldScript.Proofs.DraftInvariant

/-!
# Accepted programs are valid

The engines take a program as it is: they divide by the spans of its
ranges, bind its definitions in its order, look up the definitions of its
plots and step through its animation. `Program.Valid` collects what they
rely on, and `Program.valid_of_ofSource` shows it of every source that is
accepted.

Most of it comes from the draft (`Draft.Sound`). What is added when a
draft is completed is the order of the definitions, the surface in front
of plots without one, the levels in ascending order and the values of the
animation.
-/

namespace FieldScript

open Binary64

/-! ## Levels in ascending order -/

namespace Program

theorem mem_of_mem_distinct {ls : List Float} {x : Float} (h : x ∈ distinct ls) : x ∈ ls := by
  induction ls with
  | nil => cases h
  | cons y rest ih =>
      rcases List.mem_cons.mp h with rfl | hx
      · exact List.mem_cons_self
      · exact List.mem_cons_of_mem _ (ih (List.mem_filter.mp hx).1)

theorem distinct_pairwise (ls : List Float) :
    (distinct ls).Pairwise fun x y => (x == y) = false := by
  induction ls with
  | nil => exact List.Pairwise.nil
  | cons x rest ih =>
      refine List.Pairwise.cons ?_ (ih.filter _)
      intro y hy
      have hne := (List.mem_filter.mp hy).2
      rw [bne, Bool.not_eq_true'] at hne
      rw [Bool.eq_false_iff]
      exact fun hxy => Bool.eq_false_iff.mp hne (beq_symm hxy)

/-- Finite levels are sorted by their places, which are linearly
ordered. -/
theorem sortedLevels_eq {ls : List Float} (h : ∀ x ∈ ls, x.isFinite) :
    sortedLevels ls = (distinct ls).mergeSort fun x y => decide (place x ≤ place y) := by
  have hsort := List.map_mergeSort (r := fun x y => decide (x ≤ y))
    (s := fun x y => decide (place x ≤ place y)) (f := id) (l := distinct ls) ?_
  · rw [List.map_id, List.map_id] at hsort
    exact hsort
  · intro x hx y hy
    have hx := isNumber_of_isFinite (h x (mem_of_mem_distinct hx))
    have hy := isNumber_of_isFinite (h y (mem_of_mem_distinct hy))
    exact decide_eq_decide.mpr (le_iff hx hy)

theorem mem_of_mem_sortedLevels {ls : List Float} {x : Float} (h : x ∈ sortedLevels ls) : x ∈ ls :=
  mem_of_mem_distinct (List.mem_mergeSort.mp h)

theorem sortedLevels_ne_nil {ls : List Float} (h : ls ≠ []) : sortedLevels ls ≠ [] := by
  cases ls with
  | nil => exact absurd rfl h
  | cons x rest =>
      have hx : x ∈ sortedLevels (x :: rest) := List.mem_mergeSort.mpr List.mem_cons_self
      exact List.ne_nil_of_mem hx

/-- Sorting makes the places ascend, and no place comes twice. -/
theorem sortedLevels_pairwise {ls : List Float} (h : ∀ x ∈ ls, x.isFinite) :
    (sortedLevels ls).Pairwise (· < ·) := by
  have hle : (sortedLevels ls).Pairwise fun x y => place x ≤ place y := by
    rw [sortedLevels_eq h]
    refine (List.pairwise_mergeSort ?_ ?_ _).imp fun hxy => of_decide_eq_true hxy
    · intro x y z hxy hyz
      exact decide_eq_true ((of_decide_eq_true hxy).trans (of_decide_eq_true hyz))
    · intro x y
      simpa using le_total (place x) (place y)
  have hne : (sortedLevels ls).Pairwise fun x y => (x == y) = false := by
    have hsymm : ∀ {x y : Float}, (x == y) = false → (y == x) = false := by
      intro x y hxy
      rw [Bool.eq_false_iff] at hxy ⊢
      exact fun hyx => hxy (beq_symm hyx)
    exact ((List.mergeSort_perm (distinct ls) _).symm.pairwise_iff hsymm).mp (distinct_pairwise ls)
  refine (hle.and hne).imp_of_mem fun {x y} hx hy hxy => ?_
  have hx := isNumber_of_isFinite (h x (mem_of_mem_sortedLevels hx))
  have hy := isNumber_of_isFinite (h y (mem_of_mem_sortedLevels hy))
  rw [lt_iff hx hy]
  refine lt_of_le_of_ne hxy.1 fun hplace => ?_
  exact Bool.eq_false_iff.mp hxy.2 ((beq_iff hx hy).mpr hplace)

/-! ## Values of animations -/

theorem isFinite_of_constantValue {ds : Definitions} {order : List String} {line : Nat}
    {text : String} {x : Float} (h : constantValue ds order line text = .ok x) : x.isFinite := by
  have hfinite : ∀ value : Float,
      (if value.isFinite then pure value else failAt line (.notFinite text)) = Except.ok x →
        x.isFinite := by
    intro value hvalue
    split at hvalue
    · rename_i hf
      exact Except.ok.inj hvalue ▸ hf
    · cases hvalue
  unfold constantValue at h
  dsimp only at h
  split at h
  · exact hfinite _ h
  · obtain ⟨⟨ev, ws⟩, -, h⟩ := bind_eq_ok.mp h
    dsimp only at h
    split at h
    · exact hfinite _ h
    · split at h <;> cases h

/-- The parts of an animation are finite and its step is positive. -/
theorem animationOf_ok {ds : Definitions} {order : List String}
    {a : Nat × String × String × String × String} {b : Animation Float}
    (h : animationOf ds order a = .ok b) :
    b.start.isFinite ∧ b.stop.isFinite ∧ b.step.isFinite ∧ 0 < b.step := by
  obtain ⟨line, parameter, start, stop, step⟩ := a
  unfold animationOf at h
  dsimp only at h
  obtain ⟨x, hx, h⟩ := bind_eq_ok.mp h
  obtain ⟨y, hy, h⟩ := bind_eq_ok.mp h
  obtain ⟨z, hz, h⟩ := bind_eq_ok.mp h
  have hzf := isFinite_of_constantValue hz
  split at h
  · cases h
  · rename_i hle
    obtain rfl := Except.ok.inj h
    refine ⟨isFinite_of_constantValue hx, isFinite_of_constantValue hy, hzf, ?_⟩
    exact lt_of_not_le (isNumber_of_isFinite (by decide +kernel)) (isNumber_of_isFinite hzf) hle

/-! ## The plots of a program -/

/-- The line starts with this word. -/
def StartsWith (word : String) (l : LogicalLine) : Prop :=
  ∃ t rest, tokenize l.text = t :: rest ∧ t.isWord [word]

/-- A line that plots a surface is read as one, if it is read. -/
theorem surface_of_parse {l : LogicalLine} {s : Statement} (hl : StartsWith "PLOT3D" l)
    (h : Statement.parse l = .ok s) : ∃ e, s = ⟨l.line, .surface e⟩ := by
  obtain ⟨t, rest, htokens, ht⟩ := hl
  obtain ⟨hkind, hword⟩ := Statement.isWord_singleton.mp ht
  rw [Statement.parse, htokens, List.head?_cons, Option.bind_some, hkind, hword] at h
  replace h : (Statement.readSurface l (t :: rest)).map (⟨l.line, ·⟩) = .ok s := h
  rw [Statement.readSurface, Statement.expectWord_cons ht] at h
  replace h : Except.map (fun b => Statement.mk l.line b)
    (if (Statement.textOf l rest).isEmpty = true then _ else _) = .ok s := h
  split at h
  · cases h
  · exact ⟨_, (Except.ok.inj h).symm⟩

/-- Where no surface is written, one stands in front of the other plots. -/
theorem withSurface_ok {lines : Nat} {plots plots' : List Plot}
    (h : withSurface lines plots = .ok plots') :
    (plots' = plots ∧ ∃ q ∈ plots, q.isSurface = true) ∨
      (plots' = .surface "0" "" true :: plots ∧ ∀ q ∈ plots, q.isSurface = false) := by
  unfold withSurface at h
  split at h
  · rename_i hany
    exact Or.inl ⟨(Except.ok.inj h).symm, List.any_eq_true.mp hany⟩
  · rename_i hany
    split at h
    · cases h
    · exact Or.inr ⟨(Except.ok.inj h).symm, by simpa using hany⟩

/-- Resolving a plot keeps all but the expression of a surface. -/
theorem plotWritten_resolvePlot {ds : Definitions} {q : Plot} (h : PlotWritten q) :
    PlotWritten (resolvePlot ds q) := by
  cases q <;> exact h

/-- A vector field in the draft has a vector definition, and likewise for
tensors. -/
theorem checkPlot_ok {ds : Definitions} {line : Nat} {q : Plot}
    (h : checkPlot ds line q = .ok ()) :
    (∀ n g, q = .vectorField n g → ∃ f, ds.get? n = some f ∧ f.kind = .vector) ∧
      ∀ n g, q = .tensorField n g → ∃ f, ds.get? n = some f ∧ f.kind = .tensor := by
  have hkind : ∀ n (k : DefinitionKind), (ds.get? n).any (·.kind == k) = true →
      ∃ f, ds.get? n = some f ∧ f.kind = k := by
    intro n k hany
    cases hget : ds.get? n with
    | none =>
        rw [hget] at hany
        cases hany
    | some f =>
        rw [hget] at hany
        exact ⟨f, rfl, beq_iff_eq.mp hany⟩
  constructor <;> rintro n g rfl
  all_goals
    rw [checkPlot] at h
    split at h
    · exact hkind _ _ ‹_›
    · cases h

/-! ## Valid programs -/

/-- What the engines rely on. -/
structure Valid (p : Program) : Prop where
  xRange : p.xRange.Proper
  yRange : p.yRange.Proper
  zRange : p.zRange.Proper
  names : p.definitions.names.Nodup
  order : p.order.Perm p.definitions.names
  /-- A name comes after all defined names that its body mentions. -/
  follows : ∀ before n after, p.order = before ++ n :: after → ∀ f, p.definitions.get? n = some f →
    ∀ m ∈ p.definitions.names, Definitions.Mentions f m → m ∈ before
  surface : ∃ q ∈ p.plots, q.isSurface = true
  /-- A surface that was not written is the only one and stands in front. -/
  implicit : ∀ before e source after, p.plots = before ++ .surface e source true :: after →
    before = [] ∧ ∀ q ∈ after, q.isSurface = false
  vectorField : ∀ n gridSize, .vectorField n gridSize ∈ p.plots →
    (∃ f, p.definitions.get? n = some f ∧ f.kind = .vector) ∧
      2 ≤ gridSize ∧ gridSize ≤ maxGridSize
  tensorField : ∀ n glyph, .tensorField n glyph ∈ p.plots →
    ∃ f, p.definitions.get? n = some f ∧ f.kind = .tensor
  levels : ∀ ls, p.levels = some ls → ls ≠ [] ∧ (∀ x ∈ ls, x.isFinite) ∧ ls.Pairwise (· < ·)
  particles : ∀ n, p.particles = some n → 1 ≤ n ∧ n ≤ maxParticles
  animation : ∀ a, p.animation = some a →
    a.start.isFinite ∧ a.stop.isFinite ∧ a.step.isFinite ∧ 0 < a.step
  labels : ∀ b ∈ p.labels, b.Complete

/-- The parts of a completed draft. -/
structure Completes (lines : Nat) (d : Draft) (p : Program) : Prop where
  xRange : p.xRange = d.xRange
  yRange : p.yRange = d.yRange
  zRange : p.zRange = d.zRange
  definitions : p.definitions = d.definitions
  labels : p.labels = d.labels
  levels : p.levels = d.levels.map sortedLevels
  particles : p.particles = d.particles
  order : d.definitions.order = .ok p.order
  checks : ∀ q ∈ d.plots, checkPlot d.definitions q.1 q.2 = .ok ()
  plots : withSurface lines (d.plots.map fun q => resolvePlot d.definitions q.2) = .ok p.plots
  animation : ∀ b, p.animation = some b → ∃ a, animationOf d.definitions p.order a = .ok b

theorem order_of_orderOf {ds : Definitions} {order : List String} (h : orderOf ds = .ok order) :
    ds.order = .ok order := by
  unfold orderOf at h
  split at h
  · rename_i hok
    exact hok.trans h
  · cases h
  · cases h

theorem completes_of_ofDraft {lines : Nat} {d : Draft} {p : Program}
    (h : ofDraft lines d = .ok p) : Completes lines d p := by
  unfold ofDraft at h
  obtain ⟨order, horder, h⟩ := bind_eq_ok.mp h
  obtain ⟨_, hchecks, h⟩ := bind_eq_ok.mp h
  obtain ⟨plots, hplots, h⟩ := bind_eq_ok.mp h
  have hchecks := forIn_eq_ok.mp hchecks
  have horder := order_of_orderOf horder
  dsimp only at h
  split at h
  · obtain ⟨b, hb, h⟩ := bind_eq_ok.mp h
    obtain rfl := Except.ok.inj h
    exact ⟨rfl, rfl, rfl, rfl, rfl, rfl, rfl, horder, hchecks, hplots,
      fun c hc => ⟨_, Option.some.inj hc ▸ hb⟩⟩
  · obtain rfl := Except.ok.inj h
    exact ⟨rfl, rfl, rfl, rfl, rfl, rfl, rfl, horder, hchecks, hplots, fun c hc => by cases hc⟩

/-- The plots of a completed draft: a flat surface, if none is written,
and then the written plots. -/
theorem Completes.plots_cases {lines : Nat} {d : Draft} {p : Program} (h : Completes lines d p)
    (hd : d.Sound lines) : ∃ written : List Plot, (∀ q ∈ written, PlotWritten q) ∧
      (∀ q ∈ d.plots, resolvePlot d.definitions q.2 ∈ written) ∧
      (∀ q ∈ written, ∃ r ∈ d.plots, resolvePlot d.definitions r.2 = q) ∧
      ((p.plots = written ∧ ∃ q ∈ written, q.isSurface = true) ∨
        (p.plots = .surface "0" "" true :: written ∧ ∀ q ∈ written, q.isSurface = false)) := by
  refine ⟨_, ?_, ?_, ?_, withSurface_ok h.plots⟩
  · intro q hq
    obtain ⟨r, hr, rfl⟩ := List.mem_map.mp hq
    exact plotWritten_resolvePlot (hd.plots r hr).2
  · exact fun q hq => List.mem_map.mpr ⟨q, hq, rfl⟩
  · exact fun q hq => List.mem_map.mp hq

/-- A field among the plots of a completed draft is written. -/
theorem Completes.exists_line {lines : Nat} {d : Draft} {p : Program} (h : Completes lines d p)
    (hd : d.Sound lines) {q : Plot} (hq : q ∈ p.plots) (hsurface : q.isSurface = false) :
    ∃ line, (line, q) ∈ d.plots := by
  obtain ⟨written, -, -, hfrom, hplots⟩ := h.plots_cases hd
  have hq : q ∈ written := by
    rcases hplots with ⟨hp, -⟩ | ⟨hp, -⟩
    · exact hp ▸ hq
    · rw [hp] at hq
      rcases List.mem_cons.mp hq with rfl | hq
      · cases hsurface
      · exact hq
  obtain ⟨⟨line, r⟩, hr, rfl⟩ := hfrom q hq
  cases r with
  | surface => cases hsurface
  | vectorField | tensorField => exact ⟨line, hr⟩

/-- The flat surface that is added to a draft without a written one is the
first plot of the program, and its only surface. -/
theorem Completes.implicit_first {lines : Nat} {d : Draft} {p : Program} (h : Completes lines d p)
    (hd : d.Sound lines) {before after : List Plot} {e source : String}
    (hsplit : p.plots = before ++ .surface e source true :: after) :
    before = [] ∧ ∀ q ∈ after, q.isSurface = false := by
  obtain ⟨written, hwritten, -, -, hplots⟩ := h.plots_cases hd
  have himplicit : .surface e source true ∉ written := fun hmem => by
    cases hwritten _ hmem
  rcases hplots with ⟨hp, -⟩ | ⟨hp, hnone⟩
  · rw [hp] at hsplit
    exact absurd (hsplit ▸ List.mem_append_right _ List.mem_cons_self) himplicit
  · rw [hp] at hsplit
    cases before with
    | nil =>
        obtain ⟨-, rfl⟩ := List.cons.inj hsplit
        exact ⟨rfl, hnone⟩
    | cons q before =>
        obtain ⟨-, hrest⟩ := List.cons.inj hsplit
        exact absurd (hrest ▸ List.mem_append_right _ List.mem_cons_self) himplicit

/-- A completed draft is a valid program. -/
theorem Completes.valid {lines : Nat} {d : Draft} {p : Program} (h : Completes lines d p)
    (hd : d.Sound lines) : p.Valid := by
  obtain ⟨hperm, hfollows⟩ := Definitions.order_ok h.order
  obtain ⟨written, -, -, -, hplots⟩ := h.plots_cases hd
  refine
    { xRange := h.xRange ▸ hd.xRange
      yRange := h.yRange ▸ hd.yRange
      zRange := h.zRange ▸ hd.zRange
      names := h.definitions ▸ hd.names
      order := h.definitions ▸ hperm
      follows := h.definitions ▸ hfollows
      particles := h.particles ▸ hd.particles
      labels := h.labels ▸ hd.labels
      implicit := fun _ _ _ _ hsplit => h.implicit_first hd hsplit
      surface := ?_, vectorField := ?_, tensorField := ?_, levels := ?_
      animation := ?_ }
  · rcases hplots with ⟨hp, q, hq, hsurface⟩ | ⟨hp, -⟩
    · exact ⟨q, hp ▸ hq, hsurface⟩
    · exact ⟨_, hp ▸ List.mem_cons_self, rfl⟩
  · intro n g hmem
    obtain ⟨line, hq⟩ := h.exists_line hd hmem rfl
    rw [h.definitions]
    exact ⟨(checkPlot_ok (h.checks _ hq)).1 n g rfl, (hd.plots _ hq).2⟩
  · intro n g hmem
    obtain ⟨line, hq⟩ := h.exists_line hd hmem rfl
    rw [h.definitions]
    exact (checkPlot_ok (h.checks _ hq)).2 n g rfl
  · intro ls hls
    rw [h.levels] at hls
    obtain ⟨raw, hraw, rfl⟩ := Option.map_eq_some_iff.mp hls
    obtain ⟨hne, hfinite⟩ := hd.levels raw hraw
    exact ⟨sortedLevels_ne_nil hne, fun x hx => hfinite x (mem_of_mem_sortedLevels hx),
      sortedLevels_pairwise hfinite⟩
  · intro b hb
    obtain ⟨a, ha⟩ := h.animation b hb
    exact animationOf_ok ha

/-- An accepted program completes the sound draft of its statements. -/
theorem completes_of_ofSource {source : String} {p : Program} (h : ofSource source = .ok p) :
    ∃ (ss : List Statement) (d : Draft), (logicalLines source.toList).mapM Statement.parse = .ok ss ∧
      ss.foldlM Draft.add {} = .ok d ∧ d.Sound (Source.lineCount source.toList) ∧
        Completes (Source.lineCount source.toList) d p := by
  obtain ⟨ss, hss, h⟩ := bind_eq_ok.mp h
  obtain ⟨d, hd, h⟩ := bind_eq_ok.mp h
  refine ⟨ss, d, hss, hd, ?_, completes_of_ofDraft h⟩
  rcases (Draft.sound_empty _).foldlM (statements_valid hss) with ⟨d', hd', hsound⟩ | ⟨_, _, hf, -⟩
  · rw [hd] at hd'
    exact Except.ok.inj hd' ▸ hsound
  · rw [hd] at hf
    cases hf

/-- Every accepted program is valid as a whole, and a surface that was not
written stands in it only if no line of the source plots one. -/
theorem valid_of_ofSource {source : String} {p : Program} (h : ofSource source = .ok p) :
    p.Valid ∧ ∀ l ∈ logicalLines source.toList, StartsWith "PLOT3D" l →
      ∀ e text, .surface e text true ∉ p.plots := by
  obtain ⟨ss, d, hss, hd, hsound, hcompletes⟩ := completes_of_ofSource h
  refine ⟨hcompletes.valid hsound, fun l hl hplot e text hmem => ?_⟩
  obtain ⟨written, hwritten, hresolved, -, hplots⟩ := hcompletes.plots_cases hsound
  -- The line that plots a surface puts a written one among the plots.
  obtain ⟨s, hs, hparse⟩ := (mem_of_mapM_ok hss).1 l hl
  obtain ⟨e', rfl⟩ := surface_of_parse hplot hparse
  have hdraft : (l.line, Plot.surface e' e' false) ∈ d.plots := by
    rw [Draft.plots_foldlM hd]
    exact List.mem_filterMap.mpr ⟨_, hs, rfl⟩
  have hsurface := hresolved _ hdraft
  rcases hplots with ⟨hp, -⟩ | ⟨-, hnone⟩
  · cases hwritten _ (hp ▸ hmem)
  · cases hnone _ hsurface

/-- A source with a statement of almost every kind: the vector field is
defined before what it uses, and no surface is written. -/
theorem valid_of_fieldSource : ∃ p, ofSource ("DEF VEC_F(x, y) = [FNG(y), -x, 0]\n"
      ++ "DEF FNG(t) = t^2\nPLOT_VECFIELD VEC_F GRID 4\nCONTOUR LEVELS 2, 1, 2\n"
      ++ "PARTICLES 7\nLABEL origin AT 0, 0, 1\nANIMATE t FROM 0 TO 1 STEP 1") = .ok p ∧
    p.order = ["FNG", "VEC_F"] ∧ p.plots.length = 2 ∧ p.Valid := by
  have hok : ((ofSource ("DEF VEC_F(x, y) = [FNG(y), -x, 0]\n"
      ++ "DEF FNG(t) = t^2\nPLOT_VECFIELD VEC_F GRID 4\nCONTOUR LEVELS 2, 1, 2\n"
      ++ "PARTICLES 7\nLABEL origin AT 0, 0, 1\nANIMATE t FROM 0 TO 1 STEP 1")).toOption.map
        fun p => (p.order, p.plots.length)) = some (["FNG", "VEC_F"], 2) := by decide +kernel
  obtain ⟨p, hp, hparts⟩ := Option.map_eq_some_iff.mp hok
  obtain ⟨horder, hplots⟩ := Prod.mk.inj hparts
  have hsource := eq_ok_of_toOption hp
  exact ⟨p, hsource, horder, hplots, (valid_of_ofSource hsource).1⟩

end Program
end FieldScript
