import FieldScript.Proofs.DraftInvariant

/-!
# The order of statements

Statements say different things, and most of them say it wherever they
stand. What a list of statements says is told without going through it one
by one: the draft of it (`Draft.gathered`) holds the ranges that are given
last, the definitions, plots and labels in their order, and the settings
that are given once, and it exists if the statements go together
(`Compatible`). The order counts within a `Group` only, so lists that differ
in the order between the groups make the same program
(`Program.ofStatements_reordered`).

A name is looked up when all statements have been taken together. A plot or
an animation may stand above the definition that it uses.
-/

namespace FieldScript

/-! ## Groups -/

/-- Statements whose order counts. -/
inductive Group where
  | definitions
  | plots
  | labels
  | range (axis : Axis)
  deriving DecidableEq

/-- The group of a statement. The settings that may be given once are in
none. -/
def StatementBody.group? : StatementBody → Option Group
  | .range axis _ _ => some (.range axis)
  | .define .. => some .definitions
  | .surface _ | .vectorField .. | .tensorField .. => some .plots
  | .label .. => some .labels
  | .colorMap _ | .particles _ | .contour _ | .animate .. => none

def Statement.isIn (g : Group) (s : Statement) : Bool := s.body.group? == some g

namespace Program

/-- The same statements, and those of a group in the same order. -/
structure Reordered (ss ts : List Statement) : Prop where
  perm : ss.Perm ts
  groups : ∀ g, ss.filter (Statement.isIn g) = ts.filter (Statement.isIn g)

/-- Runs of statements change places if no two of them are in one group. A
setting moves past every statement. -/
theorem Reordered.of_apart (before after : List Statement) {ss ts : List Statement}
    (h : ∀ s ∈ ss, ∀ t ∈ ts, s.body.group? = none ∨ s.body.group? ≠ t.body.group?) :
    Reordered (before ++ (ss ++ ts) ++ after) (before ++ (ts ++ ss) ++ after) where
  perm := (List.perm_append_comm.append_left before).append_right after
  groups := by
    intro g
    have hnone : ss.filter (Statement.isIn g) = [] ∨ ts.filter (Statement.isIn g) = [] := by
      by_contra hboth
      obtain ⟨hss, hts⟩ := not_or.mp hboth
      obtain ⟨s, hs⟩ := List.exists_mem_of_ne_nil _ hss
      obtain ⟨t, ht⟩ := List.exists_mem_of_ne_nil _ hts
      obtain ⟨hs, hsg⟩ := List.mem_filter.mp hs
      obtain ⟨ht, htg⟩ := List.mem_filter.mp ht
      rw [Statement.isIn, beq_iff_eq] at hsg htg
      rcases h s hs t ht with hnone | hne
      · rw [hnone] at hsg
        cases hsg
      · exact hne (hsg.trans htg.symm)
    simp only [List.filter_append]
    rcases hnone with hnil | hnil <;> rw [hnil, List.append_nil, List.nil_append]

theorem Reordered.symm {ss ts : List Statement} (h : Reordered ss ts) : Reordered ts ss :=
  ⟨h.perm.symm, fun g => (h.groups g).symm⟩

/-! ## What a statement says -/

section Parts

variable (s : Statement)

@[simp]
def rangeOf? (axis : Axis) : Option (Interval Float) :=
  match s.body with
  | .range a low high => if a = axis then some ⟨low, high⟩ else none
  | _ => none

@[simp]
def definitionOf? : Option NamedFunction :=
  match s.body with
  | .define n ps b => some ⟨n, ps, b, s.line⟩
  | _ => none

@[simp]
def labelOf? : Option Label :=
  match s.body with
  | .label t (x, y, z) => some ⟨t, [x, y, z]⟩
  | _ => none

@[simp]
def colorMapOf? : Option String :=
  match s.body with
  | .colorMap n => some n
  | _ => none

@[simp]
def particlesOf? : Option Nat :=
  match s.body with
  | .particles n => some n
  | _ => none

@[simp]
def levelsOf? : Option (List Float) :=
  match s.body with
  | .contour ls => some ls
  | _ => none

@[simp]
def animationOf? : Option (Nat × String × String × String × String) :=
  match s.body with
  | .animate p a b c => some (s.line, p, a, b, c)
  | _ => none

end Parts

namespace Draft

variable {d d' : Draft} {s : Statement}

/-- The statement goes together with those of the draft. -/
@[mk_iff]
structure Admits (d : Draft) (s : Statement) : Prop where
  range : ∀ axis, ∀ r ∈ rangeOf? s axis, r.low < r.high
  name : ∀ f ∈ definitionOf? s, f.name ∉ d.definitions.names
  colorMap : colorMapOf? s = none ∨ d.colorMap = none
  particles : particlesOf? s = none ∨ d.particles = none
  levels : levelsOf? s = none ∨ d.levels = none
  animation : animationOf? s = none ∨ d.animation = none

/-- The draft with what the statement says. -/
def extended (d : Draft) (s : Statement) : Draft where
  xRange := (rangeOf? s .x).getD d.xRange
  yRange := (rangeOf? s .y).getD d.yRange
  zRange := (rangeOf? s .z).getD d.zRange
  definitions := d.definitions ++ (definitionOf? s).toList
  plots := d.plots ++ (plotOf? s).toList
  labels := d.labels ++ (labelOf? s).toList
  animation := (animationOf? s).or d.animation
  levels := (levelsOf? s).or d.levels
  particles := (particlesOf? s).or d.particles
  colorMap := (colorMapOf? s).or d.colorMap

/-- A setting is taken if it was not given before. -/
theorem once_bind_eq_ok {α : Type} {line : Nat} {what : String} {old : Option α} {new : α}
    {k : Option α → Draft} : (once line what old new >>= fun v => pure (k v)) = .ok d' ↔
      old = none ∧ d' = k (some new) := by
  cases old with
  | none => exact ⟨fun h => ⟨rfl, (Except.ok.inj h).symm⟩, fun h => congrArg _ h.2.symm⟩
  | some _ => exact ⟨fun h => (by cases h), fun h => (by cases h.1)⟩

/-- What a draft becomes when it takes a statement, and when it does. -/
theorem add_eq_ok : d.add s = .ok d' ↔ d.Admits s ∧ d' = d.extended s := by
  obtain ⟨line, body⟩ := s
  have hok : ∀ {d₁ : Draft}, (pure d₁ : Except Failure Draft) = .ok d' ↔ d' = d₁ :=
    fun {d₁} => ⟨fun h => (Except.ok.inj h).symm, fun h => congrArg _ h.symm⟩
  unfold Draft.add
  cases body with
  | range axis low high =>
      dsimp only
      rw [Draft.addRange, Interval.ofBounds]
      by_cases hlt : low < high
      · rw [if_pos hlt]
        cases axis <;> simp [admits_iff, hlt, extended, plotOf?, hok, bind, Except.bind]
      · simp [admits_iff, hlt, bind, Except.bind]
  | colorMap n | particles n | contour ls | animate p a b c =>
      dsimp only
      rw [once_bind_eq_ok]
      simp [admits_iff, extended, plotOf?]
  | define n ps b =>
      dsimp only
      by_cases hn : n ∈ d.definitions.names
      · rw [if_pos (Definitions.contains_iff.mpr hn)]
        simp [admits_iff, hn, failAt]
      · rw [if_neg (mt Definitions.contains_iff.mp hn), hok]
        simp [admits_iff, hn, extended, plotOf?]
  | label | surface | vectorField | tensorField =>
      simp [admits_iff, extended, plotOf?, hok]

end Draft

/-! ## What statements say together -/

/-- The statements go together: ranges are not empty, no name is defined
twice, and no setting is given twice. -/
@[mk_iff]
structure Compatible (ss : List Statement) : Prop where
  ranges : ∀ axis, ∀ r ∈ ss.filterMap (rangeOf? · axis), r.low < r.high
  names : (Definitions.names (ss.filterMap definitionOf?)).Nodup
  colorMap : (ss.filterMap colorMapOf?).length ≤ 1
  particles : (ss.filterMap particlesOf?).length ≤ 1
  levels : (ss.filterMap levelsOf?).length ≤ 1
  animation : (ss.filterMap animationOf?).length ≤ 1

/-- The draft of statements. -/
def Draft.gathered (ss : List Statement) : Draft where
  xRange := (ss.filterMap (rangeOf? · .x)).getLast?.getD .standard
  yRange := (ss.filterMap (rangeOf? · .y)).getLast?.getD .standard
  zRange := (ss.filterMap (rangeOf? · .z)).getLast?.getD .standard
  definitions := ss.filterMap definitionOf?
  plots := ss.filterMap plotOf?
  labels := ss.filterMap labelOf?
  animation := (ss.filterMap animationOf?).getLast?
  levels := (ss.filterMap levelsOf?).getLast?
  particles := (ss.filterMap particlesOf?).getLast?
  colorMap := (ss.filterMap colorMapOf?).getLast?

section Concat

variable {α : Type} (f : Statement → Option α) (ss : List Statement) (s : Statement)

theorem filterMap_concat : (ss ++ [s]).filterMap f = ss.filterMap f ++ (f s).toList := by
  rw [List.filterMap_append, List.filterMap_cons, List.filterMap_nil]
  cases f s <;> rfl

theorem getLast?_filterMap_concat :
    ((ss ++ [s]).filterMap f).getLast? = (f s).or (ss.filterMap f).getLast? := by
  rw [filterMap_concat]
  cases f s with
  | none => simp
  | some a => exact List.getLast?_concat

/-- A setting is given once more. -/
theorem length_filterMap_concat_le : ((ss ++ [s]).filterMap f).length ≤ 1 ↔
    (ss.filterMap f).length ≤ 1 ∧ (f s = none ∨ (ss.filterMap f).getLast? = none) := by
  rw [filterMap_concat, List.length_append, List.getLast?_eq_none_iff, ← List.length_eq_zero_iff]
  cases f s with
  | none => simp
  | some a =>
      rw [Option.toList_some, List.length_singleton]
      simp only [reduceCtorEq, false_or]
      omega

end Concat

variable {ss ts : List Statement} {s : Statement} {d : Draft}

theorem Draft.gathered_concat : Draft.gathered (ss ++ [s]) = (Draft.gathered ss).extended s := by
  have hrange : ∀ axis, ((ss ++ [s]).filterMap (rangeOf? · axis)).getLast?.getD .standard =
      (rangeOf? s axis).getD ((ss.filterMap (rangeOf? · axis)).getLast?.getD .standard) := by
    intro axis
    rw [getLast?_filterMap_concat]
    cases rangeOf? s axis <;> rfl
  unfold gathered
  rw [hrange, hrange, hrange, getLast?_filterMap_concat, getLast?_filterMap_concat,
    getLast?_filterMap_concat, getLast?_filterMap_concat, filterMap_concat, filterMap_concat,
    filterMap_concat]
  rfl

theorem compatible_concat :
    Compatible (ss ++ [s]) ↔ Compatible ss ∧ (Draft.gathered ss).Admits s := by
  have hranges : (∀ axis, ∀ r ∈ (ss ++ [s]).filterMap (rangeOf? · axis), r.low < r.high) ↔
      (∀ axis, ∀ r ∈ ss.filterMap (rangeOf? · axis), r.low < r.high) ∧
        ∀ axis, ∀ r ∈ rangeOf? s axis, r.low < r.high := by
    simp only [filterMap_concat, List.forall_mem_append, Option.mem_toList, Option.mem_def,
      forall_and]
  have hnames : (Definitions.names ((ss ++ [s]).filterMap definitionOf?)).Nodup ↔
      (Definitions.names (ss.filterMap definitionOf?)).Nodup ∧
        ∀ f ∈ definitionOf? s, f.name ∉ Definitions.names (ss.filterMap definitionOf?) := by
    rw [filterMap_concat, Definitions.names, List.map_append, List.nodup_append]
    cases definitionOf? s with
    | none => simp [Definitions.names]
    | some f =>
        show _ ∧ [f.name].Nodup ∧ (∀ a ∈ Definitions.names _, ∀ b ∈ [f.name], a ≠ b) ↔ _
        simp only [List.nodup_singleton, true_and, List.forall_mem_singleton, Option.mem_def,
          Option.some.injEq, forall_eq']
        exact and_congr_right fun _ => ⟨fun h hmem => h _ hmem rfl, fun h a ha heq => h (heq ▸ ha)⟩
  rw [compatible_iff, hranges, hnames]
  simp only [length_filterMap_concat_le]
  constructor
  · rintro ⟨⟨hr, hr'⟩, ⟨hn, hn'⟩, ⟨hc, hc'⟩, ⟨hp, hp'⟩, ⟨hl, hl'⟩, ha, ha'⟩
    exact ⟨⟨hr, hn, hc, hp, hl, ha⟩, ⟨hr', hn', hc', hp', hl', ha'⟩⟩
  · rintro ⟨⟨hr, hn, hc, hp, hl, ha⟩, ⟨hr', hn', hc', hp', hl', ha'⟩⟩
    exact ⟨⟨hr, hr'⟩, ⟨hn, hn'⟩, ⟨hc, hc'⟩, ⟨hp, hp'⟩, ⟨hl, hl'⟩, ha, ha'⟩

/-- Statements make a draft if they go together, and then it is the draft of
what they say. -/
theorem foldlM_add_eq_ok : ss.foldlM Draft.add {} = .ok d ↔ Compatible ss ∧ d = .gathered ss := by
  induction ss using List.reverseRecOn generalizing d with
  | nil =>
      refine ⟨fun h => ⟨⟨?_, ?_, ?_, ?_, ?_, ?_⟩, (Except.ok.inj h).symm⟩, fun h => congrArg _ h.2.symm⟩
      all_goals simp [Definitions.names]
  | append_singleton ss s ih =>
      have hstep : (ss ++ [s]).foldlM Draft.add {} = ss.foldlM Draft.add {} >>= fun d₁ => d₁.add s := by
        simp [List.foldlM_append]
      rw [hstep, bind_eq_ok, compatible_concat, Draft.gathered_concat]
      constructor
      · rintro ⟨d₁, h₁, h⟩
        obtain ⟨hss, rfl⟩ := ih.mp h₁
        obtain ⟨hs, rfl⟩ := Draft.add_eq_ok.mp h
        exact ⟨⟨hss, hs⟩, rfl⟩
      · rintro ⟨⟨hss, hs⟩, rfl⟩
        exact ⟨_, ih.mpr ⟨hss, rfl⟩, Draft.add_eq_ok.mpr ⟨hs, rfl⟩⟩

/-! ## Statements in another order -/

/-- What only the statements of a group say does not depend on the others. -/
theorem Reordered.filterMap_eq {α : Type} {f : Statement → Option α} {g : Group}
    (h : Reordered ss ts) (hf : ∀ s, s.isIn g = false → f s = none) :
    ss.filterMap f = ts.filterMap f := by
  have hfilter : ∀ l : List Statement, (l.filter (Statement.isIn g)).filterMap f = l.filterMap f := by
    intro l
    rw [List.filterMap_filter]
    refine List.filterMap_congr fun s _ => ?_
    cases hs : s.isIn g with
    | true => rfl
    | false => exact (hf s hs).symm
  rw [← hfilter ss, ← hfilter ts, h.groups g]

/-- What is said once at most is said alike in any order. -/
theorem eq_of_perm_of_length_le {α : Type} {l l' : List α} (h : l.Perm l') (hl : l.length ≤ 1) :
    l = l' := by
  match l, hl with
  | [], _ => exact h.nil_eq
  | [_], _ => exact (List.perm_singleton.mp h.symm).symm

theorem Reordered.ranges (h : Reordered ss ts) (axis : Axis) :
    ss.filterMap (rangeOf? · axis) = ts.filterMap (rangeOf? · axis) := by
  refine h.filterMap_eq (g := .range axis) fun s hs => ?_
  obtain ⟨line, body⟩ := s
  cases body with
  | range a low high =>
      refine if_neg fun ha => ?_
      rw [Statement.isIn, StatementBody.group?, ha, beq_self_eq_true] at hs
      cases hs
  | _ => rfl

theorem Reordered.definitions (h : Reordered ss ts) :
    ss.filterMap definitionOf? = ts.filterMap definitionOf? := by
  refine h.filterMap_eq (g := .definitions) fun s hs => ?_
  obtain ⟨line, body⟩ := s
  cases body with
  | define => cases hs
  | _ => rfl

theorem Reordered.plots (h : Reordered ss ts) : ss.filterMap plotOf? = ts.filterMap plotOf? := by
  refine h.filterMap_eq (g := .plots) fun s hs => ?_
  obtain ⟨line, body⟩ := s
  cases body with
  | surface | vectorField | tensorField => cases hs
  | _ => rfl

theorem Reordered.labels (h : Reordered ss ts) : ss.filterMap labelOf? = ts.filterMap labelOf? := by
  refine h.filterMap_eq (g := .labels) fun s hs => ?_
  obtain ⟨line, body⟩ := s
  cases body with
  | label => cases hs
  | _ => rfl

theorem Reordered.compatible (h : Reordered ss ts) (hss : Compatible ss) : Compatible ts where
  ranges := fun axis => h.ranges axis ▸ hss.ranges axis
  names := h.definitions ▸ hss.names
  colorMap := (h.perm.filterMap colorMapOf?).length_eq ▸ hss.colorMap
  particles := (h.perm.filterMap particlesOf?).length_eq ▸ hss.particles
  levels := (h.perm.filterMap levelsOf?).length_eq ▸ hss.levels
  animation := (h.perm.filterMap animationOf?).length_eq ▸ hss.animation

theorem Reordered.gathered_eq (h : Reordered ss ts) (hss : Compatible ss) :
    Draft.gathered ss = Draft.gathered ts := by
  unfold Draft.gathered
  rw [h.ranges, h.ranges, h.ranges, h.definitions, h.plots, h.labels,
    eq_of_perm_of_length_le (h.perm.filterMap colorMapOf?) hss.colorMap,
    eq_of_perm_of_length_le (h.perm.filterMap particlesOf?) hss.particles,
    eq_of_perm_of_length_le (h.perm.filterMap levelsOf?) hss.levels,
    eq_of_perm_of_length_le (h.perm.filterMap animationOf?) hss.animation]

/-- How many lines a source has counts only where there is nothing to
render. -/
theorem ofDraft_lines {lines lines' : Nat} {p : Program} (h : ofDraft lines d = .ok p) :
    ofDraft lines' d = .ok p := by
  have hplots : ∀ plots plots' : List Plot, withSurface lines plots = .ok plots' →
      withSurface lines' plots = .ok plots' := by
    intro plots plots' h
    unfold withSurface at h ⊢
    split
    · rename_i hany
      rwa [if_pos hany] at h
    · rename_i hany
      rw [if_neg hany] at h
      split
      · rename_i hempty
        rw [if_pos hempty] at h
        cases h
      · rename_i hempty
        rwa [if_neg hempty] at h
  unfold ofDraft at h ⊢
  obtain ⟨order, horder, h⟩ := bind_eq_ok.mp h
  obtain ⟨u, hchecks, h⟩ := bind_eq_ok.mp h
  obtain ⟨plots, hsurface, h⟩ := bind_eq_ok.mp h
  refine bind_eq_ok.mpr ⟨order, horder, bind_eq_ok.mpr ⟨u, hchecks, ?_⟩⟩
  exact bind_eq_ok.mpr ⟨plots, hplots _ _ hsurface, h⟩

/-- Statements that stand in another order, but for the definitions, the
plots, the labels and the ranges of an axis among themselves, make the same
program, or make none either. -/
theorem ofStatements_reordered (h : Reordered ss ts) (lines lines' : Nat) (p : Program) :
    ofStatements lines ss = .ok p ↔ ofStatements lines' ts = .ok p := by
  have hone : ∀ {ss ts : List Statement} {lines lines' : Nat}, Reordered ss ts →
      ofStatements lines ss = .ok p → ofStatements lines' ts = .ok p := by
    intro ss ts lines lines' h hp
    obtain ⟨d, hd, hp⟩ := bind_eq_ok.mp hp
    obtain ⟨hss, rfl⟩ := foldlM_add_eq_ok.mp hd
    refine bind_eq_ok.mpr ⟨_, foldlM_add_eq_ok.mpr ⟨h.compatible hss, rfl⟩, ?_⟩
    rw [← h.gathered_eq hss]
    exact ofDraft_lines hp
  exact ⟨hone h, hone h.symm⟩

/-- Definitions, and statements that use them: an animation, a plot, a label
and a color map. -/
def definitionsOfScene : List Statement :=
  [⟨1, .define "FNA" [] "2"⟩, ⟨2, .define "FNF" ["x", "y"] "FNA*x"⟩]

def restOfScene : List Statement :=
  [⟨3, .animate "t" "0" "FNA" "1"⟩, ⟨4, .surface "FNF(x, y)"⟩, ⟨5, .label "'a'" ("1", "2", "3")⟩,
    ⟨6, .colorMap "hot"⟩]

/-- Everything stands above the definitions that it uses. -/
theorem ofStatements_definitionsLast :
    Reordered (definitionsOfScene ++ restOfScene) (restOfScene ++ definitionsOfScene) ∧
      (∃ p, ofStatements 6 (restOfScene ++ definitionsOfScene) = .ok p ∧ p.order = ["FNA", "FNF"] ∧
        p.surfaceExpr = "FNA*x" ∧ (p.animation.map (·.stop)) = some 2) ∧
      ∀ p, ofStatements 6 (definitionsOfScene ++ restOfScene) = .ok p ↔
        ofStatements 6 (restOfScene ++ definitionsOfScene) = .ok p := by
  have hreordered : Reordered (definitionsOfScene ++ restOfScene) (restOfScene ++ definitionsOfScene) := by
    have hapart : ∀ s ∈ definitionsOfScene, ∀ t ∈ restOfScene,
        s.body.group? = none ∨ s.body.group? ≠ t.body.group? := by
      simp [definitionsOfScene, restOfScene, StatementBody.group?]
    simpa using Reordered.of_apart [] [] hapart
  refine ⟨hreordered, ?_, fun p => ofStatements_reordered hreordered 6 6 p⟩
  have hok : ((ofStatements 6 (restOfScene ++ definitionsOfScene)).toOption.map
      fun p => (p.order, p.surfaceExpr, p.animation.map (·.stop))) =
        some (["FNA", "FNF"], "FNA*x", some 2) := by decide +kernel
  obtain ⟨p, hp, hparts⟩ := Option.map_eq_some_iff.mp hok
  obtain ⟨horder, hparts⟩ := Prod.mk.inj hparts
  obtain ⟨hsurface, hstop⟩ := Prod.mk.inj hparts
  exact ⟨p, eq_ok_of_toOption hp, horder, hsurface, hstop⟩

end Program
end FieldScript
