import FieldScript.Proofs.DefinitionOrder
import FieldScript.Proofs.Outcome
import FieldScript.Proofs.SourceLines
import FieldScript.Proofs.StatementReaders
import FieldScript.Program

/-!
# Gathering statements

Statements are taken into a draft one by one, and what each of them
guarantees by itself becomes a property of the draft
(`Draft.Sound`). A statement that does not go together with the earlier
ones is a fault of its line; nothing else goes wrong while gathering,
because the bounds of a range have been compared before.
-/

namespace FieldScript

/-- A line of a source with `lines` lines. -/
def IsLine (lines n : Nat) : Prop := 1 ≤ n ∧ n ≤ lines

/-- Finite bounds, the lower one below. -/
def Interval.Proper (r : Interval Float) : Prop :=
  r.low.isFinite ∧ r.high.isFinite ∧ r.low < r.high

/-- A text, and three expressions for the place. -/
def Label.Complete (b : Label) : Prop :=
  b.text ≠ "" ∧ b.position.length = 3 ∧ ∀ e ∈ b.position, e ≠ ""

theorem Interval.proper_standard : Interval.Proper .standard := by
  refine ⟨?_, ?_, ?_⟩ <;> decide +kernel

theorem Interval.ofBounds_of_lt {low high : Float} (h : low < high) :
    Interval.ofBounds low high = .ok ⟨low, high⟩ := by
  rw [ofBounds, if_pos h]

namespace Program

/-- A plot that a statement asks for. -/
def PlotWritten : Plot → Prop
  | .surface _ _ implicit => implicit = false
  | .vectorField _ gridSize => 2 ≤ gridSize ∧ gridSize ≤ maxGridSize
  | .tensorField .. => True

/-- What holds of the statements that have been gathered. -/
structure Draft.Sound (lines : Nat) (d : Draft) : Prop where
  xRange : d.xRange.Proper
  yRange : d.yRange.Proper
  zRange : d.zRange.Proper
  definitions : ∀ f ∈ d.definitions, IsLine lines f.line ∧ f.params.Nodup
  plots : ∀ p ∈ d.plots, IsLine lines p.1 ∧ PlotWritten p.2
  labels : ∀ b ∈ d.labels, b.Complete
  animation : ∀ a, d.animation = some a → IsLine lines a.1
  levels : ∀ ls, d.levels = some ls → ls ≠ [] ∧ ∀ x ∈ ls, x.isFinite
  particles : ∀ n, d.particles = some n → 1 ≤ n ∧ n ≤ maxParticles
  names : d.definitions.names.Nodup

theorem Draft.sound_empty (lines : Nat) : Draft.Sound lines {} where
  xRange := Interval.proper_standard
  yRange := Interval.proper_standard
  zRange := Interval.proper_standard
  definitions := List.forall_mem_nil _
  plots := List.forall_mem_nil _
  labels := List.forall_mem_nil _
  animation := fun _ h => by cases h
  levels := fun _ h => by cases h
  particles := fun _ h => by cases h
  names := List.nodup_nil

/-- How a draft takes a statement. -/
def Draft.Taken (lines : Nat) (s : Statement) (r : Except Failure Draft) : Prop :=
  (∃ d', r = .ok d' ∧ d'.Sound lines) ∨ ∃ fault, r = .error (.statement s.line fault none)

/-- A setting that is given for the first time is kept, and a second time
is a fault of the line. -/
theorem Draft.taken_once {α : Type} {lines : Nat} {s : Statement} {what : String} {old : Option α}
    {new : α} {k : Option α → Draft} (hk : (k (some new)).Sound lines) :
    Draft.Taken lines s (once s.line what old new >>= fun v => pure (k v)) := by
  cases old with
  | none => exact Or.inl ⟨_, rfl, hk⟩
  | some _ => exact Or.inr ⟨_, rfl⟩

/-- A sound draft stays sound with one more plot. -/
theorem Draft.Sound.plot {lines : Nat} {d : Draft} (hd : d.Sound lines) {line : Nat}
    (hline : IsLine lines line) {q : Plot} (hq : PlotWritten q) :
    Draft.Sound lines { d with plots := d.plots ++ [(line, q)] } :=
  { hd with plots := List.forall_mem_append.mpr ⟨hd.plots, List.forall_mem_singleton.mpr ⟨hline, hq⟩⟩ }

/-- A sound draft stays sound with one more label. -/
theorem Draft.Sound.label {lines : Nat} {d : Draft} (hd : d.Sound lines) {b : Label}
    (hb : b.Complete) : Draft.Sound lines { d with labels := d.labels ++ [b] } :=
  { hd with labels := List.forall_mem_append.mpr ⟨hd.labels, List.forall_mem_singleton.mpr hb⟩ }

/-- A sound draft stays sound with a definition of a new name. -/
theorem Draft.Sound.define {lines : Nat} {d : Draft} (hd : d.Sound lines) {f : NamedFunction}
    (hline : IsLine lines f.line) (hparams : f.params.Nodup) (hnew : f.name ∉ d.definitions.names) :
    Draft.Sound lines { d with definitions := d.definitions ++ [f] } where
  __ := hd
  definitions := List.forall_mem_append.mpr
    ⟨hd.definitions, List.forall_mem_singleton.mpr ⟨hline, hparams⟩⟩
  names := by
    rw [Definitions.names, List.map_append]
    refine List.nodup_append.mpr ⟨hd.names, by simp, ?_⟩
    intro m hm k hk hmk
    obtain rfl : k = f.name := List.mem_singleton.mp hk
    exact hnew (hmk ▸ hm)

/-- A draft takes a valid statement or puts a fault on its line. -/
theorem Draft.Sound.add {lines : Nat} {d : Draft} (hd : d.Sound lines) {s : Statement}
    (hline : IsLine lines s.line) (hs : s.body.Valid) : Draft.Taken lines s (d.add s) := by
  obtain ⟨line, body⟩ := s
  unfold Draft.add
  cases body with
  | range axis low high =>
      obtain ⟨hlow, hhigh, hlt⟩ := hs
      have hproper : Interval.Proper ⟨low, high⟩ := ⟨hlow, hhigh, hlt⟩
      dsimp only
      rw [Draft.addRange, Interval.ofBounds_of_lt hlt]
      cases axis with
      | x => exact Or.inl ⟨_, rfl, { hd with xRange := hproper }⟩
      | y => exact Or.inl ⟨_, rfl, { hd with yRange := hproper }⟩
      | z => exact Or.inl ⟨_, rfl, { hd with zRange := hproper }⟩
  | colorMap n =>
      exact Draft.taken_once (s := ⟨line, .colorMap n⟩) { hd with }
  | particles n =>
      exact Draft.taken_once (s := ⟨line, .particles n⟩)
        { hd with particles := fun _ hm => Option.some.inj hm ▸ hs }
  | contour ls =>
      exact Draft.taken_once (s := ⟨line, .contour ls⟩)
        { hd with levels := fun _ hm => Option.some.inj hm ▸ hs }
  | animate p a b c =>
      exact Draft.taken_once (s := ⟨line, .animate p a b c⟩)
        { hd with animation := fun _ hm => Option.some.inj hm ▸ hline }
  | label text position =>
      obtain ⟨x, y, z⟩ := position
      obtain ⟨htext, hx, hy, hz⟩ := hs
      exact Or.inl ⟨_, rfl, hd.label ⟨htext, rfl, by simpa using ⟨hx, hy, hz⟩⟩⟩
  | define n ps b =>
      dsimp only
      split
      · exact Or.inr ⟨_, rfl⟩
      · rename_i hnew
        exact Or.inl ⟨_, rfl, hd.define hline hs (mt Definitions.contains_iff.mpr hnew)⟩
  | surface e => exact Or.inl ⟨_, rfl, hd.plot hline rfl⟩
  | vectorField n g => exact Or.inl ⟨_, rfl, hd.plot hline hs⟩
  | tensorField n g => exact Or.inl ⟨_, rfl, hd.plot hline trivial⟩

/-- Statements that are valid by themselves make a sound draft, or the
first that does not go together with the others is at fault. -/
theorem Draft.Sound.foldlM {lines : Nat} {d : Draft} (hd : d.Sound lines) {ss : List Statement}
    (hss : ∀ s ∈ ss, IsLine lines s.line ∧ s.body.Valid) :
    (∃ d', ss.foldlM Draft.add d = .ok d' ∧ d'.Sound lines) ∨
      ∃ n fault, ss.foldlM Draft.add d = .error (.statement n fault none) ∧ IsLine lines n := by
  induction ss generalizing d with
  | nil => exact Or.inl ⟨d, rfl, hd⟩
  | cons s rest ih =>
      obtain ⟨⟨hline, hvalid⟩, hrest⟩ := List.forall_mem_cons.mp hss
      rw [List.foldlM_cons]
      rcases hd.add hline hvalid with ⟨d', hadd, hd'⟩ | ⟨fault, hadd⟩
      · rw [hadd]
        exact ih hd' hrest
      · rw [hadd]
        exact Or.inr ⟨s.line, fault, rfl, hline⟩

/-- The statements of a source, each valid and on a line of it. -/
theorem statements_valid {chars : List Char} {ss : List Statement}
    (h : (logicalLines chars).mapM Statement.parse = .ok ss) :
    ∀ s ∈ ss, IsLine (Source.lineCount chars) s.line ∧ s.body.Valid := by
  intro s hs
  obtain ⟨l, hl, hparse⟩ := (mem_of_mapM_ok h).2 s hs
  obtain ⟨hline, hvalid⟩ := Statement.valid_of_parse hparse
  exact ⟨hline ▸ logicalLines_line_bounds hl, hvalid⟩

/-! ## The plots of a draft -/

/-- The plot that a statement asks for, with its line. -/
def plotOf? (s : Statement) : Option (Nat × Plot) :=
  match s.body with
  | .surface e => some (s.line, .surface e e false)
  | .vectorField n g => some (s.line, .vectorField n g)
  | .tensorField n g => some (s.line, .tensorField n g)
  | _ => none

theorem Draft.plots_add {d d' : Draft} {s : Statement} (h : d.add s = .ok d') :
    d'.plots = d.plots ++ (plotOf? s).toList := by
  obtain ⟨line, body⟩ := s
  unfold Draft.add at h
  cases body with
  | range axis low high =>
      dsimp only at h
      rw [Draft.addRange, Interval.ofBounds] at h
      split at h
      · cases axis <;> cases h <;> exact (List.append_nil _).symm
      · cases h
  | colorMap | particles | contour | animate =>
      obtain ⟨_, _, h⟩ := bind_eq_ok.mp h
      cases h
      exact (List.append_nil _).symm
  | define n ps b =>
      dsimp only at h
      split at h
      · cases h
      · cases h
        exact (List.append_nil _).symm
  | label | surface | vectorField | tensorField =>
      cases h
      first | rfl | exact (List.append_nil _).symm

/-- The plots of a draft are those that the statements ask for, in their
order. -/
theorem Draft.plots_foldlM {d d' : Draft} {ss : List Statement}
    (h : ss.foldlM Draft.add d = .ok d') : d'.plots = d.plots ++ ss.filterMap plotOf? := by
  induction ss generalizing d with
  | nil =>
      obtain rfl := Except.ok.inj h
      exact (List.append_nil _).symm
  | cons s rest ih =>
      rw [List.foldlM_cons] at h
      cases hadd : d.add s with
      | error f =>
          rw [hadd] at h
          cases h
      | ok d₁ =>
          rw [hadd] at h
          rw [ih h, Draft.plots_add hadd, List.append_assoc, List.filterMap_cons]
          cases plotOf? s <;> rfl

end Program
end FieldScript
