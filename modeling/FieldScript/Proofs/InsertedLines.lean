import FieldScript.Proofs.LineNumbers
import FieldScript.Proofs.SourceLines

/-!
# Blank lines and comments

A physical line without text (`Source.IsRemark`) can be put anywhere in a
source. Nothing of it is left among the pieces that logical lines are
joined from, so it separates nothing: neither a line from the one that
continues it nor a definition from the lines that it absorbs. All that
changes is the number of the lines below
(`Program.ofSource_insertLine`).
-/

namespace FieldScript
namespace Source

/-- A line of blanks, or of a comment with blanks in front of it. -/
structure IsRemark (line : List Char) : Prop where
  one : '\n' ∉ line
  empty : (∀ c ∈ line, isBlank c = true) ∨
    ∃ gap text, line = gap ++ '#' :: text ∧ ∀ c ∈ gap, isBlank c = true

/-- The source with another physical line below the first `k`. -/
def insertLine (k : Nat) (line source : List Char) : List Char :=
  ['\n'].intercalate ((splitLines source).take k ++ line :: (splitLines source).drop k)

/-! ## Physical lines -/

theorem splitLines_eq (s : List Char) : splitLines s = s.splitOn '\n' := by
  induction s with
  | nil => rfl
  | cons c rest ih =>
      rw [splitLines, ih, List.splitOn_cons_eq_if_modifyHead]
      split
      · rfl
      · cases hrest : rest.splitOn '\n' with
        | nil => exact absurd hrest (List.splitOn_ne_nil _ _)
        | cons l ls => rfl

theorem newline_notMem_of_mem_splitLines {s l : List Char} (h : l ∈ splitLines s) : '\n' ∉ l := by
  induction s generalizing l with
  | nil =>
      obtain rfl := List.mem_singleton.mp h
      exact List.not_mem_nil
  | cons c rest ih =>
      rw [splitLines] at h
      split at h
      · rcases List.mem_cons.mp h with rfl | h
        · exact List.not_mem_nil
        · exact ih h
      · rename_i hc
        have hne : '\n' ≠ c := fun heq => hc (heq ▸ beq_self_eq_true _)
        split at h
        · obtain rfl := List.mem_singleton.mp h
          simpa using hne
        · rename_i l' ls hrest
          rcases List.mem_cons.mp h with rfl | h
          · rw [List.mem_cons, not_or]
            exact ⟨hne, ih (hrest ▸ List.mem_cons_self)⟩
          · exact ih (hrest ▸ List.mem_cons_of_mem _ h)

variable {k : Nat} {line source : List Char}

theorem splitLines_insertLine (h : '\n' ∉ line) :
    splitLines (insertLine k line source) =
      (splitLines source).take k ++ line :: (splitLines source).drop k := by
  rw [splitLines_eq (insertLine k line source), insertLine]
  refine List.splitOn_intercalate _ (fun l hl => ?_) (by simp)
  rcases List.mem_append.mp hl with hl | hl
  · exact newline_notMem_of_mem_splitLines (List.mem_of_mem_take hl)
  · rcases List.mem_cons.mp hl with rfl | hl
    · exact h
    · exact newline_notMem_of_mem_splitLines (List.mem_of_mem_drop hl)

theorem numbered_append (n : Nat) (as bs : List (List Char)) :
    numbered n (as ++ bs) = numbered n as ++ numbered (n + as.length) bs := by
  induction as generalizing n with
  | nil => rfl
  | cons a as ih =>
      rw [List.cons_append, numbered, numbered, ih, List.cons_append, List.length_cons,
        Nat.add_right_comm, Nat.add_assoc]

theorem numbered_succ (n : Nat) (ls : List (List Char)) :
    numbered (n + 1) ls = (numbered n ls).map fun p => (p.1 + 1, p.2) := by
  induction ls generalizing n with
  | nil => rfl
  | cons l rest ih =>
      rw [numbered, numbered, List.map_cons, ih]

/-! ## Remarks -/

theorem stripComment_blanks {gap : List Char} (hgap : ∀ c ∈ gap, isBlank c = true)
    (s : List Char) : stripComment (gap ++ s) = gap ++ stripComment s := by
  induction gap with
  | nil => rfl
  | cons c gap ih =>
      obtain ⟨hc, hgap⟩ := List.forall_mem_cons.mp hgap
      have hplain : c ≠ '#' ∧ c ≠ '"' ∧ c ≠ '\'' := by
        refine ⟨?_, ?_, ?_⟩ <;> rintro rfl <;> cases hc
      simpa [stripComment, stripCommentFrom, hplain] using ih hgap

theorem trim_blanks {s : List Char} (h : ∀ c ∈ s, isBlank c = true) : trim s = [] := by
  rw [trim, List.dropWhile_eq_nil_iff.mpr h]
  rfl

/-- Nothing is left of a remark. -/
theorem IsRemark.trim_eq_nil (h : IsRemark line) : trim (stripComment line) = [] := by
  rcases h.empty with hblank | ⟨gap, text, rfl, hgap⟩
  · have hstrip := stripComment_blanks hblank []
    rw [List.append_nil] at hstrip
    rw [hstrip, show stripComment [] = [] from rfl, List.append_nil]
    exact trim_blanks hblank
  · have hcomment : stripComment ('#' :: text) = [] := rfl
    rw [stripComment_blanks hgap, hcomment, List.append_nil]
    exact trim_blanks hgap

end Source

/-- The lines below the first `k` move down by one. -/
def Renumbering.below (k : Nat) (source source' : List Char) : Renumbering where
  line n := if k < n then n + 1 else n
  line_zero := rfl
  before := Source.lineCount source
  after := Source.lineCount source'
  one_le_before := Source.one_le_lineCount source
  one_le_after := Source.one_le_lineCount source'

namespace Source

variable {k : Nat} {line source : List Char} (r : Renumbering)

/-- A remark leaves no piece, and the pieces below it move down. -/
theorem pieces_insertLine (h : IsRemark line) :
    pieces (insertLine k line source) = (pieces source).map fun p =>
      ((Renumbering.below k source (insertLine k line source)).line p.1, p.2) := by
  have hsplit := List.take_append_drop k (splitLines source)
  have hlow : ∀ p ∈ numbered 1 ((splitLines source).take k), ¬ k < p.1 := by
    intro p hp
    have hbound := (mem_numbered hp).2
    rw [List.length_take] at hbound
    omega
  have hhigh : ∀ p ∈ numbered (1 + ((splitLines source).take k).length)
      ((splitLines source).drop k), k < p.1 := by
    intro p hp
    have hbound := mem_numbered hp
    rw [List.length_take, List.length_drop] at hbound
    omega
  have hkept : (!(trim (stripComment line)).isEmpty) = false := by
    rw [h.trim_eq_nil]
    rfl
  rw [pieces, pieces, splitLines_insertLine h.one]
  conv_rhs => rw [← hsplit]
  rw [numbered_append, numbered_append, numbered, numbered_succ (1 + _)]
  simp only [List.map_append, List.map_cons, List.filter_append, List.filter_cons, hkept,
    Bool.false_eq_true, if_false, List.map_map, List.filter_map]
  congr 1
  · refine List.map_congr_left fun p hp => ?_
    have hp := hlow p (List.mem_of_mem_filter hp)
    simp only [Function.comp_apply, Renumbering.below, if_neg hp]
  · refine List.map_congr_left fun p hp => ?_
    have hp := hhigh p (List.mem_of_mem_filter hp)
    simp only [Function.comp_apply, Renumbering.below, if_pos hp]

/-! ## Logical lines -/

/-- Joining looks at no line number. -/
theorem joinLines_map (buffer : List Char) (start : Nat) (ps : List (Nat × List Char)) :
    joinLines buffer (r.line start) (ps.map fun p => (r.line p.1, p.2)) =
      (joinLines buffer start ps).map r.logical := by
  induction ps generalizing buffer start with
  | nil =>
      rw [List.map_nil, joinLines, joinLines]
      split <;> rfl
  | cons p rest ih =>
      obtain ⟨n, piece⟩ := p
      have hstart : (if buffer.isEmpty then r.line n else r.line start) =
          r.line (if buffer.isEmpty then n else start) := (apply_ite r.line _ _ _).symm
      rw [List.map_cons, joinLines, joinLines]
      dsimp only
      rw [hstart]
      cases continued? (if buffer.isEmpty then piece else buffer ++ ' ' :: piece) with
      | some buffer' => exact ih buffer' _
      | none =>
          have hrest := ih [] 0
          rw [r.line_zero] at hrest
          exact congrArg _ hrest

theorem absorbWrapped_map (pending : Option LogicalLine) (ls : List LogicalLine) :
    absorbWrapped (pending.map r.logical) (ls.map r.logical) =
      (absorbWrapped pending ls).map r.logical := by
  induction ls generalizing pending with
  | nil => cases pending <;> rfl
  | cons l rest ih =>
      have htext : (r.logical l).text = l.text := rfl
      rw [List.map_cons, absorbWrapped.eq_def, absorbWrapped.eq_def pending]
      dsimp only
      rw [htext]
      split
      · rw [List.map_append, ← ih]
        cases pending <;> rfl
      · cases pending with
        | none => exact congrArg _ (ih none)
        | some d =>
            dsimp only [Option.map_some]
            split
            · exact congrArg (fun ls => r.logical d :: r.logical l :: ls) (ih none)
            · exact ih (some ⟨d.text ++ l.text, d.line⟩)

/-- With a remark among the physical lines, the logical lines are those
of the source, and the lower ones start one line further down. -/
theorem logicalLines_insertLine (h : IsRemark line) :
    logicalLines (insertLine k line source) = (logicalLines source).map
      (Renumbering.below k source (insertLine k line source)).logical := by
  have hjoin := joinLines_map (Renumbering.below k source (insertLine k line source)) [] 0
    (pieces source)
  rw [Renumbering.line_zero, ← pieces_insertLine h] at hjoin
  rw [logicalLines, hjoin]
  exact absorbWrapped_map _ none _

end Source

namespace Program

/-- A blank line or a comment may be put between any physical lines of a
source: the program is the same but for the lines of the definitions
below, and so is the cause for which a source is refused. -/
theorem ofSource_insertLine (k : Nat) {line : List Char} (h : Source.IsRemark line)
    (source : String) :
    let source' := String.ofList (Source.insertLine k line source.toList)
    let r := Renumbering.below k source.toList source'.toList
    r.Agree (fun p p' => r.program p = p') (ofSource source) (ofSource source') := by
  dsimp only
  rw [String.toList_ofList]
  have hagree := (Renumbering.below k source.toList
    (Source.insertLine k line source.toList)).agree_lines (logicalLines source.toList)
  rw [← Source.logicalLines_insertLine h] at hagree
  rw [ofSource, ofSource]
  simp only [String.toList_ofList]
  exact hagree

/-- Two definitions, of which the first is continued. -/
def continuedSource : String :=
  "DEF FNA(x) = x \\\n + 1\nDEF VEC_F(x, y) = [x,\ny, 0]\nPLOT3D FNA(x)"

/-- A comment inside the continued definition moves the other one. -/
theorem ofSource_insertLine_continued :
    Source.IsRemark " # plus one".toList ∧
      ∃ p p', ofSource continuedSource = .ok p ∧
        ofSource (String.ofList
          (Source.insertLine 1 " # plus one".toList continuedSource.toList)) = .ok p' ∧
        p.definitions.map (·.line) = [1, 3] ∧ p'.definitions.map (·.line) = [1, 4] ∧
        p'.order = p.order := by
  have hremark : Source.IsRemark " # plus one".toList :=
    ⟨by decide, Or.inr ⟨[' '], " plus one".toList, by decide,
      List.forall_mem_singleton.mpr (by decide +kernel)⟩⟩
  refine ⟨hremark, ?_⟩
  have hlines : ((ofSource continuedSource).toOption.map fun p => p.definitions.map (·.line)) =
      some [1, 3] := by decide +kernel
  obtain ⟨p, hp, hline⟩ := Option.map_eq_some_iff.mp hlines
  have hp := eq_ok_of_toOption hp
  have hagree := ofSource_insertLine 1 hremark continuedSource
  dsimp only at hagree
  rw [hp] at hagree
  generalize hsource : ofSource (String.ofList _) = q at hagree
  cases hagree with
  | value h =>
      refine ⟨p, _, hp, rfl, hline, ?_, ?_⟩
      · rw [← h]
        show (p.definitions.map (Renumbering.function _)).map (·.line) = [1, 4]
        rw [List.map_map]
        show p.definitions.map ((fun n => if 1 < n then n + 1 else n) ∘ (·.line)) = [1, 4]
        rw [← List.map_map, hline]
        rfl
      · rw [← h]
        rfl

end Program
end FieldScript
