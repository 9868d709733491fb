import FieldScript.Source

/-!
# Lines of a source

Where a logical line says that it starts: at one of the physical lines.
Each pass of `logicalLines` either keeps the number of a line or drops the
line, so the numbers of the physical lines bound all others.
-/

namespace FieldScript
namespace Source

theorem splitLines_ne_nil (s : List Char) : splitLines s ≠ [] := by
  induction s with
  | nil => simp [splitLines]
  | cons c rest ih =>
      rw [splitLines]
      split
      · simp
      · split <;> simp

/-- A source has at least one physical line. -/
theorem one_le_lineCount (s : List Char) : 1 ≤ lineCount s :=
  List.length_pos_iff.mpr (splitLines_ne_nil s)

theorem mem_numbered {n : Nat} {ls : List (List Char)} {p : Nat × List Char}
    (h : p ∈ numbered n ls) : n ≤ p.1 ∧ p.1 < n + ls.length := by
  induction ls generalizing n with
  | nil => cases h
  | cons l rest ih =>
      rcases List.mem_cons.mp h with rfl | hrest
      · simp
      · obtain ⟨hlow, hhigh⟩ := ih hrest
        rw [List.length_cons]
        omega

theorem mem_pieces {s : List Char} {p : Nat × List Char} (h : p ∈ pieces s) :
    1 ≤ p.1 ∧ p.1 ≤ lineCount s := by
  obtain ⟨q, hq, rfl⟩ := List.mem_map.mp (List.mem_filter.mp h).1
  obtain ⟨hlow, hhigh⟩ := mem_numbered hq
  rw [lineCount]
  exact ⟨hlow, by omega⟩

/-- A joined line starts at one of its pieces, or where the buffer did. -/
theorem line_of_mem_joinLines {buffer : List Char} {start : Nat}
    {ps : List (Nat × List Char)} {l : LogicalLine} (h : l ∈ joinLines buffer start ps) :
    (buffer ≠ [] ∧ l.line = start) ∨ ∃ p ∈ ps, l.line = p.1 := by
  induction ps generalizing buffer start with
  | nil =>
      rw [joinLines] at h
      split at h
      · cases h
      · rename_i hbuffer
        obtain rfl := List.mem_singleton.mp h
        exact Or.inl ⟨by simpa using hbuffer, rfl⟩
  | cons p rest ih =>
      obtain ⟨n, piece⟩ := p
      -- The line that the first piece belongs to starts there or at the buffer.
      have hstart : (buffer ≠ [] ∧ (if buffer.isEmpty then n else start) = start)
          ∨ (if buffer.isEmpty then n else start) = n := by
        cases buffer with
        | nil => exact Or.inr rfl
        | cons c cs => exact Or.inl ⟨by simp, rfl⟩
      have hfirst : ∀ k, k = (if buffer.isEmpty then n else start) →
          (buffer ≠ [] ∧ k = start) ∨ ∃ p ∈ (n, piece) :: rest, k = p.1 := by
        intro k hk
        rcases hstart with ⟨hb, hs⟩ | hn
        · exact Or.inl ⟨hb, hk.trans hs⟩
        · exact Or.inr ⟨(n, piece), List.mem_cons_self, hk.trans hn⟩
      simp only [joinLines] at h
      split at h
      · rcases ih h with ⟨-, hl⟩ | ⟨q, hq, hl⟩
        · exact hfirst _ hl
        · exact Or.inr ⟨q, List.mem_cons_of_mem _ hq, hl⟩
      · rcases List.mem_cons.mp h with rfl | hrest
        · exact hfirst _ rfl
        · rcases ih hrest with ⟨hb, -⟩ | ⟨q, hq, hl⟩
          · exact absurd rfl hb
          · exact Or.inr ⟨q, List.mem_cons_of_mem _ hq, hl⟩

/-- Absorbing lines into a definition adds no line number. -/
theorem line_of_mem_absorbWrapped {pending : Option LogicalLine} {ls : List LogicalLine}
    {l : LogicalLine} (h : l ∈ absorbWrapped pending ls) :
    ∃ m ∈ pending.toList ++ ls, l.line = m.line := by
  induction ls generalizing pending with
  | nil =>
      rw [absorbWrapped] at h
      exact ⟨l, by simpa using h, rfl⟩
  | cons m rest ih =>
      rw [absorbWrapped.eq_def] at h
      dsimp only at h
      split at h
      · rcases List.mem_append.mp h with hp | hrest
        · exact ⟨l, List.mem_append_left _ hp, rfl⟩
        · obtain ⟨k, hk, hl⟩ := ih hrest
          exact ⟨k, List.mem_append_right _ (by simpa using hk), hl⟩
      · cases pending with
        | none =>
            rcases List.mem_cons.mp h with rfl | hrest
            · exact ⟨l, by simp, rfl⟩
            · obtain ⟨k, hk, hl⟩ := ih hrest
              exact ⟨k, by simpa using Or.inr (by simpa using hk), hl⟩
        | some d =>
            dsimp only at h
            split at h
            · rcases List.mem_cons.mp h with rfl | h
              · exact ⟨l, by simp, rfl⟩
              · rcases List.mem_cons.mp h with rfl | hrest
                · exact ⟨l, by simp, rfl⟩
                · obtain ⟨k, hk, hl⟩ := ih hrest
                  exact ⟨k, by simpa using Or.inr (Or.inr (by simpa using hk)), hl⟩
            · obtain ⟨k, hk, hl⟩ := ih h
              rcases List.mem_cons.mp (by simpa using hk) with rfl | hrest
              · exact ⟨d, by simp, hl⟩
              · exact ⟨k, by simp [hrest], hl⟩

end Source

/-- Every logical line starts at a physical line of the source. -/
theorem logicalLines_line_bounds {source : List Char} {l : LogicalLine}
    (h : l ∈ logicalLines source) : 1 ≤ l.line ∧ l.line ≤ Source.lineCount source := by
  obtain ⟨m, hm, hl⟩ := Source.line_of_mem_absorbWrapped h
  rcases Source.line_of_mem_joinLines (by simpa using hm) with ⟨hb, -⟩ | ⟨p, hp, hmp⟩
  · exact absurd rfl hb
  · rw [hl, hmp]
    exact Source.mem_pieces hp

end FieldScript
