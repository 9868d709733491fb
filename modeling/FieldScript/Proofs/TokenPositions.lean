import Mathlib.Data.List.TakeWhile
import FieldScript.Statement

/-!
# Where tokens stand

Each token starts at a character of the line that is no blank, and the
tokens of a line start one behind the other. This is what makes the text
of a run of tokens nonempty as soon as the run is: the cut from the line
contains the first character of the run, and trimming stops there.

Runs are sublists of the tokens of a line, in their order; `between`
and `splitTopLevel` give nothing else.
-/

namespace FieldScript

theorem trim_ne_nil {s : List Char} {c : Char} (h : c ∈ s) (hc : isBlank c = false) :
    trim s ≠ [] := by
  -- A character that is no blank survives the cut at either end.
  have hkeep : ∀ {t : List Char}, c ∈ t → c ∈ t.dropWhile isBlank := by
    intro t ht
    rw [← List.takeWhile_append_dropWhile (p := isBlank) (l := t)] at ht
    rcases List.mem_append.mp ht with htake | hdrop
    · rw [List.mem_takeWhile_imp htake] at hc
      cases hc
    · exact hdrop
  have hmem : c ∈ trim s :=
    List.mem_reverse.mpr (hkeep (List.mem_reverse.mpr (hkeep h)))
  exact List.ne_nil_of_mem hmem

namespace Scan

/-- The token starts in the text `s`, which stands at position `p`, at a
character that is no blank. -/
def StartsIn (p : Nat) (s : List Char) (t : Token) : Prop :=
  t.text ≠ [] ∧ ∃ i c, t.position = p + i ∧ s[i]? = some c ∧ isBlank c = false

theorem StartsIn.of_drop {p n : Nat} {s : List Char} {t : Token}
    (h : StartsIn (p + n) (s.drop n) t) : StartsIn p s t := by
  obtain ⟨htext, i, c, hpos, hget, hc⟩ := h
  refine ⟨htext, n + i, c, by rw [hpos]; omega, ?_, hc⟩
  rw [← hget, List.getElem?_drop]

theorem startsIn_of_mem {p : Nat} {s : List Char} {t : Token} (h : t ∈ tokensFrom p s) :
    StartsIn p s t := by
  fun_induction tokensFrom p s with
  | case1 => cases h
  | case2 p c rest hblank ih => exact (ih h).of_drop (n := 1)
  | case3 p c rest hblank kind more hlex ih =>
      rcases List.mem_cons.mp h with rfl | hrest
      · exact ⟨by simp, 0, c, rfl, rfl, by simpa using hblank⟩
      · have hin := ih hrest
        have hmore : (rest.take more).length = more := by
          rcases Nat.lt_or_ge rest.length more with hgt | hle
          · rw [List.drop_of_length_le (by omega), tokensFrom] at hrest
            cases hrest
          · exact List.length_take_of_le hle
        rw [hmore, Nat.add_assoc] at hin
        refine StartsIn.of_drop (n := 1 + more) ?_
        rw [Nat.add_comm 1 more, List.drop_succ_cons, Nat.add_comm more 1]
        exact hin

theorem le_position_of_mem {p : Nat} {s : List Char} {t : Token} (h : t ∈ tokensFrom p s) :
    p ≤ t.position := by
  obtain ⟨-, i, -, hpos, -⟩ := startsIn_of_mem h
  omega

/-- Tokens start one behind the other. -/
theorem tokensFrom_pairwise (p : Nat) (s : List Char) :
    (tokensFrom p s).Pairwise fun t u => t.position < u.position := by
  fun_induction tokensFrom p s with
  | case1 => exact List.Pairwise.nil
  | case2 p c rest hblank ih => exact ih
  | case3 p c rest hblank kind more hlex ih =>
      refine List.Pairwise.cons ?_ ih
      intro u hu
      have hle := le_position_of_mem hu
      show p < u.position
      omega

end Scan

/-! ## Runs of tokens -/

theorem flatten_consFirst (t : Token) (gs : List (List Token)) :
    (consFirst t gs).flatten = t :: gs.flatten := by
  cases gs <;> rfl

/-- Splitting drops separators and keeps the order. -/
theorem flatten_splitFrom_sublist (separator : Kind) (depth : Int) (ts : List Token) :
    (splitFrom separator depth ts).flatten.Sublist ts := by
  induction ts generalizing depth with
  | nil => exact List.Sublist.refl _
  | cons t rest ih =>
      rw [splitFrom]
      split
      · exact (ih _).cons t
      · rw [flatten_consFirst]
        exact (ih _).cons_cons t

theorem sublist_of_mem_splitTopLevel {ts g : List Token} {separator : Kind}
    (h : g ∈ splitTopLevel ts separator) : g.Sublist ts :=
  (List.sublist_flatten_of_mem h).trans (flatten_splitFrom_sublist separator 0 ts)

theorem Statement.between_sublist (ts : List Token) (start stop : Nat) :
    (Statement.between ts start stop).Sublist ts :=
  (List.drop_sublist start _).trans (List.take_sublist stop ts)

/-- The text of a nonempty run of tokens is not empty. -/
theorem sliceText_ne_nil {line : List Char} {g : List Token} (hg : g.Sublist (tokenize line))
    (hne : g ≠ []) : sliceText line g ≠ [] := by
  obtain ⟨a, rest, rfl⟩ := List.exists_cons_of_ne_nil hne
  have hlast : (a :: rest).getLast? = some ((a :: rest).getLast hne) :=
    List.getLast?_eq_some_getLast hne
  generalize hb : (a :: rest).getLast hne = b at hlast
  have hmem : b ∈ a :: rest := hb ▸ List.getLast_mem hne
  obtain ⟨-, i, c, hpos, hget, hc⟩ :=
    Scan.startsIn_of_mem (hg.subset List.mem_cons_self)
  obtain ⟨htext, -⟩ := Scan.startsIn_of_mem (hg.subset hmem)
  -- The last token of the run ends behind the start of the first.
  have hstop : a.position < b.stop := by
    have hlen : 0 < b.text.length := List.length_pos_iff.mpr htext
    have hle : a.position ≤ b.position := by
      rcases List.mem_cons.mp hmem with rfl | hrest
      · exact Nat.le_refl _
      · have hsorted := (Scan.tokensFrom_pairwise 0 line).sublist hg
        exact Nat.le_of_lt (List.rel_of_pairwise_cons hsorted hrest)
    rw [Token.stop]
    omega
  have hslice : rawSlice line (a :: rest) = (line.take b.stop).drop a.position := by
    rw [rawSlice, List.head?_cons, hlast]
  refine trim_ne_nil (c := c) ?_ hc
  rw [hslice]
  refine List.mem_of_getElem? (i := 0) ?_
  rw [List.getElem?_drop, List.getElem?_take_of_lt (by omega), Nat.add_zero, ← hget, hpos,
    Nat.zero_add]

theorem Statement.textOf_ne_empty {l : LogicalLine} {g : List Token}
    (hg : g.Sublist (tokenize l.text)) (hne : g ≠ []) : Statement.textOf l g ≠ "" := by
  intro h
  apply sliceText_ne_nil hg hne
  have htext := congrArg String.toList h
  rwa [Statement.textOf, String.toList_ofList] at htext

end FieldScript
