import Mathlib.Data.List.Flatten
import FieldScript.Proofs.InsertedLines
import FieldScript.Proofs.StatementStarts

/-!
# The runs of a source

What is left of the physical lines falls into consecutive runs, and each
logical line is made of one of them (`MadeOf`): its text is what the
pieces of the run contribute, its number that of the first piece that
contributes anything. Both passes keep this. Joining adds one piece to the
run that is still open (`Collected.extend`) and closes the run where the
piece is not continued; absorbing puts two runs together
(`MadeOf.append`).

No piece is left over but backslashes at the end of the source, which
continue nothing (`logicalLines_runs`).
-/

namespace FieldScript

/-! ## Blanks at an end -/

theorem trimEnd_append (a b : List Char) :
    trimEnd (a ++ b) = if trimEnd b = [] then trimEnd a else a ++ trimEnd b := by
  simp only [trimEnd, List.reverse_append, List.dropWhile_append, List.isEmpty_iff,
    List.reverse_eq_nil_iff]
  split
  · rfl
  · rw [List.reverse_append, List.reverse_reverse]

namespace Source

/-! ## Contributions -/

/-- What a piece adds to the text of its logical line: all of it, or what
stands in front of the backslash at its end. -/
def contribution (piece : List Char) : List Char := (continued? piece).getD piece

/-- The text of an open run with another contribution. -/
def extend (buffer part : List Char) : List Char :=
  if part = [] then buffer else if buffer = [] then part else buffer ++ ' ' :: part

/-- A text between two pieces, which ends at the last character that is no
blank. -/
def Trimmed (s : List Char) : Prop := s = [] ∨ EndsVisibly s

variable {buffer piece : List Char}

theorem continued?_joined (hbuffer : Trimmed buffer) (hpiece : piece ≠ []) :
    continued? (if buffer.isEmpty then piece else buffer ++ ' ' :: piece) =
      (continued? piece).map (extend buffer) := by
  rcases hbuffer with rfl | hbuffer
  · have hid : extend [] = id := by
      funext part
      rw [extend, if_pos rfl]
      split
      · exact Eq.symm ‹_›
      · rfl
    rw [hid, Option.map_id_fun, id_eq]
    rfl
  · have hne : buffer ≠ [] := by
      rintro rfl
      obtain ⟨c, rest, h, -⟩ := hbuffer
      cases h
    rw [if_neg fun h => hne (List.isEmpty_iff.mp h), List.append_cons, continued?, continued?,
      List.getLast?_append_of_ne_nil _ hpiece]
    split
    · rw [List.dropLast_append_of_ne_nil hpiece, trimEnd_append, Option.map_some, extend]
      have hblank : trimEnd [' '] = [] := rfl
      congr 1
      split
      · rw [trimEnd_append, if_pos hblank, hbuffer.trimEnd_eq]
      · rw [List.append_assoc, List.singleton_append]
    · rfl

theorem joined_eq_extend (hpiece : piece ≠ []) :
    (if buffer.isEmpty then piece else buffer ++ ' ' :: piece) = extend buffer piece := by
  rw [extend, if_neg hpiece]
  simp only [List.isEmpty_iff]

theorem contribution_of_continued {kept : List Char} (h : continued? piece = some kept) :
    contribution piece = kept := by
  rw [contribution, h, Option.getD_some]

theorem contribution_of_not_continued (h : continued? piece = none) :
    contribution piece = piece := by
  rw [contribution, h, Option.getD_none]

/-- One piece: its contribution goes to the open run, which ends there
unless the piece is continued. -/
theorem joinLines_cons (hbuffer : Trimmed buffer) (hpiece : piece ≠ []) (start n : Nat)
    (rest : List (Nat × List Char)) :
    joinLines buffer start ((n, piece) :: rest) =
      if (continued? piece).isSome then
        joinLines (extend buffer (contribution piece)) (if buffer.isEmpty then n else start) rest
      else
        ⟨extend buffer (contribution piece), if buffer.isEmpty then n else start⟩ ::
          joinLines [] 0 rest := by
  rw [joinLines, continued?_joined hbuffer hpiece]
  cases h : continued? piece with
  | none => rw [contribution_of_not_continued h, ← joined_eq_extend hpiece]; rfl
  | some kept => rw [contribution_of_continued h]; rfl

theorem trimmed_contribution (h : EndsVisibly piece) : Trimmed (contribution piece) := by
  cases hkept : continued? piece with
  | none =>
      rw [contribution_of_not_continued hkept]
      exact Or.inr h
  | some kept =>
      rw [contribution_of_continued hkept]
      rw [continued?] at hkept
      split at hkept
      · obtain rfl := Option.some.inj hkept
        exact or_iff_not_imp_left.mpr endsVisibly_trimEnd
      · cases hkept

theorem trimmed_extend {part : List Char} (hbuffer : Trimmed buffer) (hpart : Trimmed part) :
    Trimmed (extend buffer part) := by
  rw [extend]
  split
  · exact hbuffer
  · split
    · exact hpart
    · rw [List.append_cons]
      exact Or.inr ((hpart.resolve_left ‹_›).append _)

/-- Only a backslash by itself contributes nothing. -/
theorem eq_backslash_of_contribution (hpiece : StartsVisibly piece)
    (h : contribution piece = []) : piece = ['\\'] := by
  obtain ⟨c, rest, rfl, hc⟩ := hpiece
  cases hkept : continued? (c :: rest) with
  | none =>
      rw [contribution_of_not_continued hkept] at h
      cases h
  | some kept =>
      rw [contribution_of_continued hkept] at h
      subst h
      rw [continued?] at hkept
      split at hkept
      · rename_i hlast
        have hblank := Option.some.inj hkept
        rcases List.eq_nil_or_concat rest with rfl | ⟨init, d, rfl⟩
        · have hlast := eq_of_beq hlast
          obtain rfl := Option.some.inj hlast
          rfl
        · -- What stands in front of the backslash starts with a character that is no blank.
          rw [List.concat_eq_append, ← List.cons_append, List.dropLast_concat, trimEnd,
            List.reverse_eq_nil_iff, List.dropWhile_eq_nil_iff] at hblank
          have hc' := hblank c (List.mem_reverse.mpr List.mem_cons_self)
          exact absurd (hc.symm.trans hc') Bool.false_ne_true
      · cases hkept

/-! ## Runs -/

/-- The parts one behind the other, with one blank or nothing at each
join. -/
inductive Joined : List (List Char) → List Char → Prop
  | nil : Joined [] []
  | concat {parts : List (List Char)} {text gap part : List Char} (h : Joined parts text)
      (hgap : gap = [] ∨ gap = [' '] ∧ text ≠ [] ∧ part ≠ []) :
      Joined (parts ++ [part]) (text ++ gap ++ part)

/-- The number of the first piece that contributes anything. -/
def StartsAt (run : List (Nat × List Char)) (n : Nat) : Prop :=
  ∃ before piece after, run = before ++ (n, piece) :: after ∧
    (∀ p ∈ before, contribution p.2 = []) ∧ contribution piece ≠ []

/-- The text that a run has contributed so far, and where it starts. -/
structure Collected (run : List (Nat × List Char)) (text : List Char) (start : Nat) : Prop where
  joined : Joined (run.map fun p => contribution p.2) text
  start : text ≠ [] → StartsAt run start
  trimmed : Trimmed text

/-- The logical line is made of the pieces of the run. -/
structure MadeOf (run : List (Nat × List Char)) (l : LogicalLine) : Prop where
  joined : Joined (run.map fun p => contribution p.2) l.text
  nonempty : l.text ≠ []
  line : StartsAt run l.line

theorem Joined.append {parts parts' : List (List Char)} {text text' : List Char}
    (h : Joined parts text) (h' : Joined parts' text') :
    Joined (parts ++ parts') (text ++ text') := by
  induction h' with
  | nil =>
      rw [List.append_nil, List.append_nil]
      exact h
  | concat _ hgap ih =>
      rw [← List.append_assoc, ← List.append_assoc, ← List.append_assoc]
      refine ih.concat (hgap.imp_right fun ⟨hgap, hne, hpart⟩ => ⟨hgap, ?_, hpart⟩)
      exact List.append_ne_nil_of_right_ne_nil _ hne

theorem Joined.eq_nil_of_mem {parts : List (List Char)} {text : List Char} (h : Joined parts text)
    (hnil : text = []) : ∀ part ∈ parts, part = [] := by
  induction h with
  | nil => exact List.forall_mem_nil _
  | concat h hgap ih =>
      obtain ⟨htext, hpart⟩ := List.append_eq_nil_iff.mp hnil
      obtain ⟨htext, -⟩ := List.append_eq_nil_iff.mp htext
      exact List.forall_mem_append.mpr ⟨ih htext, List.forall_mem_singleton.mpr hpart⟩

theorem StartsAt.append {run : List (Nat × List Char)} {n : Nat} (h : StartsAt run n)
    (run' : List (Nat × List Char)) : StartsAt (run ++ run') n := by
  obtain ⟨before, piece, after, rfl, hbefore, hpiece⟩ := h
  exact ⟨before, piece, after ++ run', by simp, hbefore, hpiece⟩

theorem MadeOf.append {run run' : List (Nat × List Char)} {l l' : LogicalLine} (h : MadeOf run l)
    (h' : MadeOf run' l') : MadeOf (run ++ run') ⟨l.text ++ l'.text, l.line⟩ where
  joined := by
    rw [List.map_append]
    exact h.joined.append h'.joined
  nonempty := List.append_ne_nil_of_left_ne_nil h.nonempty _
  line := h.line.append run'

theorem collected_nil : Collected [] [] 0 where
  joined := .nil
  start hne := absurd rfl hne
  trimmed := Or.inl rfl

theorem Collected.madeOf {run : List (Nat × List Char)} {text : List Char} {start : Nat}
    (h : Collected run text start) (hne : text ≠ []) : MadeOf run ⟨text, start⟩ :=
  ⟨h.joined, hne, h.start hne⟩

/-- A piece goes to the run that is open. -/
theorem Collected.extend {run : List (Nat × List Char)} {start : Nat}
    (h : Collected run buffer start) (hpiece : EndsVisibly piece) (n : Nat) :
    Collected (run ++ [(n, piece)]) (extend buffer (contribution piece))
      (if buffer.isEmpty then n else start) where
  joined := by
    have hjoin : Source.extend buffer (contribution piece) =
        buffer ++ (if buffer ≠ [] ∧ contribution piece ≠ [] then [' '] else []) ++
          contribution piece := by
      rw [Source.extend]
      by_cases hpart : contribution piece = []
      · simp [hpart]
      · by_cases hbuffer : buffer = [] <;> simp [hpart, hbuffer]
    rw [hjoin, List.map_append]
    refine h.joined.concat ?_
    split
    · exact Or.inr ⟨rfl, ‹_›⟩
    · exact Or.inl rfl
  start hne := by
    by_cases hbuffer : buffer = []
    · subst hbuffer
      have hpart : contribution piece ≠ [] := by
        intro hnil
        rw [Source.extend, if_pos hnil] at hne
        exact hne rfl
      refine ⟨run, piece, [], rfl, fun p hp => ?_, hpart⟩
      exact h.joined.eq_nil_of_mem rfl _ (List.mem_map_of_mem hp)
    · rw [if_neg fun hempty => hbuffer (List.isEmpty_iff.mp hempty)]
      exact (h.start hbuffer).append _
  trimmed := trimmed_extend h.trimmed (trimmed_contribution hpiece)

/-! ## The two passes -/

/-- Joining divides the pieces into runs; what is left over contributes
nothing. `R` is what every piece keeps of the run that is open: its pieces,
the text they have contributed and where it starts. -/
theorem joinLines_collects {R : List (Nat × List Char) → List Char → Nat → Prop} (hnil : R [] [] 0)
    (hextend : ∀ {run buffer start piece}, R run buffer start → EndsVisibly piece → ∀ n,
      R (run ++ [(n, piece)]) (extend buffer (contribution piece))
        (if buffer.isEmpty then n else start))
    (hempty : ∀ {run start}, R run [] start → ∀ p ∈ run, contribution p.2 = [])
    {run ps : List (Nat × List Char)} {start : Nat} (hps : ∀ p ∈ ps, EndsVisibly p.2)
    (hbuffer : Trimmed buffer) (h : R run buffer start) :
    ∃ runs rest, run ++ ps = runs.flatten ++ rest ∧ (∀ p ∈ rest, contribution p.2 = []) ∧
      List.Forall₂ (fun r l => R r l.text l.line ∧ l.text ≠ []) runs
        (joinLines buffer start ps) := by
  induction ps generalizing run buffer start with
  | nil =>
      rw [joinLines, List.append_nil]
      by_cases hnone : buffer = []
      · subst hnone
        exact ⟨[], run, rfl, hempty h, .nil⟩
      · rw [if_neg fun hisEmpty => hnone (List.isEmpty_iff.mp hisEmpty)]
        exact ⟨[run], [], by simp, List.forall_mem_nil _, .cons ⟨h, hnone⟩ .nil⟩
  | cons p ps ih =>
      obtain ⟨n, piece⟩ := p
      obtain ⟨hpiece, hps⟩ := List.forall_mem_cons.mp hps
      have hne : piece ≠ [] := by
        rintro rfl
        obtain ⟨c, rest, hnil, -⟩ := hpiece
        cases hnil
      have hnext := hextend h hpiece n
      rw [joinLines_cons hbuffer hne, List.append_cons]
      cases hkept : continued? piece with
      | some kept => exact ih hps (trimmed_extend hbuffer (trimmed_contribution hpiece)) hnext
      | none =>
          obtain ⟨runs, rest, hsplit, hrest, hlines⟩ := ih hps (Or.inl rfl) hnil
          have htext : extend buffer (contribution piece) ≠ [] := by
            rw [contribution_of_not_continued hkept, extend, if_neg hne]
            split
            · exact hne
            · exact List.append_ne_nil_of_right_ne_nil _ (List.cons_ne_nil _ _)
          refine ⟨(run ++ [(n, piece)]) :: runs, rest, ?_, hrest, .cons ⟨hnext, htext⟩ hlines⟩
          rw [List.flatten_cons, List.append_assoc _ runs.flatten, ← hsplit, List.nil_append]

theorem joinLines_runs {run ps : List (Nat × List Char)} {start : Nat}
    (hps : ∀ p ∈ ps, EndsVisibly p.2) (h : Collected run buffer start) :
    ∃ runs rest, run ++ ps = runs.flatten ++ rest ∧ (∀ p ∈ rest, contribution p.2 = []) ∧
      List.Forall₂ MadeOf runs (joinLines buffer start ps) := by
  obtain ⟨runs, rest, hsplit, hrest, hlines⟩ := joinLines_collects collected_nil Collected.extend
    (fun h p hp => h.joined.eq_nil_of_mem rfl _ (List.mem_map_of_mem hp)) hps h.trimmed h
  exact ⟨runs, rest, hsplit, hrest, hlines.imp fun _ _ hl => hl.1.madeOf hl.2⟩

/-- Absorbing puts consecutive lines together. `S` is what is known of a
line and what it is made of, and `R` what is kept of the lines put together
so far. -/
theorem absorbWrapped_collects {β : Type} {S : β → LogicalLine → Prop}
    {R : List β → LogicalLine → Prop} (hsingle : ∀ {b l}, S b l → R [b] l)
    (hconcat : ∀ {bs b d l}, R bs d → S b l → startsWord l.text = false →
      R (bs ++ [b]) ⟨d.text ++ l.text, d.line⟩)
    {pending : Option LogicalLine} {bs more : List β} {ls : List LogicalLine}
    (hnone : pending = none → bs = []) (hsome : ∀ d ∈ pending, R bs d)
    (h : List.Forall₂ S more ls) :
    ∃ groups, groups.flatten = bs ++ more ∧ List.Forall₂ R groups (absorbWrapped pending ls) := by
  induction h generalizing pending bs with
  | nil =>
      rw [List.append_nil, absorbWrapped]
      cases pending with
      | none => exact ⟨[], (hnone rfl).symm, .nil⟩
      | some d => exact ⟨[bs], by simp, .cons (hsome d rfl) .nil⟩
  | @cons b l more rest hl _ ih =>
      rw [absorbWrapped.eq_def]
      dsimp only
      -- Behind the line a definition is pending, or nothing.
      obtain ⟨defined, hdefined, hdefinedLines⟩ :=
        @ih (some l) [b] (by simp) (by simpa using hsingle hl)
      obtain ⟨fresh, hfresh, hfreshLines⟩ := @ih none [] (by simp) (by simp)
      cases pending with
      | none =>
          rw [hnone rfl]
          split
          · exact ⟨defined, hdefined, hdefinedLines⟩
          · exact ⟨[b] :: fresh, by rw [List.flatten_cons, hfresh]; rfl,
              .cons (hsingle hl) hfreshLines⟩
      | some d =>
          have hd := hsome d rfl
          dsimp only
          split
          · exact ⟨bs :: defined, by rw [List.flatten_cons, hdefined]; rfl, .cons hd hdefinedLines⟩
          · rename_i hdef
            split
            · exact ⟨bs :: [b] :: fresh, by rw [List.flatten_cons, List.flatten_cons, hfresh]; rfl,
                .cons hd (.cons (hsingle hl) hfreshLines)⟩
            · rename_i hstatement
              have hword : startsWord l.text = false := by
                rw [startsWord, Bool.eq_false_iff.mpr hdef, Bool.eq_false_iff.mpr hstatement]
                rfl
              obtain ⟨groups, hflat, hlines⟩ := @ih (some ⟨d.text ++ l.text, d.line⟩) (bs ++ [b])
                (by simp) (by simpa using hconcat hd hl hword)
              exact ⟨groups, by rw [hflat, List.append_assoc]; rfl, hlines⟩

/-- Absorbing puts runs together. -/
theorem absorbWrapped_runs {pending : Option LogicalLine} {ls : List LogicalLine}
    {runs : List (List (Nat × List Char))} (h : List.Forall₂ MadeOf runs (pending.toList ++ ls)) :
    ∃ runs', runs'.flatten = runs.flatten ∧
      List.Forall₂ MadeOf runs' (absorbWrapped pending ls) := by
  have hcollects := @absorbWrapped_collects _ MadeOf (fun rs l => MadeOf rs.flatten l)
    (fun hl => by simpa using hl) (fun hd hl _ => by simpa using hd.append hl)
  obtain ⟨bs, more, rfl, hnone, hsome, hmore⟩ : ∃ bs more, runs = bs ++ more ∧
      (pending = none → bs = []) ∧ (∀ d ∈ pending, MadeOf bs.flatten d) ∧
      List.Forall₂ MadeOf more ls := by
    cases pending with
    | none => exact ⟨[], runs, rfl, fun _ => rfl, by simp, h⟩
    | some d =>
        obtain ⟨run, runs, hd, hmore, rfl⟩ := List.forall₂_cons_right_iff.mp h
        exact ⟨[run], runs, rfl, by simp, by simpa using hd, hmore⟩
  obtain ⟨groups, hflat, hlines⟩ := hcollects hnone hsome hmore
  refine ⟨groups.map List.flatten, ?_, List.forall₂_map_left_iff.mpr hlines⟩
  rw [← hflat, List.flatten_flatten]

/-! ## Numbers -/

theorem mem_numbered_iff {n k : Nat} {ls : List (List Char)} {raw : List Char} :
    (k, raw) ∈ numbered n ls ↔ n ≤ k ∧ ls[k - n]? = some raw := by
  induction ls generalizing n with
  | nil => simp [numbered]
  | cons l rest ih =>
      rw [numbered, List.mem_cons, ih]
      constructor
      · rintro (heq | ⟨hle, hget⟩)
        · obtain ⟨rfl, rfl⟩ := Prod.mk.inj heq
          simp
        · have hsub : k - n = (k - (n + 1)) + 1 := by omega
          rw [hsub, List.getElem?_cons_succ]
          exact ⟨by omega, hget⟩
      · rintro ⟨hle, hget⟩
        rcases Nat.eq_or_lt_of_le hle with rfl | hlt
        · rw [Nat.sub_self, List.getElem?_cons_zero] at hget
          rw [Option.some.inj hget]
          exact Or.inl rfl
        · have hsub : k - n = (k - (n + 1)) + 1 := by omega
          rw [hsub, List.getElem?_cons_succ] at hget
          exact Or.inr ⟨hlt, hget⟩

/-- The pieces are the physical lines without comments and outer blanks,
as far as anything is left of them. -/
theorem mem_pieces_iff {source : List Char} {n : Nat} {piece : List Char} :
    (n, piece) ∈ pieces source ↔ 1 ≤ n ∧ piece ≠ [] ∧
      ∃ raw, (source.splitOn '\n')[n - 1]? = some raw ∧ piece = trim (stripComment raw) := by
  rw [pieces, List.mem_filter, List.mem_map, ← splitLines_eq]
  constructor
  · rintro ⟨⟨⟨k, raw⟩, hmem, heq⟩, hne⟩
    obtain ⟨rfl, rfl⟩ := Prod.mk.inj heq
    obtain ⟨hle, hget⟩ := mem_numbered_iff.mp hmem
    exact ⟨hle, by simpa using hne, raw, hget, rfl⟩
  · rintro ⟨hle, hne, raw, hget, rfl⟩
    exact ⟨⟨(n, raw), mem_numbered_iff.mpr ⟨hle, hget⟩, rfl⟩, by simpa using hne⟩

theorem endsVisibly_of_mem_pieces {source : List Char} {p : Nat × List Char}
    (h : p ∈ pieces source) : EndsVisibly p.2 := by
  obtain ⟨-, hne, raw, -, heq⟩ := mem_pieces_iff.mp h
  rw [heq] at hne ⊢
  exact endsVisibly_trim hne

theorem MadeOf.exists_mem {run : List (Nat × List Char)} {l : LogicalLine} (h : MadeOf run l) :
    ∃ p ∈ run, l.line = p.1 := by
  obtain ⟨before, piece, after, rfl, -, -⟩ := h.line
  exact ⟨_, List.mem_append_right _ List.mem_cons_self, rfl⟩

theorem exists_mem_of_runs {runs : List (List (Nat × List Char))} {ls : List LogicalLine}
    (h : List.Forall₂ MadeOf runs ls) : ∀ l ∈ ls, ∃ p ∈ runs.flatten, l.line = p.1 := by
  induction h with
  | nil => exact List.forall_mem_nil _
  | cons hl _ ih =>
      refine List.forall_mem_cons.mpr ⟨?_, fun k hk => ?_⟩
      · obtain ⟨p, hp, hline⟩ := hl.exists_mem
        exact ⟨p, List.mem_append_left _ hp, hline⟩
      · obtain ⟨p, hp, hline⟩ := ih k hk
        exact ⟨p, List.mem_append_right _ hp, hline⟩

/-- Lines are numbered in ascending order if their pieces are. -/
theorem pairwise_of_runs {runs : List (List (Nat × List Char))} {ls : List LogicalLine}
    (h : List.Forall₂ MadeOf runs ls) (hsorted : runs.flatten.Pairwise fun p q => p.1 < q.1) :
    ls.Pairwise fun k l => k.line < l.line := by
  induction h with
  | nil => exact List.Pairwise.nil
  | cons hl hlines ih =>
      obtain ⟨-, hrest, hacross⟩ := List.pairwise_append.mp hsorted
      refine List.Pairwise.cons (fun k hk => ?_) (ih hrest)
      obtain ⟨p, hp, hline⟩ := hl.exists_mem
      obtain ⟨q, hq, hline'⟩ := exists_mem_of_runs hlines k hk
      rw [hline, hline']
      exact hacross p hp q hq

/-- Nothing of a source is lost or taken twice. -/
theorem logicalLines_runs (source : List Char) :
    ∃ runs rest, pieces source = runs.flatten ++ rest ∧ (∀ p ∈ rest, p.2 = ['\\']) ∧
      List.Forall₂ MadeOf runs (logicalLines source) ∧
      ((logicalLines source).Pairwise fun k l => k.line < l.line) ∧
      ((pieces source).Pairwise fun p q => p.1 < q.1) ∧
      ∀ n piece, (n, piece) ∈ pieces source ↔ 1 ≤ n ∧ piece ≠ [] ∧
        ∃ raw, (source.splitOn '\n')[n - 1]? = some raw ∧ piece = trim (stripComment raw) := by
  have hpieces : ∀ p ∈ pieces source, EndsVisibly p.2 := fun p hp => endsVisibly_of_mem_pieces hp
  obtain ⟨runs, rest, hsplit, hrest, hjoined⟩ := joinLines_runs hpieces collected_nil
  obtain ⟨runs', hflat, hlines⟩ := @absorbWrapped_runs none _ _ hjoined
  rw [List.nil_append, ← hflat] at hsplit
  have hsorted := pieces_pairwise source
  refine ⟨runs', rest, hsplit, fun p hp => ?_, hlines, ?_, hsorted, fun _ _ => mem_pieces_iff⟩
  · have hmem : p ∈ pieces source := hsplit ▸ List.mem_append_right _ hp
    exact eq_backslash_of_contribution (startsVisibly_of_mem_pieces hmem) (hrest p hp)
  · rw [hsplit] at hsorted
    exact pairwise_of_runs hlines (List.pairwise_append.mp hsorted).1

end Source
end FieldScript
