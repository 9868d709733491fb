import FieldScript.Proofs.FusedTokens
import FieldScript.Proofs.SourceRuns

/-!
# Tokens of joined lines

A logical line is put together in two ways. Continued pieces are joined
with one blank between each two (`runText`), and no token reaches over a
blank: such a line has the tokens of its pieces (`contents_runText`). A
definition absorbs lines without anything between them (`Built`), on
purpose, so that rows of a matrix stay next to each other; there the token
at the end of a line may go on in the next one.

A logical line has the tokens of its pieces exactly if nothing fuses where
a line was absorbed (`logicalLines_contents`).
-/

namespace FieldScript

open Scan (NoOpenQuote)

/-! ## Texts that are put together -/

/-- Texts one behind the other have their own tokens exactly if none of
them fuses with what stands behind it. -/
theorem contents_flatten_iff {texts : List (List Char)}
    (h : ∀ s ∈ texts, NoOpenQuote (tokenize s)) :
    contents texts.flatten = texts.flatMap contents ↔
      ∀ before s after, texts = before ++ s :: after → ¬ Fuses s after.flatten := by
  induction texts with
  | nil => simp [contents_nil]
  | cons t texts ih =>
      obtain ⟨ht, htexts⟩ := List.forall_mem_cons.mp h
      rw [List.flatten_cons, List.flatMap_cons, contents_append_iff ht, ih htexts]
      constructor
      · rintro ⟨hfirst, hrest⟩ before s after hsplit
        cases before with
        | nil =>
            obtain ⟨rfl, rfl⟩ := List.cons.inj hsplit
            exact hfirst
        | cons u before =>
            obtain ⟨rfl, rfl⟩ := List.cons.inj hsplit
            exact hrest before s after rfl
      · intro hall
        refine ⟨hall [] t texts rfl, fun before s after hsplit => ?_⟩
        exact hall (t :: before) s after (congrArg _ hsplit)

namespace Source

/-- The parts with one blank between each two; empty ones are left out. -/
def spaced (parts : List (List Char)) : List Char := parts.foldl extend []

/-- What the pieces of a run contribute. -/
def parts (run : List (Nat × List Char)) : List (List Char) := run.map fun p => contribution p.2

/-- The text of a run of continued pieces. -/
def runText (run : List (Nat × List Char)) : List Char := spaced (parts run)

theorem spaced_concat (ps : List (List Char)) (part : List Char) :
    spaced (ps ++ [part]) = extend (spaced ps) part := by
  rw [spaced, List.foldl_append]
  rfl

theorem runText_concat (run : List (Nat × List Char)) (n : Nat) (piece : List Char) :
    runText (run ++ [(n, piece)]) = extend (runText run) (contribution piece) := by
  rw [runText, parts, List.map_append]
  exact spaced_concat _ _

theorem eq_nil_of_extend {buffer part : List Char} (h : extend buffer part = []) :
    buffer = [] ∧ part = [] := by
  rw [extend] at h
  split at h
  · exact ⟨h, ‹_›⟩
  · split at h
    · exact absurd h ‹_›
    · simp at h

theorem eq_nil_of_spaced {ps : List (List Char)} (h : spaced ps = []) : ∀ part ∈ ps, part = [] := by
  induction ps using List.reverseRecOn with
  | nil => exact List.forall_mem_nil _
  | append_singleton ps part ih =>
      rw [spaced_concat] at h
      obtain ⟨hps, hpart⟩ := eq_nil_of_extend h
      exact List.forall_mem_append.mpr ⟨ih hps, List.forall_mem_singleton.mpr hpart⟩

/-! ## Blanks between parts -/

theorem contents_extend {buffer part : List Char} (hbuffer : NoOpenQuote (tokenize buffer)) :
    contents (extend buffer part) = contents buffer ++ contents part := by
  rw [extend]
  split
  · rename_i hpart
    rw [hpart, contents_nil, List.append_nil]
  · split
    · rename_i hempty
      rw [hempty, contents_nil, List.nil_append]
    · exact (contents_append_iff hbuffer).mpr
        ⟨not_fuses_cons (by decide) hbuffer part, contents_blank (by decide) part⟩

theorem noOpenQuote_extend {buffer part : List Char} (hbuffer : NoOpenQuote (tokenize buffer))
    (hpart : NoOpenQuote (tokenize part)) : NoOpenQuote (tokenize (extend buffer part)) := by
  rw [extend]
  split
  · exact hbuffer
  · split
    · exact hpart
    · rw [tokenize, Scan.noOpenQuote_iff] at hbuffer hpart ⊢
      rwa [openQuote_append hbuffer, Scan.openQuote_blank (by decide)]

/-- No token reaches over a blank between two parts. -/
theorem contents_spaced {ps : List (List Char)} (h : ∀ part ∈ ps, NoOpenQuote (tokenize part)) :
    contents (spaced ps) = ps.flatMap contents ∧ NoOpenQuote (tokenize (spaced ps)) := by
  induction ps using List.reverseRecOn with
  | nil => exact ⟨contents_nil, by rw [spaced, List.foldl_nil, tokenize, Scan.noOpenQuote_iff]; rfl⟩
  | append_singleton ps part ih =>
      obtain ⟨hps, hpart⟩ := List.forall_mem_append.mp h
      have hpart := hpart part (List.mem_singleton_self part)
      obtain ⟨hcontents, hopen⟩ := ih hps
      rw [spaced_concat, contents_extend hopen, hcontents, List.flatMap_append,
        List.flatMap_singleton]
      exact ⟨rfl, noOpenQuote_extend hopen hpart⟩

/-! ## Logical lines -/

/-- The logical line is put together from the runs: each of them is joined
with blanks, and the lines behind the first are absorbed, because they
start nothing, with nothing in front of them. -/
structure Built (runs : List (List (Nat × List Char))) (l : LogicalLine) : Prop where
  text : l.text = (runs.map runText).flatten
  nonempty : runs ≠ []
  absorbed : ∀ run ∈ runs.tail, startsWord (runText run) = false

/-- No quote is left open in any piece of the runs. -/
def QuotesClosed (runs : List (List (Nat × List Char))) : Prop :=
  ∀ run ∈ runs, ∀ part ∈ parts run, NoOpenQuote (tokenize part)

/-- A token goes on where a line was absorbed. -/
def FusesWithin (runs : List (List (Nat × List Char))) : Prop :=
  ∃ before run after, runs = before ++ run :: after ∧
    Fuses (runText run) (after.map runText).flatten

theorem Built.contents_iff {runs : List (List (Nat × List Char))} {l : LogicalLine}
    (h : Built runs l) (hclosed : QuotesClosed runs) :
    contents l.text = (runs.flatMap parts).flatMap contents ↔ ¬ FusesWithin runs := by
  have htexts : ∀ s ∈ runs.map runText, NoOpenQuote (tokenize s) := by
    intro s hs
    obtain ⟨run, hrun, rfl⟩ := List.mem_map.mp hs
    exact (contents_spaced (hclosed run hrun)).2
  have hparts : (runs.flatMap parts).flatMap contents = (runs.map runText).flatMap contents := by
    rw [List.flatMap_assoc, List.flatMap_map]
    exact List.flatMap_congr fun run hrun => (contents_spaced (hclosed run hrun)).1.symm
  rw [h.text, hparts, contents_flatten_iff htexts]
  constructor
  · rintro hall ⟨before, run, after, rfl, hfuses⟩
    exact hall (before.map runText) (runText run) (after.map runText) (by simp) hfuses
  · rintro hnot before s after hsplit hfuses
    obtain ⟨before, tail, rfl, rfl, htail⟩ := List.map_eq_append_iff.mp hsplit
    obtain ⟨run, after, rfl, rfl, rfl⟩ := List.map_eq_cons_iff.mp htail
    exact hnot ⟨before, run, after, rfl, hfuses⟩

theorem Built.single {run : List (Nat × List Char)} {l : LogicalLine} (h : l.text = runText run) :
    Built [run] l where
  text := by simpa using h
  nonempty := List.cons_ne_nil _ _
  absorbed := List.forall_mem_nil _

theorem Built.concat {runs : List (List (Nat × List Char))} {run : List (Nat × List Char)}
    {d l : LogicalLine} (h : Built runs d) (hl : l.text = runText run)
    (hword : startsWord l.text = false) : Built (runs ++ [run]) ⟨d.text ++ l.text, d.line⟩ where
  text := by simp [h.text, hl]
  nonempty := List.append_ne_nil_of_left_ne_nil h.nonempty _
  absorbed := by
    rw [List.tail_append_of_ne_nil h.nonempty]
    exact List.forall_mem_append.mpr ⟨h.absorbed, List.forall_mem_singleton.mpr (hl ▸ hword)⟩

theorem logicalLines_built (source : List Char) :
    ∃ lines rest, pieces source = lines.flatten.flatten ++ rest ∧ (∀ p ∈ rest, p.2 = ['\\']) ∧
      List.Forall₂ Built lines (logicalLines source) := by
  have hpieces : ∀ p ∈ pieces source, EndsVisibly p.2 := fun p hp => endsVisibly_of_mem_pieces hp
  obtain ⟨runs, rest, hsplit, hrest, hjoined⟩ :
      ∃ (runs : List (List (Nat × List Char))) (rest : List (Nat × List Char)),
        pieces source = runs.flatten ++ rest ∧ (∀ p ∈ rest, contribution p.2 = []) ∧
        List.Forall₂ (fun run (l : LogicalLine) => l.text = runText run ∧ l.text ≠ []) runs
          (joinedLines source) :=
    @joinLines_collects [] (fun run text _ => text = runText run) rfl
      (fun h _ n => by rw [runText_concat, h])
      (fun h p hp => eq_nil_of_spaced h.symm _ (List.mem_map_of_mem hp)) [] _ 0 hpieces
      (Or.inl rfl) rfl
  obtain ⟨lines, hflat, hlines⟩ : ∃ lines, lines.flatten = [] ++ runs ∧
      List.Forall₂ Built lines (absorbWrapped none (joinedLines source)) :=
    absorbWrapped_collects (fun h => .single h.1) (fun hd hl hword => hd.concat hl.1 hword)
      (fun _ => rfl) (by simp) hjoined
  refine ⟨lines, rest, ?_, fun p hp => ?_, hlines⟩
  · rw [hflat, List.nil_append, hsplit]
  · have hmem : p ∈ pieces source := hsplit ▸ List.mem_append_right _ hp
    exact eq_backslash_of_contribution (startsVisibly_of_mem_pieces hmem) (hrest p hp)

/-- Every logical line is put together from its pieces. If no quote is left
open in them, what is joined by blanks has their tokens, and the logical
line has them exactly if nothing fuses where a line was absorbed. -/
theorem logicalLines_contents (source : List Char) :
    ∃ lines rest, pieces source = lines.flatten.flatten ++ rest ∧ (∀ p ∈ rest, p.2 = ['\\']) ∧
      List.Forall₂ (fun runs l => Built runs l ∧ (QuotesClosed runs →
        (∀ run ∈ runs, contents (runText run) = (parts run).flatMap contents) ∧
        contents (spaced (runs.flatMap parts)) = (runs.flatMap parts).flatMap contents ∧
        (contents l.text = (runs.flatMap parts).flatMap contents ↔ ¬ FusesWithin runs)))
        lines (logicalLines source) := by
  obtain ⟨lines, rest, hsplit, hrest, hlines⟩ := logicalLines_built source
  refine ⟨lines, rest, hsplit, hrest, hlines.imp fun runs l hl => ⟨hl, fun hclosed => ?_⟩⟩
  have hall : ∀ part ∈ runs.flatMap parts, NoOpenQuote (tokenize part) := by
    intro part hpart
    obtain ⟨run, hrun, hpart⟩ := List.mem_flatMap.mp hpart
    exact hclosed run hrun part hpart
  exact ⟨fun run hrun => (contents_spaced (hclosed run hrun)).1, (contents_spaced hall).1,
    hl.contents_iff hclosed⟩

/-- A definition that is wrapped between a word and a number. -/
def wrappedCondition : List Char := "DEF FNA(x) = x if\n1 else 2".toList

theorem wrappedCondition_fused :
    ∃ runs l, logicalLines wrappedCondition = [l] ∧ pieces wrappedCondition = runs.flatten ∧
      Built runs l ∧ QuotesClosed runs ∧
      contents l.text ≠ (runs.flatMap parts).flatMap contents := by
  refine ⟨[[(1, "DEF FNA(x) = x if".toList)], [(2, "1 else 2".toList)]],
    ⟨"DEF FNA(x) = x if1 else 2".toList, 1⟩, by decide, by decide,
    ⟨by decide, by decide, by decide⟩, ?_, ?_⟩
  · unfold QuotesClosed NoOpenQuote
    decide +kernel
  · decide +kernel

end Source
end FieldScript
