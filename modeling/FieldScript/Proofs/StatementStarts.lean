import Mathlib.Data.List.Induction
import FieldScript.Proofs.Outcome
import FieldScript.Proofs.SourceLines
import FieldScript.Proofs.TokenSeams

/-!
# Where statements begin

Two readers decide where a statement begins. The reader of statements
looks at the first token of a line: it is a name, and in upper case a
word of the language. What joins wrapped definitions looks at the
characters: the line starts with a word, and a blank or nothing follows.

They agree on every word that a blank follows (`startsWord_iff`), and the
second one lets a pending definition absorb the line where anything else
follows. Where no definition is pending, every line begins a statement of
its own.
-/

namespace FieldScript

namespace Source

/-! ## Joined lines -/

/-- The lines of a source without comments, when continued lines are
joined. -/
def joinedLines (source : List Char) : List LogicalLine :=
  joinLines [] 0 (pieces source)

theorem logicalLines_eq (source : List Char) :
    logicalLines source = absorbWrapped none (joinedLines source) := rfl

theorem numbered_pairwise (n : Nat) (ls : List (List Char)) :
    (numbered n ls).Pairwise fun p q => p.1 < q.1 := by
  induction ls generalizing n with
  | nil => exact List.Pairwise.nil
  | cons l rest ih => exact List.Pairwise.cons (fun p hp => (mem_numbered hp).1) (ih (n + 1))

theorem pieces_pairwise (s : List Char) : (pieces s).Pairwise fun p q => p.1 < q.1 :=
  List.Pairwise.filter _ (List.pairwise_map.mpr (numbered_pairwise 1 (splitLines s)))

theorem startsVisibly_of_mem_pieces {s : List Char} {p : Nat × List Char} (h : p ∈ pieces s) :
    StartsVisibly p.2 := by
  obtain ⟨hmem, hne⟩ := List.mem_filter.mp h
  obtain ⟨q, -, rfl⟩ := List.mem_map.mp hmem
  refine startsVisibly_trim ?_
  simpa using hne

/-- Joined lines have different numbers, in ascending order. -/
theorem joinLines_pairwise {buffer : List Char} {start : Nat} {ps : List (Nat × List Char)}
    (hps : ps.Pairwise fun p q => p.1 < q.1) (hstart : ∀ p ∈ ps, buffer ≠ [] → start < p.1) :
    (joinLines buffer start ps).Pairwise fun k l => k.line < l.line := by
  induction ps generalizing buffer start with
  | nil =>
      rw [joinLines]
      split
      · exact List.Pairwise.nil
      · exact List.pairwise_singleton _ _
  | cons p rest ih =>
      obtain ⟨n, piece⟩ := p
      obtain ⟨hn, hrest⟩ := List.pairwise_cons.mp hps
      have hfirst : ∀ q ∈ rest, (if buffer.isEmpty then n else start) < q.1 := by
        intro q hq
        split
        · exact hn q hq
        · rename_i hbuffer
          exact hstart q (List.mem_cons_of_mem _ hq) (mt List.isEmpty_iff.mpr hbuffer)
      rw [joinLines]
      split
      · exact ih hrest fun q hq _ => hfirst q hq
      · refine List.Pairwise.cons (fun l hl => ?_) (ih hrest fun _ _ hne => absurd rfl hne)
        rcases line_of_mem_joinLines hl with ⟨hne, -⟩ | ⟨q, hq, hline⟩
        · exact absurd rfl hne
        · exact hline ▸ hfirst q hq

theorem isPrefix_of_continued? {s kept : List Char} (h : continued? s = some kept) :
    kept <+: s := by
  unfold continued? at h
  split at h
  · obtain rfl := Option.some.inj h
    exact (trimEnd_isPrefix _).trans (List.dropLast_prefix _)
  · cases h

theorem startsVisibly_of_mem_joinLines {buffer : List Char} {start : Nat}
    {ps : List (Nat × List Char)} {l : LogicalLine} (hps : ∀ p ∈ ps, StartsVisibly p.2)
    (hbuffer : buffer ≠ [] → StartsVisibly buffer) (h : l ∈ joinLines buffer start ps) :
    StartsVisibly l.text := by
  induction ps generalizing buffer start with
  | nil =>
      rw [joinLines] at h
      split at h
      · cases h
      · rename_i hne
        obtain rfl := List.mem_singleton.mp h
        exact hbuffer (mt List.isEmpty_iff.mpr hne)
  | cons p rest ih =>
      obtain ⟨n, piece⟩ := p
      obtain ⟨hpiece, hrest⟩ := List.forall_mem_cons.mp hps
      have htext : StartsVisibly (if buffer.isEmpty then piece else buffer ++ ' ' :: piece) := by
        split
        · exact hpiece
        · rename_i hne
          exact (hbuffer (mt List.isEmpty_iff.mpr hne)).append _
      rw [joinLines] at h
      split at h
      · rename_i kept hkept
        exact ih hrest (fun hne => htext.of_isPrefix (isPrefix_of_continued? hkept) hne) h
      · rcases List.mem_cons.mp h with rfl | h
        · exact htext
        · exact ih hrest (fun hne => absurd rfl hne) h

theorem joinedLines_pairwise (source : List Char) :
    (joinedLines source).Pairwise fun k l => k.line < l.line :=
  joinLines_pairwise (pieces_pairwise source) fun _ _ hne => absurd rfl hne

theorem startsVisibly_of_mem_joinedLines {source : List Char} {l : LogicalLine}
    (h : l ∈ joinedLines source) : StartsVisibly l.text :=
  startsVisibly_of_mem_joinLines (fun _ hp => startsVisibly_of_mem_pieces hp)
    (fun hne => absurd rfl hne) h

/-! ## Words at the start -/

/-- The words that statements begin with. -/
def headWords : List String := "DEF" :: statementWords

/-- The line starts with a word and a blank or nothing. -/
def startsWord (s : List Char) : Bool := startsDefinition s || startsStatement s

theorem startsWord_eq (s : List Char) : startsWord s = headWords.any (startsWithWord · s) := rfl

/-- The first token is a word that statements begin with. -/
def HasHeadWord (s : List Char) : Prop :=
  ∃ t, (tokenize s).head? = some t ∧ t.isWord headWords = true

/-- The first token is followed by a blank or by nothing. -/
def BlankBehindHead (s : List Char) : Prop :=
  ∀ t, (tokenize s).head? = some t → ∀ c, (s.drop t.stop).head? = some c → isBlank c = true

/-- A line that starts with a name, divided behind it. -/
theorem exists_name_of_hasHeadWord {s : List Char} (hs : StartsVisibly s) (h : HasHeadWord s) :
    ∃ name behind, s = name ++ behind ∧ (tokenize s).head? = some ⟨.ident, name, 0⟩ ∧
      IsName name ∧ (∀ c, behind.head? = some c → Scan.isNameChar c = false) ∧
      upperName (String.ofList name) ∈ headWords := by
  obtain ⟨c, rest, rfl, hc⟩ := hs
  obtain ⟨t, ht, hword⟩ := h
  rw [tokenize, Scan.tokensFrom_cons hc, List.head?_cons] at ht
  obtain rfl := Option.some.inj ht
  obtain ⟨hkind, hmem⟩ := Bool.and_eq_true_iff.mp hword
  have hstart := Scan.isNameStart_of_lexeme (eq_of_beq hkind)
  rw [Scan.lexeme_of_isNameStart hstart] at ht hmem
  have htake : rest.take (Scan.run Scan.isNameChar rest) = rest.takeWhile Scan.isNameChar :=
    (List.prefix_iff_eq_take.mp (List.takeWhile_prefix _)).symm
  refine ⟨c :: rest.takeWhile Scan.isNameChar, rest.dropWhile Scan.isNameChar, ?_, ?_, ?_, ?_, ?_⟩
  · rw [List.cons_append, List.takeWhile_append_dropWhile]
  · rw [tokenize, Scan.tokensFrom_cons hc, Scan.lexeme_of_isNameStart hstart, htake]
    rfl
  · exact ⟨c, _, rfl, hstart, fun d hd => List.mem_takeWhile_imp hd⟩
  · intro d hd
    have hne : rest.dropWhile Scan.isNameChar ≠ [] := by
      intro hnil
      rw [hnil] at hd
      cases hd
    have hhead := List.head_dropWhile_not Scan.isNameChar hne
    rw [List.head?_eq_some_head hne] at hd
    rwa [Option.some.inj hd] at hhead
  · simpa [Token.value, htake] using hmem

/-- Upper case does not change which letter it is. -/
theorem foldLetter_toUpper {c : Char} (h : Scan.isNameChar c = true) :
    foldLetter c.toUpper = foldLetter c :=
  Scan.forall_isNameChar (P := fun c => foldLetter c.toUpper = foldLetter c)
    (by decide +kernel) h

theorem map_foldLetter_upperName {name : List Char} (h : IsName name) :
    (upperName (String.ofList name)).toList.map foldLetter = name.map foldLetter := by
  rw [upperName, String.toList_map, String.toList_ofList, List.map_map]
  exact List.map_congr_left fun c hc => foldLetter_toUpper (h.forall_isNameChar c hc)

/-- No word is the beginning of another one. -/
theorem length_eq_of_isPrefix : ∀ v ∈ headWords, ∀ w ∈ headWords,
    (v.toList.map foldLetter).isPrefixOf (w.toList.map foldLetter) = true →
      v.toList.length = w.toList.length := by
  decide +kernel

/-- The two readers of a first word agree where a blank or nothing
follows it, and nowhere else. -/
theorem startsWord_iff {s : List Char} (hs : StartsVisibly s) (h : HasHeadWord s) :
    startsWord s = true ↔ BlankBehindHead s := by
  obtain ⟨name, behind, rfl, hhead, hname, hbehind, hmem⟩ := exists_name_of_hasHeadWord hs h
  have hfold := map_foldLetter_upperName hname
  have hlen : (upperName (String.ofList name)).toList.length = name.length := by
    rw [← List.length_map foldLetter, hfold, List.length_map]
  have hblank : BlankBehindHead (name ++ behind) ↔
      ∀ c, behind.head? = some c → isBlank c = true := by
    rw [BlankBehindHead, hhead]
    simp only [Option.some.injEq, forall_eq', Token.stop, Nat.zero_add, List.drop_left]
  rw [hblank, startsWord_eq, List.any_eq_true]
  constructor
  · rintro ⟨w, hw, hstarts⟩ c hc
    obtain ⟨htake, hdrop⟩ := Bool.and_eq_true_iff.mp hstarts
    rw [List.length_map] at htake hdrop
    have htake := eq_of_beq htake
    -- A shorter word would have a character of the name behind it, which is no blank.
    have hle : name.length ≤ w.toList.length := by
      by_contra hlt
      have hlt : w.toList.length < name.length := Nat.lt_of_not_le hlt
      rw [List.head?_drop, List.getElem?_append_left hlt, List.getElem?_eq_getElem hlt] at hdrop
      have hchar := hname.forall_isNameChar _ (List.getElem_mem hlt)
      exact Bool.false_ne_true ((Scan.isBlank_of_isNameChar hchar).symm.trans hdrop)
    have hlength : name.length = w.toList.length := by
      rw [← hlen]
      refine length_eq_of_isPrefix _ hmem w hw ?_
      rw [List.isPrefixOf_iff_prefix, hfold, ← htake, List.take_append,
        List.take_of_length_le hle, List.map_append]
      exact List.prefix_append _ _
    rw [← hlength, List.drop_left, hc] at hdrop
    exact hdrop
  · intro hc
    refine ⟨_, hmem, ?_⟩
    rw [startsWithWord, Bool.and_eq_true]
    rw [List.length_map, hlen, List.take_left, List.drop_left, hfold]
    refine ⟨beq_self_eq_true _, ?_⟩
    cases hb : behind.head? with
    | none => rfl
    | some c => exact hc c hb

theorem mem_headWords_of_reader? {w : String} (h : (Statement.reader? w).isSome = true) :
    w ∈ headWords := by
  unfold Statement.reader? at h
  split at h <;> first | decide | cases h

/-- Every line that is accepted has a first word. -/
theorem hasHeadWord_of_parse {l : LogicalLine} {s : Statement} (h : Statement.parse l = .ok s) :
    HasHeadWord l.text := by
  rw [Statement.parse] at h
  cases hhead : (tokenize l.text).head? with
  | none =>
      rw [hhead] at h
      cases h
  | some t =>
      rw [hhead, Option.bind_some] at h
      refine ⟨t, hhead, ?_⟩
      by_cases hkind : (t.kind == .ident) = true
      · rw [if_pos hkind] at h
        cases hreader : Statement.reader? (upperName t.value) with
        | none =>
            rw [hreader] at h
            cases h
        | some r =>
            have hmem := mem_headWords_of_reader? (by rw [hreader]; rfl)
            exact Bool.and_eq_true_iff.mpr ⟨hkind, List.contains_iff_mem.mpr hmem⟩
      · rw [if_neg hkind] at h
        cases h

/-! ## Pending definitions -/

/-- A definition stands above, and no line between starts anything. -/
def DefinitionPending (above : List LogicalLine) : Prop :=
  ∃ before d wrapped, above = before ++ d :: wrapped ∧ startsDefinition d.text = true ∧
    ∀ k ∈ wrapped, startsWord k.text = false

theorem definitionPending_concat {above : List LogicalLine} {k : LogicalLine} :
    DefinitionPending (above ++ [k]) ↔
      startsDefinition k.text = true ∨ DefinitionPending above ∧ startsWord k.text = false := by
  constructor
  · rintro ⟨before, d, wrapped, hsplit, hd, hwrapped⟩
    rcases List.eq_nil_or_concat wrapped with rfl | ⟨wrapped, j, rfl⟩
    · obtain ⟨-, hk⟩ := List.append_inj' hsplit rfl
      obtain rfl := List.singleton_inj.mp hk
      exact Or.inl hd
    · rw [List.concat_eq_append] at hsplit hwrapped
      rw [← List.cons_append, ← List.append_assoc] at hsplit
      obtain ⟨rfl, hk⟩ := List.append_inj' hsplit rfl
      obtain rfl := List.singleton_inj.mp hk
      refine Or.inr ⟨⟨before, d, wrapped, rfl, hd, fun j hj => ?_⟩, ?_⟩
      · exact hwrapped j (List.mem_append_left _ hj)
      · exact hwrapped k (List.mem_append_right _ (List.mem_singleton_self k))
  · rintro (hk | ⟨⟨before, d, wrapped, rfl, hd, hwrapped⟩, hk⟩)
    · exact ⟨above, k, [], rfl, hk, List.forall_mem_nil _⟩
    · refine ⟨before, d, wrapped ++ [k], by simp, hd, ?_⟩
      exact List.forall_mem_append.mpr ⟨hwrapped, List.forall_mem_singleton.mpr hk⟩

/-- One line: the lines that are complete before the next one, and the
definition that is pending then. -/
theorem absorbWrapped_cons (pending : Option LogicalLine) (k : LogicalLine) :
    ∃ done pending', (∀ rest, absorbWrapped pending (k :: rest) = done ++ absorbWrapped pending' rest) ∧
      (pending'.isSome = true ↔
        startsDefinition k.text = true ∨ pending.isSome = true ∧ startsWord k.text = false) := by
  by_cases hdef : startsDefinition k.text = true
  · refine ⟨pending.toList, some k, fun rest => ?_, by simp [hdef]⟩
    rw [absorbWrapped.eq_def]
    exact if_pos hdef
  · have hword : startsWord k.text = startsStatement k.text := by
      rw [startsWord, Bool.eq_false_iff.mpr hdef, Bool.false_or]
    rw [hword]
    cases pending with
    | none =>
        refine ⟨[k], none, fun rest => ?_, by simp [hdef]⟩
        rw [absorbWrapped.eq_def]
        exact if_neg hdef
    | some d =>
        by_cases hstatement : startsStatement k.text = true
        · refine ⟨[d, k], none, fun rest => ?_, by simp [hdef, hstatement]⟩
          rw [absorbWrapped.eq_def]
          exact (if_neg hdef).trans (if_pos hstatement)
        · refine ⟨[], some ⟨d.text ++ k.text, d.line⟩, fun rest => ?_, by simp [hstatement]⟩
          rw [absorbWrapped.eq_def]
          exact (if_neg hdef).trans (if_neg hstatement)

/-- A run of lines: the definition that is pending behind them is the one
of `DefinitionPending`. -/
theorem absorbWrapped_append (above : List LogicalLine) :
    ∃ done pending, (∀ rest, absorbWrapped none (above ++ rest) = done ++ absorbWrapped pending rest) ∧
      (pending.isSome = true ↔ DefinitionPending above) := by
  induction above using List.reverseRecOn with
  | nil =>
      refine ⟨[], none, fun rest => rfl, ⟨fun h => (by cases h), ?_⟩⟩
      rintro ⟨before, d, wrapped, hnil, -⟩
      cases before <;> cases hnil
  | append_singleton above k ih =>
      obtain ⟨done, pending, hrun, hpending⟩ := ih
      obtain ⟨done', pending', hstep, hpending'⟩ := absorbWrapped_cons pending k
      refine ⟨done ++ done', pending', fun rest => ?_, ?_⟩
      · rw [List.append_assoc, List.singleton_append, hrun, hstep, List.append_assoc]
      · rw [hpending', hpending, definitionPending_concat]

/-! ## Where a line ends up -/

/-- A logical line starts with this line. -/
def Begins (source : List Char) (l : LogicalLine) : Prop :=
  ∃ k ∈ logicalLines source, k.line = l.line ∧ l.text <+: k.text

/-- The text of a definition grows at its end only. -/
theorem exists_isPrefix_of_definition (d : LogicalLine) (ls : List LogicalLine) :
    ∃ k ∈ absorbWrapped (some d) ls, k.line = d.line ∧ d.text <+: k.text := by
  induction ls generalizing d with
  | nil => exact ⟨d, List.mem_singleton_self d, rfl, List.prefix_refl _⟩
  | cons l rest ih =>
      rw [absorbWrapped.eq_def]
      dsimp only
      split
      · exact ⟨d, by simp, rfl, List.prefix_refl _⟩
      · split
        · exact ⟨d, List.mem_cons_self, rfl, List.prefix_refl _⟩
        · obtain ⟨k, hk, hline, hbegin⟩ := ih ⟨d.text ++ l.text, d.line⟩
          exact ⟨k, hk, hline, (List.prefix_append _ _).trans hbegin⟩

/-- A line that starts a word begins a logical line, and so does every
line when no definition is pending. -/
theorem exists_isPrefix_of_cons {pending : Option LogicalLine} {l : LogicalLine}
    (h : pending = none ∨ startsWord l.text = true) (rest : List LogicalLine) :
    ∃ k ∈ absorbWrapped pending (l :: rest), k.line = l.line ∧ l.text <+: k.text := by
  rw [absorbWrapped.eq_def]
  dsimp only
  split
  · obtain ⟨k, hk, hline⟩ := exists_isPrefix_of_definition l rest
    exact ⟨k, List.mem_append_right _ hk, hline⟩
  · rename_i hdef
    cases pending with
    | none => exact ⟨l, List.mem_cons_self, rfl, List.prefix_refl _⟩
    | some d =>
        have hword : startsDefinition l.text = true ∨ startsStatement l.text = true :=
          (Bool.or_eq_true _ _).mp (h.resolve_left (Option.some_ne_none d))
        dsimp only
        rw [if_pos (hword.resolve_left hdef)]
        exact ⟨l, by simp, rfl, List.prefix_refl _⟩

/-- Where a line is absorbed, every logical line starts at another one. -/
theorem exists_line_of_absorbed {above below : List LogicalLine} {l k : LogicalLine}
    {done : List LogicalLine} {d : LogicalLine} (hstarts : startsWord l.text = false)
    (hrun : ∀ rest, absorbWrapped none (above ++ rest) = done ++ absorbWrapped (some d) rest)
    (hk : k ∈ absorbWrapped none (above ++ l :: below)) :
    ∃ m ∈ above ++ below, k.line = m.line := by
  have habove : ∀ j ∈ done ++ [d], ∃ m ∈ above, j.line = m.line := by
    intro j hj
    have hnil := hrun []
    rw [List.append_nil] at hnil
    exact line_of_mem_absorbWrapped (hnil ▸ hj : j ∈ absorbWrapped none above)
  have hstep : absorbWrapped (some d) (l :: below) =
      absorbWrapped (some ⟨d.text ++ l.text, d.line⟩) below := by
    obtain ⟨hdef, hstatement⟩ := Bool.or_eq_false_iff.mp hstarts
    rw [absorbWrapped.eq_def]
    exact (if_neg (Bool.eq_false_iff.mp hdef)).trans (if_neg (Bool.eq_false_iff.mp hstatement))
  rw [hrun, hstep] at hk
  rcases List.mem_append.mp hk with hk | hk
  · obtain ⟨m, hm, hline⟩ := habove k (List.mem_append_left _ hk)
    exact ⟨m, List.mem_append_left _ hm, hline⟩
  · obtain ⟨j, hj, hline⟩ := line_of_mem_absorbWrapped hk
    rcases List.mem_cons.mp hj with rfl | hj
    · obtain ⟨m, hm, hd⟩ := habove d (List.mem_append_right _ (List.mem_singleton_self d))
      exact ⟨m, List.mem_append_left _ hm, hline.trans hd⟩
    · exact ⟨j, List.mem_append_right _ hj, hline⟩

/-- A line that begins with a word of the language, or that is accepted as
a statement, begins a logical line, unless a definition is pending and
something other than a blank follows the word. -/
theorem begins_iff {source : List Char} {above below : List LogicalLine} {l : LogicalLine}
    (hsource : joinedLines source = above ++ l :: below)
    (hword : HasHeadWord l.text ∨ ∃ s, Statement.parse l = .ok s) :
    Begins source l ↔ (DefinitionPending above → BlankBehindHead l.text) := by
  have hhead : HasHeadWord l.text := hword.elim id fun ⟨_, h⟩ => hasHeadWord_of_parse h
  have hmem : l ∈ joinedLines source := hsource ▸ List.mem_append_right _ List.mem_cons_self
  rw [← startsWord_iff (startsVisibly_of_mem_joinedLines hmem) hhead]
  obtain ⟨done, pending, hrun, hpending⟩ := absorbWrapped_append above
  have hlines : logicalLines source = done ++ absorbWrapped pending (l :: below) := by
    rw [logicalLines_eq, hsource, hrun]
  rw [← hpending]
  constructor
  · rintro ⟨k, hk, hline, -⟩ hsome
    obtain ⟨d, rfl⟩ := Option.isSome_iff_exists.mp hsome
    by_contra hstarts
    rw [logicalLines_eq, hsource] at hk
    obtain ⟨m, hm, hkm⟩ := exists_line_of_absorbed (Bool.eq_false_iff.mpr hstarts) hrun hk
    -- The numbers ascend, so no other line has the number of this one.
    obtain ⟨-, hbelow, habove⟩ := List.pairwise_append.mp (hsource ▸ joinedLines_pairwise source)
    rcases List.mem_append.mp hm with hm | hm
    · have := habove m hm l List.mem_cons_self
      omega
    · have := List.rel_of_pairwise_cons hbelow hm
      omega
  · intro h
    have hfree : pending = none ∨ startsWord l.text = true := by
      cases pending with
      | none => exact Or.inl rfl
      | some d => exact Or.inr (h rfl)
    obtain ⟨k, hk, hbegins⟩ := exists_isPrefix_of_cons hfree below
    exact ⟨k, hlines ▸ List.mem_append_right _ hk, hbegins⟩

/-- A wrapped definition and a plot of a text in brackets. -/
def definitionAbovePlot : List Char := "DEF FNA(x) = x\nPLOT3D(x + y)".toList

theorem joinedLines_definitionAbovePlot :
    joinedLines definitionAbovePlot =
      [⟨"DEF FNA(x) = x".toList, 1⟩] ++ ⟨"PLOT3D(x + y)".toList, 2⟩ :: [] := by
  decide

theorem parse_plotLine : ∃ s, Statement.parse ⟨"PLOT3D(x + y)".toList, 2⟩ = .ok s := by
  have hsome : (Statement.parse ⟨"PLOT3D(x + y)".toList, 2⟩).toOption.isSome = true := by
    decide +kernel
  obtain ⟨s, hs⟩ := Option.isSome_iff_exists.mp hsome
  exact ⟨s, eq_ok_of_toOption hs⟩

theorem begins_iff_plotLine :
    Begins definitionAbovePlot ⟨"PLOT3D(x + y)".toList, 2⟩ ↔
      (DefinitionPending [⟨"DEF FNA(x) = x".toList, 1⟩] →
        BlankBehindHead "PLOT3D(x + y)".toList) :=
  begins_iff joinedLines_definitionAbovePlot (Or.inr parse_plotLine)

/-- The plot is a statement on its own, and it ends up in the body of the
definition. -/
theorem plotLine_absorbed :
    ∃ source above l below, joinedLines source = above ++ l :: below ∧ HasHeadWord l.text ∧
      (∃ s, Statement.parse l = .ok s) ∧ ¬ Begins source l := by
  obtain ⟨s, hs⟩ := parse_plotLine
  refine ⟨_, _, _, _, joinedLines_definitionAbovePlot, hasHeadWord_of_parse hs, ⟨s, hs⟩, ?_⟩
  rintro ⟨k, hk, hline, -⟩
  have hlines : logicalLines definitionAbovePlot = [⟨"DEF FNA(x) = xPLOT3D(x + y)".toList, 1⟩] := by
    decide
  rw [hlines] at hk
  obtain rfl := List.mem_singleton.mp hk
  cases hline

end Source
end FieldScript
