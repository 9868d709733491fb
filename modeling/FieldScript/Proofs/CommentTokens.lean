import FieldScript.Proofs.TokenSlices

/-!
# Comments and tokens

What cuts off a comment reads the line character by character and keeps
nothing but the quote that is open (`quoteStep`). Tokens are read by what
goes on furthest, and a quote makes a string only if it is closed behind.
As long as no quote stays open both see the same strings: the scan is
outside of quotes wherever a token starts (`exists_outside_of_mem`), and
the tokens hold no quote that is left open (`noOpenQuote_iff`).

So the number sign that begins a comment is a token by itself, the first
one of its kind, and in front of it stand the tokens of what is kept
(`stripComment_tokens`).
-/

namespace FieldScript

/-! ## Quotes -/

/-- The quote that is open behind a character. -/
def quoteStep : Option Char → Char → Option Char
  | some q, c => if c == q then none else some q
  | none, c => if c == '"' || c == '\'' then some c else none

/-- The quote that is open at the end of a text. -/
def openQuote (s : List Char) : Option Char := s.foldl quoteStep none

theorem openQuote_append {a : List Char} (h : openQuote a = none) (b : List Char) :
    openQuote (a ++ b) = openQuote b := by
  rw [openQuote, List.foldl_append, ← openQuote, h, openQuote]

theorem quoteStep_none {c : Char} (hc : c ≠ '"' ∧ c ≠ '\'') : quoteStep none c = none := by
  simp [quoteStep, hc]

/-- A text without quotes opens none. -/
theorem openQuote_eq_none {s : List Char} (h : ∀ c ∈ s, c ≠ '"' ∧ c ≠ '\'') :
    openQuote s = none := by
  induction s with
  | nil => rfl
  | cons c s ih =>
      obtain ⟨hc, hs⟩ := List.forall_mem_cons.mp h
      rw [openQuote, List.foldl_cons, quoteStep_none hc]
      exact ih hs

/-- An open quote stays open until it comes again. -/
theorem foldl_quoteStep_some {q : Char} {s : List Char} (h : q ∉ s) :
    s.foldl quoteStep (some q) = some q := by
  induction s with
  | nil => rfl
  | cons c s ih =>
      obtain ⟨hc, hs⟩ := not_or.mp (mt List.mem_cons.mpr h)
      have hstep : quoteStep (some q) c = some q := if_neg (by simpa using Ne.symm hc)
      rw [List.foldl_cons, hstep, ih hs]

/-! ## Lexemes and quotes -/

namespace Scan

variable {c d : Char} {rest : List Char} {p : Nat} {s : List Char}

/-- No token but a string goes on over a character that separates. -/
theorem not_separates_of_mem_take (hc : c ≠ '"' ∧ c ≠ '\'') (h : d ∈ rest.take (lexeme c rest).2) :
    ¬ Separates d := by
  intro hd
  obtain ⟨a, b, hsplit⟩ := List.append_of_mem h
  have hrest : rest = a ++ d :: (b ++ rest.drop (lexeme c rest).2) := by
    rw [← List.cons_append, ← List.append_assoc, ← hsplit, List.take_append_drop]
  have hlex : lexeme c rest = lexeme c a := by
    conv_lhs => rw [hrest]
    exact lexeme_append hd fun _ => hc
  have hle := lexeme_le c a
  have hlen := congrArg List.length hsplit
  rw [hlex, List.length_take, List.length_append, List.length_cons] at hlen
  omega

theorem lexeme_quote (hc : (c == '"' || c == '\'') = true) (rest : List Char) :
    lexeme c rest = match rest.findIdx? (· == c) with
      | some i => (.string, i + 1)
      | none => (.unknown, 0) := by
  unfold lexeme
  refine (if_pos hc).trans ?_
  cases rest.findIdx? (· == c) <;> rfl

/-- A token leaves no quote open, unless it is one. -/
theorem openQuote_lexeme (h : (lexeme c rest).1 = .unknown → c ≠ '"' ∧ c ≠ '\'') :
    openQuote (c :: rest.take (lexeme c rest).2) = none := by
  cases hquote : c == '"' || c == '\'' with
  | true =>
      rw [lexeme_quote hquote] at h ⊢
      have hfirst : quoteStep none c = some c := if_pos hquote
      cases hfind : rest.findIdx? (· == c) with
      | none =>
          rw [hfind] at h
          obtain ⟨hdouble, hsingle⟩ := h rfl
          simp [hdouble, hsingle] at hquote
      | some i =>
          obtain ⟨hlt, hat, hbefore⟩ := List.findIdx?_eq_some_iff_getElem.mp hfind
          have hinside : c ∉ rest.take i := by
            intro hmem
            obtain ⟨j, hj, hget⟩ := List.mem_take_iff_getElem.mp hmem
            have := hbefore j (by omega)
            simp [hget] at this
          have hlast : quoteStep (some c) rest[i] = none := if_pos (by simpa using hat)
          rw [openQuote, List.foldl_cons, hfirst, List.take_succ_eq_append_getElem hlt,
            List.foldl_append, foldl_quoteStep_some hinside, List.foldl_cons, hlast, List.foldl_nil]
  | false =>
      have hc : c ≠ '"' ∧ c ≠ '\'' := by simpa using hquote
      refine openQuote_eq_none (List.forall_mem_cons.mpr ⟨hc, fun d hd => ?_⟩)
      have hseparates := not_separates_of_mem_take hc hd
      refine ⟨?_, ?_⟩ <;> rintro rfl <;> exact hseparates (by decide)

/-- A quote that is not closed stays open to the end. -/
theorem openQuote_of_unknown (h : (lexeme c rest).1 = .unknown) (hc : ¬ (c ≠ '"' ∧ c ≠ '\'')) :
    openQuote (c :: rest) = some c := by
  have hquote : (c == '"' || c == '\'') = true := by
    simp only [ne_eq, not_and_or, not_not] at hc
    simpa using hc
  rw [lexeme_quote hquote] at h
  have hfirst : quoteStep none c = some c := if_pos hquote
  cases hfind : rest.findIdx? (· == c) with
  | some i => rw [hfind] at h; cases h
  | none =>
      rw [openQuote, List.foldl_cons, hfirst, foldl_quoteStep_some]
      intro hmem
      have := List.findIdx?_eq_none_iff.mp hfind c hmem
      simp at this

theorem openQuote_blank (hc : isBlank c = true) (s : List Char) :
    openQuote (c :: s) = openQuote s := by
  have hplain : c ≠ '"' ∧ c ≠ '\'' := by
    refine ⟨?_, ?_⟩ <;> rintro rfl <;> exact absurd hc (by decide)
  rw [openQuote, List.foldl_cons, quoteStep_none hplain, ← openQuote]

/-- The first token of a text is no open quote, or the quote stays open. -/
theorem openQuote_cons (c : Char) (rest : List Char) :
    ((lexeme c rest).1 = .unknown → c ≠ '"' ∧ c ≠ '\'') ∧
        openQuote (c :: rest) = openQuote (rest.drop (lexeme c rest).2) ∨
      (lexeme c rest).1 = .unknown ∧ ¬ (c ≠ '"' ∧ c ≠ '\'') ∧ openQuote (c :: rest) = some c := by
  by_cases h : (lexeme c rest).1 = .unknown → c ≠ '"' ∧ c ≠ '\''
  · have hrest := openQuote_append (openQuote_lexeme h) (rest.drop (lexeme c rest).2)
    rw [List.cons_append, List.take_append_drop] at hrest
    exact Or.inl ⟨h, hrest⟩
  · obtain ⟨hkind, hc⟩ := Classical.not_imp.mp h
    exact Or.inr ⟨hkind, hc, openQuote_of_unknown hkind hc⟩

/-- The scan and the tokens agree on whether a quote is left open. -/
theorem noOpenQuote_iff : NoOpenQuote (tokensFrom p s) ↔ openQuote s = none := by
  fun_induction tokensFrom p s with
  | case1 => simp [NoOpenQuote, openQuote]
  | case2 p c rest hblank ih => rw [ih, openQuote_blank hblank]
  | case3 p c rest hblank kind more hlex ih =>
      have hcons := openQuote_cons c rest
      have hzero : kind = .unknown → more = 0 := by
        have := @lexeme_of_unknown c rest
        rwa [hlex] at this
      rw [hlex] at hcons
      rw [NoOpenQuote, List.forall_mem_cons, ← NoOpenQuote, ih]
      dsimp only at hcons ⊢
      rcases hcons with ⟨hplain, hrest⟩ | ⟨hkind, hc, hopen⟩
      · rw [hrest, and_iff_right]
        intro hkind
        obtain rfl := hzero hkind
        simpa using hplain hkind
      · obtain rfl := hzero hkind
        simp only [hopen, reduceCtorEq, iff_false, not_and]
        intro hhead
        exact absurd (by simpa using hhead hkind) hc

/-- While no quote stays open, the scan is outside of quotes wherever a
token starts. -/
theorem exists_outside_of_mem {t : Token} (hs : openQuote s = none) (h : t ∈ tokensFrom p s) :
    ∃ before after, s = before ++ after ∧ t.position = p + before.length ∧
      openQuote before = none ∧ t.text <+: after := by
  fun_induction tokensFrom p s with
  | case1 => cases h
  | case2 p c rest hblank ih =>
      rw [openQuote_blank hblank] at hs
      obtain ⟨before, after, rfl, hposition, hbefore, htext⟩ := ih hs h
      refine ⟨c :: before, after, rfl, ?_, by rwa [openQuote_blank hblank], htext⟩
      rw [hposition, List.length_cons]
      omega
  | case3 p c rest hblank kind more hlex ih =>
      have hmore : more ≤ rest.length := by
        have := lexeme_le c rest
        rwa [hlex] at this
      have hcons := openQuote_cons c rest
      rw [hs] at hcons
      obtain ⟨hplain, hrest⟩ := hcons.resolve_right (by simp)
      have hlexeme := openQuote_lexeme hplain
      rw [hlex] at hrest hlexeme
      rcases List.mem_cons.mp h with rfl | h
      · exact ⟨[], c :: rest, rfl, rfl, rfl, by simpa using List.take_prefix more rest⟩
      · obtain ⟨before, after, hsplit, hposition, hbefore, htext⟩ := ih hrest.symm h
        refine ⟨c :: rest.take more ++ before, after, ?_, ?_, ?_, htext⟩
        · rw [List.append_assoc, ← hsplit, List.cons_append, List.take_append_drop]
        · rw [hposition, List.length_append, List.length_cons]
          omega
        · rwa [openQuote_append hlexeme]

end Scan

/-! ## What is cut off -/

namespace Source

/-- Every number sign of the text stands inside quotes, if the first quote
is open in front of it. -/
def Remarkless (quote : Option Char) (s : List Char) : Prop :=
  ∀ before after, s = before ++ '#' :: after → before.foldl quoteStep quote ≠ none

theorem stripCommentFrom_cons (quote : Option Char) (c : Char) (s : List Char) :
    stripCommentFrom quote (c :: s) =
      if quote = none ∧ c = '#' then [] else c :: stripCommentFrom (quoteStep quote c) s := by
  cases quote with
  | none => simp [stripCommentFrom, quoteStep]
  | some q => simp [stripCommentFrom, quoteStep]

theorem remarkless_nil (quote : Option Char) : Remarkless quote [] := by
  intro before after hsplit
  cases before <;> cases hsplit

theorem Remarkless.cons {quote : Option Char} {c : Char} {s : List Char}
    (h : Remarkless (quoteStep quote c) s) (hc : ¬ (quote = none ∧ c = '#')) :
    Remarkless quote (c :: s) := by
  intro before after hsplit hquote
  cases before with
  | nil =>
      obtain ⟨rfl, -⟩ := List.cons.inj hsplit
      exact hc ⟨hquote, rfl⟩
  | cons d before =>
      obtain ⟨rfl, rfl⟩ := List.cons.inj hsplit
      exact h before after rfl hquote

/-- All is kept up to the first number sign outside quotes. -/
theorem remarkless_stripCommentFrom (quote : Option Char) (s : List Char) :
    Remarkless quote (stripCommentFrom quote s) ∧
      (stripCommentFrom quote s = s ∨ ∃ after, s = stripCommentFrom quote s ++ '#' :: after ∧
        (stripCommentFrom quote s).foldl quoteStep quote = none) := by
  induction s generalizing quote with
  | nil => cases quote <;> exact ⟨remarkless_nil _, Or.inl rfl⟩
  | cons c s ih =>
      rw [stripCommentFrom_cons]
      split
      · rename_i hcut
        obtain ⟨rfl, rfl⟩ := hcut
        exact ⟨remarkless_nil _, Or.inr ⟨s, rfl, rfl⟩⟩
      · rename_i hkeep
        obtain ⟨hkept, hrest⟩ := ih (quoteStep quote c)
        refine ⟨hkept.cons hkeep, hrest.imp (congrArg _) fun ⟨after, hsplit, hquote⟩ => ?_⟩
        exact ⟨after, congrArg _ hsplit, hquote⟩

/-- A number sign that is a token by itself. -/
def IsSign (t : Token) : Prop := t.kind = .unknown ∧ t.text = ['#']

/-- In a text whose number signs stand inside quotes that are closed, none
of them is a token. -/
theorem not_isSign_of_mem {s : List Char} {t : Token} (hs : Remarkless none s)
    (hclosed : openQuote s = none) (h : t ∈ tokenize s) : ¬ IsSign t := by
  rintro ⟨-, htext⟩
  obtain ⟨before, after, rfl, -, hbefore, hprefix⟩ := Scan.exists_outside_of_mem hclosed h
  rw [htext] at hprefix
  obtain ⟨rest, rfl⟩ := hprefix
  exact hs before rest rfl hbefore

/-- The tokens of a line on both sides of the sign that begins its comment. -/
theorem tokenize_comment {kept : List Char} (hclosed : openQuote kept = none) (after : List Char) :
    tokenize (kept ++ '#' :: after) = tokenize kept ++
      ⟨.unknown, ['#'], kept.length⟩ :: Scan.tokensFrom (kept.length + 1) after := by
  have hsign : Scan.lexeme '#' after = (.unknown, 0) := rfl
  have hopen : Scan.NoOpenQuote (Scan.tokensFrom 0 kept) := Scan.noOpenQuote_iff.mpr hclosed
  rw [tokenize, Scan.tokensFrom_append (by decide) hopen, Scan.tokensFrom_cons (by decide), hsign,
    Nat.zero_add]
  rfl

theorem position_lt_of_mem {s : List Char} {t : Token} (h : t ∈ tokenize s) :
    t.position < s.length := by
  have hstart := Scan.startsIn_of_mem h
  have hstop := Scan.stop_le_of_mem h
  have hpos := List.length_pos_iff.mpr hstart.1
  rw [Token.stop] at hstop
  omega

/-- In front of the sign stand the tokens of what is kept. -/
theorem filter_tokenize_comment {kept : List Char} (hclosed : openQuote kept = none)
    (after : List Char) :
    (tokenize (kept ++ '#' :: after)).filter (·.position < kept.length) = tokenize kept := by
  have hbehind : ∀ t ∈ (⟨.unknown, ['#'], kept.length⟩ : Token) ::
      Scan.tokensFrom (kept.length + 1) after, ¬ t.position < kept.length := by
    refine List.forall_mem_cons.mpr ⟨Nat.lt_irrefl _, fun t ht => ?_⟩
    have hle := Scan.le_position_of_mem ht
    omega
  have hfront : ∀ t ∈ tokenize kept, t.position < kept.length := fun t => position_lt_of_mem
  rw [tokenize_comment hclosed, List.filter_append, List.filter_eq_self.mpr (by simpa using hfront),
    List.filter_eq_nil_iff.mpr (by simpa using hbehind), List.append_nil]

/-- Comments end a line at the same place for the scan and for the tokens.
If a line is cut, the token there is the first number sign by itself, and
the tokens of what is kept are those in front of it. If it is not cut and
no quote stays open, no number sign is a token by itself. -/
theorem stripComment_tokens (s : List Char) :
    (∀ i < s.length, stripComment s = s.take i →
      ⟨.unknown, ['#'], i⟩ ∈ tokenize s ∧
      (∀ t ∈ tokenize s, t.position < i → ¬ IsSign t) ∧
      tokenize (stripComment s) = (tokenize s).filter (·.position < i)) ∧
    (stripComment s = s → openQuote s = none → ∀ t ∈ tokenize s, ¬ IsSign t) := by
  obtain ⟨hkept, hcut⟩ := remarkless_stripCommentFrom none s
  rw [← stripComment] at hkept hcut
  constructor
  · intro i hi hstrip
    have hlength : (stripComment s).length = i := by
      rw [hstrip, List.length_take_of_le hi.le]
    obtain ⟨after, hsplit, hclosed⟩ := hcut.resolve_left fun hall => by
      rw [hall] at hlength
      omega
    generalize stripComment s = kept at *
    subst hsplit hlength
    have hfront := filter_tokenize_comment hclosed after
    refine ⟨?_, fun t ht hlt => ?_, hfront.symm⟩
    · rw [tokenize_comment hclosed]
      exact List.mem_append_right _ List.mem_cons_self
    · have hmem : t ∈ tokenize kept := by
        rw [← hfront]
        exact List.mem_filter.mpr ⟨ht, decide_eq_true hlt⟩
      exact not_isSign_of_mem hkept hclosed hmem
  · intro hall hclosed t ht
    rw [hall] at hkept
    exact not_isSign_of_mem hkept hclosed ht

end Source
end FieldScript
