import FieldScript.Proofs.CommentTokens

/-!
# Tokens that fuse at a seam

Where two texts meet without anything between them, a token of the first
one can go on in the second. This happens exactly if the rest of the first
text, from where one of its tokens starts, and a beginning of the second
text make one token together (`Fuses`): a number, a name, a comparison or a
power, as long as no quote is open. Such a rest need not be the last token:
`1e+` holds three tokens, and with `5` behind it is one number.

What the tokens say, wherever they stand, are their contents. The contents
of both texts one behind the other are those of the whole exactly if
nothing fuses (`contents_append_iff`).
-/

namespace FieldScript

/-! ## Contents -/

/-- What a token says, wherever it stands. -/
def Token.content (t : Token) : Kind × List Char := (t.kind, t.text)

/-- What the tokens of a text say. -/
def contents (s : List Char) : List (Kind × List Char) := (tokenize s).map Token.content

theorem contents_nil : contents [] = [] := by
  rw [contents, tokenize, Scan.tokensFrom, List.map_nil]

/-- The text and a beginning of what follows make one token. -/
def MakesToken (w b : List Char) : Prop :=
  ∃ v rest, v ≠ [] ∧ b = v ++ rest ∧
    ∃ k ∈ [Kind.number, .ident, .compare, .power], tokenize (w ++ v) = [⟨k, w ++ v, 0⟩]

namespace Scan

/-- A token of the first text, which stands at position `p`, goes on in the
second one. -/
def FusesFrom (p : Nat) (a b : List Char) : Prop :=
  ∃ x w, a = x ++ w ∧ (∃ t ∈ tokensFrom p a, t.position = p + x.length) ∧ MakesToken w b

variable {p : Nat} {a b : List Char} {c : Char} {y : List Char}

theorem contents_tokensFrom (p : Nat) (s : List Char) :
    (tokensFrom p s).map Token.content = contents s := by
  rw [tokensFrom_eq, List.map_map]
  rfl

/-! ## Lexemes over a seam -/

theorem kind_of_lexeme_pos (hc : c ≠ '"' ∧ c ≠ '\'') :
    0 < (lexeme c y).2 → (lexeme c y).1 ∈ [Kind.number, .ident, .compare, .power] := by
  have hquote : ¬ (c == '"' || c == '\'') = true := by simpa using hc
  unfold lexeme
  rw [if_neg hquote]
  split
  · simp
  · split
    · simp
    · split
      · simp
      · split <;> first | (split <;> simp) | simp

theorem lt_lexeme_of_makesToken (hc : isBlank c = false) (h : MakesToken (c :: y) b) :
    y.length < (lexeme c (y ++ b)).2 := by
  obtain ⟨v, rest, hv, rfl, k, -, htoken⟩ := h
  rw [List.cons_append, tokenize, tokensFrom_cons hc] at htoken
  have htext := congrArg Token.text (List.cons.inj htoken).1
  have hlen := congrArg List.length (List.cons.inj htext).2
  have hpos := List.length_pos_iff.mpr hv
  rw [List.length_take, List.length_append] at hlen
  -- A shorter lexeme would be the one in front of the cut behind `v`.
  by_contra hshort
  have hcut : lexeme c (((y ++ v) ++ rest).take (y ++ v).length) = lexeme c ((y ++ v) ++ rest) := by
    refine lexeme_take ?_
    rw [List.append_assoc, List.length_append]
    omega
  rw [List.take_left, List.append_assoc] at hcut
  rw [hcut] at hlen
  omega

theorem makesToken_of_lt_lexeme (hc : isBlank c = false) (hquote : c ≠ '"' ∧ c ≠ '\'')
    (h : y.length < (lexeme c (y ++ b)).2) : MakesToken (c :: y) b := by
  have hle := lexeme_le c (y ++ b)
  have hcut := lexeme_take (c := c) (s := y ++ b) le_rfl
  have hkind := kind_of_lexeme_pos hquote (Nat.zero_lt_of_lt h)
  generalize hn : (lexeme c (y ++ b)).2 = n at h hle hcut
  rw [List.length_append] at hle
  have htake : (y ++ b).take n = y ++ b.take (n - y.length) := by
    rw [List.take_append, List.take_of_length_le h.le]
  refine ⟨b.take (n - y.length), b.drop (n - y.length), ?_, (List.take_append_drop _ _).symm,
    (lexeme c (y ++ b)).1, hkind, ?_⟩
  · rw [← List.length_pos_iff, List.length_take]
    omega
  · rw [List.cons_append, tokenize, tokensFrom_cons hc, ← htake, hcut, hn, List.take_take,
      Nat.min_self, List.drop_take, Nat.sub_self, List.take_zero, tokensFrom]

/-- A token is the lexeme of the text where it stands. -/
theorem exists_lexeme_of_mem {s : List Char} {t : Token} (h : t ∈ tokensFrom p s) :
    ∃ x c y, s = x ++ c :: y ∧ isBlank c = false ∧
      t = ⟨(lexeme c y).1, c :: y.take (lexeme c y).2, p + x.length⟩ := by
  obtain ⟨us, vs, hsplit⟩ := List.append_of_mem h
  obtain ⟨x, rest, rfl, htail, c, y, rfl, hc⟩ := exists_tokensFrom_of_suffix hsplit (by simp)
  rw [tokensFrom_cons hc] at htail
  exact ⟨x, c, y, rfl, hc, (List.cons.inj htail).1⟩

/-! ## Tokens of both texts -/

/-- In front of the seam stand the tokens of the first text. -/
def SplitsAt (p : Nat) (a b : List Char) : Prop :=
  tokensFrom p (a ++ b) = tokensFrom p a ++ tokensFrom (p + a.length) b

theorem splitsAt_nil : SplitsAt p [] b := by
  rw [SplitsAt, tokensFrom]
  rfl

theorem SplitsAt.blank (hc : isBlank c = true) (h : SplitsAt (p + 1) y b) :
    SplitsAt p (c :: y) b := by
  rw [SplitsAt] at h ⊢
  rw [List.cons_append, tokensFrom_blank hc, tokensFrom_blank hc, h, List.length_cons,
    Nat.add_assoc, Nat.add_comm 1]

theorem tokensFrom_cons_append (hc : isBlank c = false) (h : lexeme c (y ++ b) = lexeme c y) :
    tokensFrom p (c :: y ++ b) = ⟨(lexeme c y).1, c :: y.take (lexeme c y).2, p⟩ ::
      tokensFrom (p + 1 + (lexeme c y).2) (y.drop (lexeme c y).2 ++ b) := by
  have hle := lexeme_le c y
  rw [List.cons_append, tokensFrom_cons hc, h, List.take_append_of_le_length hle,
    List.drop_append_of_le_length hle]

/-- The first token stays as it is, and the seam is met further on. -/
theorem SplitsAt.token (hc : isBlank c = false) (hseam : lexeme c (y ++ b) = lexeme c y)
    (h : SplitsAt (p + 1 + (lexeme c y).2) (y.drop (lexeme c y).2) b) : SplitsAt p (c :: y) b := by
  have hle := lexeme_le c y
  have hposition : p + 1 + (lexeme c y).2 + (y.length - (lexeme c y).2) = p + (y.length + 1) := by
    omega
  rw [SplitsAt] at h ⊢
  rw [tokensFrom_cons_append hc hseam, h, tokensFrom_cons hc, List.length_drop, List.length_cons,
    hposition, List.cons_append]

/-- What fuses changes a token in front of the seam. -/
theorem SplitsAt.not_fusesFrom (h : SplitsAt p a b) : ¬ FusesFrom p a b := by
  rintro ⟨x, w, rfl, ⟨t, ht, hposition⟩, htoken⟩
  obtain ⟨x₁, c, y, hsplit, hc, rfl⟩ := exists_lexeme_of_mem ht
  obtain ⟨rfl, rfl⟩ := List.append_inj hsplit (Nat.add_left_cancel hposition.symm)
  obtain ⟨x₂, d, z, hwhole, -, heq⟩ := exists_lexeme_of_mem (h.symm ▸ List.mem_append_left _ ht)
  have hlen := Nat.add_left_cancel (congrArg Token.position heq)
  rw [List.append_assoc, List.cons_append] at hwhole
  obtain ⟨-, hrest⟩ := List.append_inj hwhole hlen
  obtain ⟨rfl, rfl⟩ := List.cons.inj hrest
  have htext := congrArg (fun t => t.text.length) heq
  simp only [List.length_cons, List.length_take, Nat.add_right_cancel_iff] at htext
  have hle := lexeme_le c (y ++ b)
  have hlong := lt_lexeme_of_makesToken hc htoken
  omega

/-- What fuses behind the first token fuses in the whole text. -/
theorem FusesFrom.of_drop {n q : Nat} {s : List Char} (hn : n ≤ s.length) (hq : q = p + n)
    (hmem : ∀ t ∈ tokensFrom q (s.drop n), t ∈ tokensFrom p s) (h : FusesFrom q (s.drop n) b) :
    FusesFrom p s b := by
  subst hq
  obtain ⟨x, w, hsplit, ⟨t, ht, hposition⟩, htoken⟩ := h
  refine ⟨s.take n ++ x, w, ?_, ⟨t, hmem t ht, ?_⟩, htoken⟩
  · rw [List.append_assoc, ← hsplit, List.take_append_drop]
  · rw [hposition, List.length_append, List.length_take_of_le hn, Nat.add_assoc]

/-- The lexeme of a token that is no open quote does not change behind a
seam where nothing fuses. -/
theorem lexeme_append_of_not_makesToken (hc : isBlank c = false)
    (hquote : (lexeme c y).1 = .unknown → c ≠ '"' ∧ c ≠ '\'') (h : ¬ MakesToken (c :: y) b) :
    lexeme c (y ++ b) = lexeme c y := by
  have hshort : (lexeme c (y ++ b)).2 ≤ y.length := by
    cases hstring : c == '"' || c == '\'' with
    | false =>
        by_contra hlong
        exact h (makesToken_of_lt_lexeme hc (by simpa using hstring) (Nat.lt_of_not_le hlong))
    | true =>
        rw [lexeme_quote hstring] at hquote ⊢
        cases hfind : y.findIdx? (· == c) with
        | none =>
            rw [hfind] at hquote
            obtain ⟨hdouble, hsingle⟩ := hquote rfl
            simp [hdouble, hsingle] at hstring
        | some i =>
            obtain ⟨hlt, -⟩ := List.findIdx?_eq_some_iff_getElem.mp hfind
            rw [List.findIdx?_append, hfind]
            exact hlt
  have hcut := lexeme_take hshort
  rwa [List.take_left, eq_comm] at hcut

/-- Where nothing fuses, the tokens of the first text stay as they are. -/
theorem splitsAt_of_not_fusesFrom (ha : NoOpenQuote (tokensFrom p a)) (h : ¬ FusesFrom p a b) :
    SplitsAt p a b := by
  fun_induction tokensFrom p a with
  | case1 p => exact splitsAt_nil
  | case2 p c y hblank ih =>
      refine .blank hblank (ih ha fun hrest => h ?_)
      refine FusesFrom.of_drop (s := c :: y) (n := 1) (by simp) rfl (fun t ht => ?_) hrest
      rwa [tokensFrom_blank hblank]
  | case3 p c y hblank kind more hlex ih =>
      have hc : isBlank c = false := by simpa using hblank
      have hle := lexeme_le c y
      have htokens := tokensFrom_cons hc p y
      rw [hlex] at hle htokens
      rw [List.length_take_of_le hle] at ha ih
      obtain ⟨hfirst, hrest⟩ := List.forall_mem_cons.mp ha
      have hquote : (lexeme c y).1 = .unknown → c ≠ '"' ∧ c ≠ '\'' := by
        intro hkind
        have hzero := lexeme_of_unknown hkind
        rw [hlex] at hkind hzero
        obtain rfl : more = 0 := hzero
        simpa using hfirst hkind
      have hnot : ¬ MakesToken (c :: y) b := fun htoken =>
        h ⟨[], c :: y, rfl, ⟨_, htokens ▸ List.mem_cons_self, rfl⟩, htoken⟩
      refine .token hc (lexeme_append_of_not_makesToken hc hquote hnot) ?_
      rw [hlex]
      refine ih hrest fun hlater => h ?_
      refine FusesFrom.of_drop (s := c :: y) (n := more + 1) (by simpa using hle) (by omega)
        (fun t ht => ?_) hlater
      rw [htokens]
      exact List.mem_cons_of_mem _ ht

/-- Tokens in front of the seam that say the same are the same. -/
theorem splitsAt_of_contents {X : List (Kind × List Char)}
    (h : (tokensFrom p (a ++ b)).map Token.content = (tokensFrom p a).map Token.content ++ X) :
    SplitsAt p a b := by
  fun_induction tokensFrom p a with
  | case1 p => exact splitsAt_nil
  | case2 p c y hblank ih =>
      rw [List.cons_append, tokensFrom_blank hblank] at h
      exact .blank hblank (ih h)
  | case3 p c y hblank kind more hlex ih =>
      have hc : isBlank c = false := by simpa using hblank
      have hle := lexeme_le c y
      have hle' := lexeme_le c (y ++ b)
      have hseam : lexeme c (y ++ b) = lexeme c y := by
        rw [List.cons_append, tokensFrom_cons hc] at h
        obtain ⟨hkind, htext⟩ := Prod.mk.inj (List.cons.inj h).1
        have hlength := congrArg List.length (List.cons.inj htext).2
        rw [hlex] at hle
        rw [List.length_take_of_le hle, List.length_take_of_le hle'] at hlength
        rw [hlex]
        exact Prod.ext hkind hlength
      rw [tokensFrom_cons_append hc hseam, hlex] at h
      rw [hlex] at hle
      rw [List.length_take_of_le hle] at h ih
      refine .token hc hseam ?_
      rw [hlex]
      exact ih (List.cons.inj h).2

end Scan

/-! ## Seams -/

/-- A token of the first text goes on in the second one. -/
def Fuses (a b : List Char) : Prop := Scan.FusesFrom 0 a b

/-- Both texts have their own tokens exactly if nothing fuses. -/
theorem contents_append_iff {a b : List Char} (ha : Scan.NoOpenQuote (tokenize a))
    {X : List (Kind × List Char)} :
    contents (a ++ b) = contents a ++ X ↔ ¬ Fuses a b ∧ contents b = X := by
  have hsplit : Scan.SplitsAt 0 a b → contents (a ++ b) = contents a ++ contents b := by
    intro h
    rw [contents, tokenize, h, List.map_append, Scan.contents_tokensFrom, Scan.contents_tokensFrom]
  constructor
  · intro h
    have htokens := Scan.splitsAt_of_contents (p := 0) h
    rw [hsplit htokens] at h
    exact ⟨htokens.not_fusesFrom, List.append_cancel_left h⟩
  · rintro ⟨hnot, rfl⟩
    exact hsplit (Scan.splitsAt_of_not_fusesFrom ha hnot)

theorem contents_blank {c : Char} (hc : isBlank c = true) (s : List Char) :
    contents (c :: s) = contents s := by
  rw [contents, tokenize, Scan.tokensFrom_blank hc, Scan.contents_tokensFrom]

/-- Nothing fuses with a character that separates. -/
theorem not_fuses_cons {a : List Char} {d : Char} (hd : Scan.Separates d)
    (ha : Scan.NoOpenQuote (tokenize a)) (b : List Char) : ¬ Fuses a (d :: b) :=
  Scan.SplitsAt.not_fusesFrom (Scan.tokensFrom_append hd ha)

end FieldScript
