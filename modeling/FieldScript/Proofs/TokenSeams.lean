import FieldScript.Proofs.TokenPositions

/-!
# Tokens on both sides of a seam

A line that is put together from parts has the tokens of its parts. A
token can reach over a seam in two ways: the characters behind it go on
with it, or an open quote is closed there. `Separates` rules out the
first, of a character, and `QuotesClosed` the second, of a text; under
both, tokens in front of the seam are those of the first part alone
(`tokensFrom_append`), and the others are those of the second part, moved
to where it stands (`tokensFrom_add`).

What is cut from the line by the tokens of a part is the part
(`rawSlice_tokensFrom`).
-/

namespace FieldScript

/-! ## First and last characters -/

/-- A text that starts with something other than a blank. -/
def StartsVisibly (s : List Char) : Prop :=
  ∃ c rest, s = c :: rest ∧ isBlank c = false

/-- A text that ends in something other than a blank. -/
def EndsVisibly (s : List Char) : Prop := StartsVisibly s.reverse

theorem StartsVisibly.append {s : List Char} (h : StartsVisibly s) (t : List Char) :
    StartsVisibly (s ++ t) := by
  obtain ⟨c, rest, rfl, hc⟩ := h
  exact ⟨c, rest ++ t, rfl, hc⟩

theorem StartsVisibly.of_isPrefix {s t : List Char} (h : StartsVisibly t) (hbegin : s <+: t)
    (hne : s ≠ []) : StartsVisibly s := by
  obtain ⟨c, rest, rfl, hc⟩ := h
  obtain ⟨d, tail, rfl⟩ := List.exists_cons_of_ne_nil hne
  obtain ⟨rfl, -⟩ := List.cons_prefix_cons.mp hbegin
  exact ⟨_, tail, rfl, hc⟩

theorem StartsVisibly.dropWhile_eq {s : List Char} (h : StartsVisibly s) :
    s.dropWhile isBlank = s := by
  obtain ⟨c, rest, rfl, hc⟩ := h
  exact List.dropWhile_cons_of_neg (by simp [hc])

theorem startsVisibly_dropWhile {s : List Char} (h : s.dropWhile isBlank ≠ []) :
    StartsVisibly (s.dropWhile isBlank) := by
  obtain ⟨c, rest, hs⟩ := List.exists_cons_of_ne_nil h
  refine ⟨c, rest, hs, ?_⟩
  have hhead := List.head_dropWhile_not isBlank h
  simpa [hs] using hhead

theorem trimEnd_isPrefix (s : List Char) : trimEnd s <+: s := by
  rw [trimEnd, ← List.reverse_suffix, List.reverse_reverse]
  exact List.dropWhile_suffix _

theorem startsVisibly_trim {s : List Char} (h : trim s ≠ []) : StartsVisibly (trim s) := by
  have hbegin : trim s <+: s.dropWhile isBlank := trimEnd_isPrefix _
  refine (startsVisibly_dropWhile ?_).of_isPrefix hbegin h
  intro hnil
  rw [hnil] at hbegin
  exact h (List.prefix_nil.mp hbegin)

theorem endsVisibly_trimEnd {s : List Char} (h : trimEnd s ≠ []) : EndsVisibly (trimEnd s) := by
  rw [trimEnd] at h ⊢
  rw [EndsVisibly, List.reverse_reverse]
  exact startsVisibly_dropWhile (List.reverse_ne_nil_iff.mp h)

theorem endsVisibly_trim {s : List Char} (h : trim s ≠ []) : EndsVisibly (trim s) :=
  endsVisibly_trimEnd h

theorem EndsVisibly.trimEnd_eq {s : List Char} (h : EndsVisibly s) : trimEnd s = s := by
  rw [trimEnd, StartsVisibly.dropWhile_eq h, List.reverse_reverse]

theorem trim_eq_self {s : List Char} (hstart : StartsVisibly s) (hend : EndsVisibly s) :
    trim s = s := by
  rw [trim, hstart.dropWhile_eq, hend.trimEnd_eq]

theorem EndsVisibly.append {t : List Char} (h : EndsVisibly t) (s : List Char) :
    EndsVisibly (s ++ t) := by
  rw [EndsVisibly, List.reverse_append]
  exact StartsVisibly.append h _

theorem EndsVisibly.of_append {s t : List Char} (h : EndsVisibly (s ++ t)) (ht : t ≠ []) :
    EndsVisibly t := by
  rw [EndsVisibly, List.reverse_append] at h
  exact h.of_isPrefix (List.prefix_append _ _) (List.reverse_ne_nil_iff.mpr ht)

/-! ## Characters of names -/

namespace Scan

/-- Names consist of ASCII characters, so that what holds of these holds
of the characters of a name. -/
theorem forall_isNameChar {P : Char → Prop} (h : ∀ n : Fin 128, isNameChar (Char.ofNat n) = true →
    P (Char.ofNat n)) {c : Char} (hc : isNameChar c = true) : P c := by
  have hsmall : c.toNat < 128 := by
    change ((decide (c.val ≥ 'A'.val ∧ c.val ≤ 'Z'.val) ||
      (decide (c.val ≥ 'a'.val) && decide (c.val ≤ 'z'.val)) ||
      (decide (c.val ≥ '0'.val) && decide (c.val ≤ '9'.val))) || c == '_') = true at hc
    simp only [Bool.or_eq_true, Bool.and_eq_true, decide_eq_true_eq, beq_iff_eq,
      UInt32.le_iff_toNat_le, ge_iff_le] at hc
    change (((65 ≤ c.toNat ∧ c.toNat ≤ 90) ∨ (97 ≤ c.toNat ∧ c.toNat ≤ 122)) ∨
      (48 ≤ c.toNat ∧ c.toNat ≤ 57)) ∨ c = '_' at hc
    rcases hc with hc | rfl
    · omega
    · decide
  have hn := h ⟨c.toNat, hsmall⟩
  rw [Char.ofNat_toNat] at hn
  exact hn hc

theorem isNameChar_of_isNameStart {c : Char} (h : isNameStart c = true) : isNameChar c = true := by
  simp only [isNameStart, isNameChar, Char.isAlphanum, Bool.or_eq_true] at h ⊢
  rcases h with h | h
  · exact Or.inl (Or.inl h)
  · exact Or.inr h

theorem isBlank_of_isNameChar {c : Char} (h : isNameChar c = true) : isBlank c = false :=
  forall_isNameChar (P := fun c => isBlank c = false) (by decide) h

/-! ## Lengths of lexemes -/

theorem run_le (p : Char → Bool) (s : List Char) : run p s ≤ s.length :=
  (List.takeWhile_prefix p).length_le

theorem fraction_cons (c : Char) (rest : List Char) :
    fraction (c :: rest) = if c == '.' then 1 + run isDecimalDigit rest else 0 := by
  by_cases hc : c = '.'
  · subst hc
    rfl
  · rw [if_neg (by simpa using hc), fraction.eq_2]
    rintro _ h
    exact hc (List.cons.inj h).1

theorem fraction_le (s : List Char) : fraction s ≤ s.length := by
  unfold fraction
  split
  · rename_i rest
    have := run_le isDecimalDigit rest
    rw [List.length_cons]
    omega
  · exact Nat.zero_le _

/-- The length of the sign of an exponent. -/
def signLength : List Char → Nat
  | [] => 0
  | c :: _ => if c == '+' || c == '-' then 1 else 0

theorem signLength_le (s : List Char) : signLength s ≤ s.length := by
  unfold signLength
  split
  · exact Nat.zero_le _
  · split <;> simp

theorem exponent_cons (c : Char) (rest : List Char) :
    exponent (c :: rest) =
      if c == 'e' || c == 'E' then
        if run isDecimalDigit (rest.drop (signLength rest)) == 0 then 0
        else 1 + signLength rest + run isDecimalDigit (rest.drop (signLength rest))
      else 0 := by
  rw [exponent.eq_def]
  cases rest <;> rfl

theorem exponent_le (s : List Char) : exponent s ≤ s.length := by
  cases s with
  | nil => exact Nat.zero_le _
  | cons c rest =>
      have hsign := signLength_le rest
      have hdigits := run_le isDecimalDigit (rest.drop (signLength rest))
      rw [List.length_drop] at hdigits
      rw [exponent_cons, List.length_cons]
      split
      · split <;> omega
      · exact Nat.zero_le _

theorem afterDigit_le (s : List Char) : afterDigit s ≤ s.length := by
  have hwhole := run_le isDecimalDigit s
  have hplaces := fraction_le (s.drop (run isDecimalDigit s))
  have hexponent := exponent_le
    (s.drop (run isDecimalDigit s + fraction (s.drop (run isDecimalDigit s))))
  rw [List.length_drop] at hplaces hexponent
  rw [afterDigit]
  omega

theorem afterPoint_le (s : List Char) : afterPoint s ≤ s.length := by
  have hplaces := run_le isDecimalDigit s
  have hexponent := exponent_le (s.drop (run isDecimalDigit s))
  rw [List.length_drop] at hexponent
  rw [afterPoint]
  omega

theorem one_le_of_nextIs {c : Char} {s : List Char} (h : nextIs c s = true) : 1 ≤ s.length := by
  cases s with
  | nil => cases h
  | cons d rest => exact Nat.succ_pos _

/-- A token does not reach over the end of the text. -/
theorem lexeme_le (c : Char) (rest : List Char) : (lexeme c rest).2 ≤ rest.length := by
  unfold lexeme
  split
  · split
    · rename_i i hi
      obtain ⟨hlt, -⟩ := List.findIdx?_eq_some_iff_getElem.mp hi
      exact hlt
    · exact Nat.zero_le _
  · split
    · exact afterDigit_le rest
    · split
      · exact afterPoint_le rest
      · split
        · exact run_le isNameChar rest
        · split <;> first
            | exact Nat.zero_le _
            | (split <;> first | exact one_le_of_nextIs ‹_› | exact Nat.zero_le _)

/-- A character that begins no token stands alone. -/
theorem lexeme_of_unknown {c : Char} {rest : List Char} (h : (lexeme c rest).1 = .unknown) :
    (lexeme c rest).2 = 0 := by
  unfold lexeme at h ⊢
  split at h
  · split at h
    · cases h
    · rename_i hquote _ _
      rw [if_pos hquote]
  · rename_i hquote
    rw [if_neg hquote]
    split at h
    · cases h
    · split at h
      · cases h
      · split at h
        · cases h
        · rename_i hdigit hpoint hname
          rw [if_neg hdigit, if_neg hpoint, if_neg hname]
          split at h <;> first | rfl | cases h | (split at h <;> simp_all)

/-! ## Lexemes in front of a seam -/

/-- No token goes on with this character. -/
def Separates (d : Char) : Prop :=
  isNameChar d = false ∧ isDecimalDigit d = false ∧ d ∉ ['.', '=', '*', '+', '-']

instance (d : Char) : Decidable (Separates d) :=
  inferInstanceAs (Decidable (_ ∧ _))

section Seam

variable {d : Char} {b : List Char}

theorem run_append {p : Char → Bool} (hd : p d = false) (s : List Char) :
    run p (s ++ d :: b) = run p s := by
  induction s with
  | nil => simp [run, hd]
  | cons c rest ih =>
      simp only [run, List.cons_append, List.takeWhile_cons] at ih ⊢
      split
      · rw [List.length_cons, List.length_cons, ih]
      · rfl

theorem nextIs_append {c : Char} (hd : d ≠ c) (s : List Char) :
    nextIs c (s ++ d :: b) = nextIs c s := by
  cases s with
  | nil => exact beq_eq_false_iff_ne.mpr hd
  | cons x rest => rfl

variable (hd : Separates d)
include hd

theorem fraction_append (s : List Char) : fraction (s ++ d :: b) = fraction s := by
  obtain ⟨-, hdigit, hlist⟩ := hd
  cases s with
  | nil =>
      have hpoint : (d == '.') = false := beq_eq_false_iff_ne.mpr fun h => hlist (by simp [h])
      rw [List.nil_append, fraction_cons, hpoint]
      rfl
  | cons c rest => rw [List.cons_append, fraction_cons, fraction_cons, run_append hdigit]

theorem signLength_append (s : List Char) : signLength (s ++ d :: b) = signLength s := by
  cases s with
  | nil =>
      have hsign : ¬ (d == '+' || d == '-') = true := by
        intro h
        rcases (Bool.or_eq_true _ _).mp h with h | h <;>
          obtain rfl := eq_of_beq h <;> exact absurd (by simp) hd.2.2
      exact if_neg hsign
  | cons c rest => rfl

theorem exponent_append (s : List Char) : exponent (s ++ d :: b) = exponent s := by
  cases s with
  | nil =>
      have he : ¬ (d == 'e' || d == 'E') = true := by
        intro h
        rcases (Bool.or_eq_true _ _).mp h with h | h <;>
          obtain rfl := eq_of_beq h <;> exact absurd hd.1 (by decide)
      rw [List.nil_append, exponent_cons, if_neg he]
      rfl
  | cons c rest =>
      rw [List.cons_append, exponent_cons, exponent_cons, signLength_append hd,
        List.drop_append_of_le_length (signLength_le rest), run_append hd.2.1]

theorem afterDigit_append (s : List Char) : afterDigit (s ++ d :: b) = afterDigit s := by
  have hwhole := run_le isDecimalDigit s
  have hplaces := fraction_le (s.drop (run isDecimalDigit s))
  rw [List.length_drop] at hplaces
  rw [afterDigit, run_append hd.2.1, List.drop_append_of_le_length hwhole, fraction_append hd,
    List.drop_append_of_le_length (by omega), exponent_append hd, afterDigit]

theorem afterPoint_append (s : List Char) : afterPoint (s ++ d :: b) = afterPoint s := by
  rw [afterPoint, run_append hd.2.1,
    List.drop_append_of_le_length (run_le isDecimalDigit s), exponent_append hd, afterPoint]

theorem head?_append (s : List Char) :
    ((s ++ d :: b).head?.map isDecimalDigit).getD false =
      (s.head?.map isDecimalDigit).getD false := by
  cases s with
  | nil => exact hd.2.1
  | cons c rest => rfl

/-- The token in front of a seam is the one at the end of the text, if it
is no quote that stays open. -/
theorem lexeme_append {c : Char} {rest : List Char}
    (h : (lexeme c rest).1 = .unknown → c ≠ '"' ∧ c ≠ '\'') :
    lexeme c (rest ++ d :: b) = lexeme c rest := by
  have hne : ∀ x ∈ ['.', '=', '*', '+', '-'], d ≠ x := fun x hx heq => hd.2.2 (heq ▸ hx)
  unfold lexeme at h ⊢
  split
  · rename_i hquote
    rw [if_pos hquote] at h
    rw [List.findIdx?_append]
    cases hfind : rest.findIdx? (· == c) with
    | some i => rfl
    | none =>
        rw [hfind] at h
        obtain ⟨hdouble, hsingle⟩ := h rfl
        simp [hdouble, hsingle] at hquote
  · rw [afterDigit_append hd, afterPoint_append hd, head?_append hd, run_append hd.1,
      nextIs_append (hne '=' (by simp)), nextIs_append (hne '*' (by simp))]

end Seam

/-! ## Tokens around a seam -/

/-- The tokens hold no quote that is left open. -/
def NoOpenQuote (ts : List Token) : Prop :=
  ∀ t ∈ ts, t.kind = .unknown → t.text ≠ ['"'] ∧ t.text ≠ ['\'']

theorem tokensFrom_blank {c : Char} (hc : isBlank c = true) (p : Nat) (rest : List Char) :
    tokensFrom p (c :: rest) = tokensFrom (p + 1) rest := by
  rw [tokensFrom, if_pos hc]

theorem tokensFrom_cons {c : Char} (hc : isBlank c = false) (p : Nat) (rest : List Char) :
    tokensFrom p (c :: rest) =
      ⟨(lexeme c rest).1, c :: rest.take (lexeme c rest).2, p⟩ ::
        tokensFrom (p + 1 + (lexeme c rest).2) (rest.drop (lexeme c rest).2) := by
  rw [tokensFrom, if_neg (by simp [hc])]
  dsimp only
  rw [List.length_take_of_le (lexeme_le c rest)]

/-- The tokens in front of a seam are those of the text in front of it. -/
theorem tokensFrom_append {p : Nat} {a b : List Char} {d : Char} (hd : Separates d)
    (ha : NoOpenQuote (tokensFrom p a)) :
    tokensFrom p (a ++ d :: b) = tokensFrom p a ++ tokensFrom (p + a.length) (d :: b) := by
  fun_induction tokensFrom p a with
  | case1 p => rfl
  | case2 p c rest hblank ih =>
      rw [List.cons_append, tokensFrom_blank hblank, ih ha, List.length_cons]
      congr 2
      omega
  | case3 p c rest hblank kind more hlex ih =>
      obtain ⟨hfirst, hrest⟩ := List.forall_mem_cons.mp ha
      have hmore : more ≤ rest.length := by
        have := lexeme_le c rest
        rwa [hlex] at this
      have hseam : lexeme c (rest ++ d :: b) = (kind, more) := by
        rw [lexeme_append hd ?_, hlex]
        intro hkind
        have hzero := lexeme_of_unknown hkind
        rw [hlex] at hkind hzero
        obtain ⟨hdouble, hsingle⟩ := hfirst hkind
        obtain rfl : more = 0 := hzero
        exact ⟨fun hc => hdouble (by rw [hc]; rfl), fun hc => hsingle (by rw [hc]; rfl)⟩
      rw [List.cons_append, tokensFrom_cons (by simpa using hblank), hseam]
      dsimp only
      rw [List.take_append_of_le_length hmore, List.drop_append_of_le_length hmore,
        List.cons_append]
      rw [List.length_take_of_le hmore] at ih hrest ⊢
      rw [ih hrest, List.length_drop, List.length_cons]
      congr 3
      omega

/-! ## Tokens that move -/

end Scan

/-- The token of a text that stands further behind. -/
def Token.moved (n : Nat) (t : Token) : Token := { t with position := t.position + n }

@[simp] theorem Token.moved_kind (n : Nat) (t : Token) : (t.moved n).kind = t.kind := rfl

@[simp] theorem Token.moved_text (n : Nat) (t : Token) : (t.moved n).text = t.text := rfl

namespace Scan

theorem tokensFrom_add (p n : Nat) (s : List Char) :
    tokensFrom (p + n) s = (tokensFrom p s).map (Token.moved n) := by
  fun_induction tokensFrom p s with
  | case1 p => rw [tokensFrom, List.map_nil]
  | case2 p c rest hblank ih => rw [tokensFrom_blank hblank, ← ih, Nat.add_right_comm]
  | case3 p c rest hblank kind more hlex ih =>
      have hmore : more ≤ rest.length := by
        have := lexeme_le c rest
        rwa [hlex] at this
      rw [tokensFrom_cons (by simpa using hblank), hlex, List.map_cons, ← ih,
        List.length_take_of_le hmore]
      dsimp only
      congr 2
      omega

theorem tokensFrom_eq (p : Nat) (s : List Char) :
    tokensFrom p s = (tokenize s).map (Token.moved p) := by
  rw [tokenize, ← tokensFrom_add, Nat.zero_add]

theorem noOpenQuote_tokensFrom {s : List Char} (h : NoOpenQuote (tokenize s)) (p : Nat) :
    NoOpenQuote (tokensFrom p s) := by
  rw [tokensFrom_eq]
  rintro _ ht
  obtain ⟨t, hmem, rfl⟩ := List.mem_map.mp ht
  exact h t hmem

/-! ## Cutting out a part -/

theorem exists_head?_tokensFrom {s : List Char} (hs : StartsVisibly s) (p : Nat) :
    ∃ t, (tokensFrom p s).head? = some t ∧ t.position = p := by
  obtain ⟨c, rest, rfl, hc⟩ := hs
  rw [tokensFrom_cons hc]
  exact ⟨_, rfl, rfl⟩

theorem exists_getLast?_tokensFrom {s : List Char} (hs : EndsVisibly s) (p : Nat) :
    ∃ t, (tokensFrom p s).getLast? = some t ∧ t.stop = p + s.length := by
  fun_induction tokensFrom p s with
  | case1 p =>
      obtain ⟨c, rest, hnil, -⟩ := hs
      cases hnil
  | case2 p c rest hblank ih =>
      have hrest : rest ≠ [] := by
        rintro rfl
        obtain ⟨d, tail, heq, hd⟩ := hs
        obtain ⟨rfl, -⟩ := List.cons.inj heq
        exact Bool.false_ne_true (hd.symm.trans hblank)
      obtain ⟨t, ht, hstop⟩ := ih (EndsVisibly.of_append (s := [c]) hs hrest)
      exact ⟨t, ht, by rw [hstop, List.length_cons]; omega⟩
  | case3 p c rest hblank kind more hlex ih =>
      have hmore : more ≤ rest.length := by
        have := lexeme_le c rest
        rwa [hlex] at this
      rw [List.length_take_of_le hmore] at ih ⊢
      rw [List.getLast?_cons]
      by_cases hrest : rest.drop more = []
      · have hlen : rest.length ≤ more := List.drop_eq_nil_iff.mp hrest
        refine ⟨_, rfl, ?_⟩
        rw [hrest, tokensFrom]
        simp only [List.getLast?_nil, Option.getD_none, Token.stop, List.length_cons,
          List.length_take_of_le hmore]
        omega
      · have hends : EndsVisibly (rest.drop more) := by
          refine EndsVisibly.of_append (s := c :: rest.take more) ?_ hrest
          rwa [List.cons_append, List.take_append_drop]
        obtain ⟨t, ht, hstop⟩ := ih hends
        refine ⟨t, by rw [ht]; rfl, ?_⟩
        rw [hstop, List.length_drop, List.length_cons]
        omega

end Scan

/-- What the tokens of a part cut from the line is the part. -/
theorem sliceText_tokensFrom {e : List Char} (hstart : StartsVisibly e) (hend : EndsVisibly e)
    (a b : List Char) : sliceText (a ++ e ++ b) (Scan.tokensFrom a.length e) = e := by
  obtain ⟨t, ht, hposition⟩ := Scan.exists_head?_tokensFrom hstart a.length
  obtain ⟨u, hu, hstop⟩ := Scan.exists_getLast?_tokensFrom hend a.length
  have hraw : rawSlice (a ++ e ++ b) (Scan.tokensFrom a.length e) = e := by
    rw [rawSlice, ht, hu]
    dsimp only
    rw [hposition, hstop, ← List.length_append, List.take_left, List.drop_left]
  rw [sliceText, hraw, trim_eq_self hstart hend]

/-! ## Names -/

/-- A text that is a name from end to end. -/
def IsName (s : List Char) : Prop :=
  ∃ c rest, s = c :: rest ∧ Scan.isNameStart c = true ∧ ∀ d ∈ rest, Scan.isNameChar d = true

theorem IsName.forall_isNameChar {s : List Char} (h : IsName s) :
    ∀ c ∈ s, Scan.isNameChar c = true := by
  obtain ⟨c, rest, rfl, hc, hrest⟩ := h
  exact List.forall_mem_cons.mpr ⟨Scan.isNameChar_of_isNameStart hc, hrest⟩

namespace Scan

theorem lexeme_of_isNameStart {c : Char} (hc : isNameStart c = true) (rest : List Char) :
    lexeme c rest = (.ident, run isNameChar rest) := by
  have hchar := isNameChar_of_isNameStart hc
  have hquote : (c == '"' || c == '\'') = false :=
    forall_isNameChar (P := fun c => (c == '"' || c == '\'') = false) (by decide) hchar
  have hpoint : (c == '.') = false :=
    forall_isNameChar (P := fun c => (c == '.') = false) (by decide) hchar
  have hdigit : isDecimalDigit c = false := by
    refine forall_isNameChar (P := fun c => isNameStart c = true → isDecimalDigit c = false)
      (by decide) hchar hc
  unfold lexeme
  rw [hquote, hdigit, hpoint, hc]
  rfl

theorem isNameStart_of_lexeme {c : Char} {rest : List Char}
    (h : (lexeme c rest).1 = .ident) : isNameStart c = true := by
  by_contra hc
  unfold lexeme at h
  split at h
  · split at h <;> cases h
  · split at h
    · cases h
    · split at h
      · cases h
      · split at h <;> first | cases h | (split at h <;> cases h)

theorem tokensFrom_name {s : List Char} (h : IsName s) (p : Nat) :
    tokensFrom p s = [⟨.ident, s, p⟩] := by
  obtain ⟨c, rest, rfl, hc, hrest⟩ := h
  have hrun : run isNameChar rest = rest.length := by
    rw [run, List.takeWhile_eq_self_iff.mpr hrest]
  rw [tokensFrom_cons (isBlank_of_isNameChar (isNameChar_of_isNameStart hc)),
    lexeme_of_isNameStart hc, hrun, List.take_length, List.drop_length, tokensFrom]

end Scan
end FieldScript
