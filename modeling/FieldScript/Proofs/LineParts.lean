import Mathlib.Data.Nat.Digits.Defs
import FieldScript.Proofs.BracketDepth
import FieldScript.Proofs.TokenSeams

/-!
# The parts of a line

A line is read from left to right, and so are the facts about its tokens:
`EndTokens line s ts` says that the tokens which are left belong to the
end `s` of the line. One lemma for each kind of part takes its tokens off
the front. No lemma mentions positions; `PartOf` keeps what is needed of
them, that the tokens of a part cut this part from the line.
-/

namespace FieldScript

/-! ## Texts of expressions -/

/-- A text that may stand for an expression: it has no outer blanks, its
brackets nest and its quotes are closed. -/
structure ExprText where
  text : List Char
  nonempty : text ≠ []
  trimmed : trim text = text
  nested : properlyNested (tokenize text) = true
  closed : Scan.NoOpenQuote (tokenize text)

theorem ExprText.startsVisibly (e : ExprText) : StartsVisibly e.text :=
  e.trimmed ▸ startsVisibly_trim (by rw [e.trimmed]; exact e.nonempty)

theorem ExprText.endsVisibly (e : ExprText) : EndsVisibly e.text :=
  e.trimmed ▸ endsVisibly_trim (by rw [e.trimmed]; exact e.nonempty)

theorem ExprText.isEmpty_ofList (e : ExprText) : (String.ofList e.text).isEmpty = false := by
  rw [Bool.eq_false_iff]
  intro h
  have hnil := congrArg String.toList (String.isEmpty_iff.mp h)
  rw [String.toList_ofList] at hnil
  exact e.nonempty hnil

/-! ## Parts -/

/-- The tokens are those of a part of the line with this text. -/
def PartOf (line e : List Char) (ts : List Token) : Prop :=
  ∃ a b, line = a ++ e ++ b ∧ ts = (tokenize e).map (Token.moved a.length)

theorem PartOf.kinds {line e : List Char} {ts : List Token} (h : PartOf line e ts) :
    ∃ n, ts = (tokenize e).map (Token.moved n) :=
  let ⟨a, _, _, hts⟩ := h
  ⟨a.length, hts⟩

theorem PartOf.textOf_eq {l : LogicalLine} {e : ExprText} {ts : List Token}
    (h : PartOf l.text e.text ts) : Statement.textOf l ts = String.ofList e.text := by
  obtain ⟨a, b, hline, rfl⟩ := h
  rw [Statement.textOf, hline, ← Scan.tokensFrom_eq,
    sliceText_tokensFrom e.startsVisibly e.endsVisibly]

theorem PartOf.ne_nil {line : List Char} {e : ExprText} {ts : List Token}
    (h : PartOf line e.text ts) : ts ≠ [] := by
  obtain ⟨n, rfl⟩ := h.kinds
  obtain ⟨t, ht, -⟩ := Scan.exists_head?_tokensFrom e.startsVisibly n
  rw [Scan.tokensFrom_eq] at ht
  rintro hnil
  rw [hnil] at ht
  cases ht

theorem PartOf.properlyNested {line : List Char} {e : ExprText} {ts : List Token}
    (h : PartOf line e.text ts) : properlyNested ts = true := by
  obtain ⟨n, rfl⟩ := h.kinds
  exact properlyNested_map (Token.moved_kind n) e.nested

/-- The text mentions this word inside brackets only. -/
def NoWordOutside (word : String) (e : List Char) : Prop :=
  ∀ t, OutsideBrackets (tokenize e) t → t.isWord [word] = false

theorem PartOf.isWord_eq_false {line e : List Char} {ts : List Token} {word : String}
    (h : PartOf line e ts) (hword : NoWordOutside word e) {u : Token}
    (hu : OutsideBrackets ts u) : u.isWord [word] = false := by
  obtain ⟨n, rfl⟩ := h.kinds
  obtain ⟨t, ht, rfl⟩ := exists_outsideBrackets_of_map (Token.moved_kind n) hu
  exact hword t ht

/-! ## Ends -/

/-- The tokens are those of the end `s` of the line. -/
def EndTokens (line s : List Char) (ts : List Token) : Prop :=
  ∃ a, line = a ++ s ∧ ts = Scan.tokensFrom a.length s

theorem endTokens_tokenize {line s : List Char} (h : line = s) :
    EndTokens line s (tokenize line) :=
  ⟨[], h, h ▸ rfl⟩

/-- No token in front of this text goes on with it. -/
def Apart (s : List Char) : Prop := ∀ d, s.head? = some d → Scan.Separates d

theorem apart_nil : Apart [] := fun _ h => by cases h

theorem apart_cons {d : Char} (hd : Scan.Separates d) (s : List Char) : Apart (d :: s) :=
  fun _ h => Option.some.inj h ▸ hd

namespace EndTokens

variable {line s : List Char} {ts : List Token}

theorem eq_nil (h : EndTokens line [] ts) : ts = [] := by
  obtain ⟨a, -, rfl⟩ := h
  rw [Scan.tokensFrom]

theorem blank {c : Char} (hc : isBlank c = true) (h : EndTokens line (c :: s) ts) :
    EndTokens line s ts := by
  obtain ⟨a, rfl, rfl⟩ := h
  refine ⟨a ++ [c], by rw [List.append_cons], ?_⟩
  rw [Scan.tokensFrom_blank hc, List.length_append, List.length_singleton]

theorem blanks {gap : List Char} (hgap : ∀ c ∈ gap, isBlank c = true)
    (h : EndTokens line (gap ++ s) ts) : EndTokens line s ts := by
  induction gap with
  | nil => exact h
  | cons c gap ih =>
      obtain ⟨hc, hgap⟩ := List.forall_mem_cons.mp hgap
      exact ih hgap (h.blank hc)

/-- A part that nothing goes on with. -/
theorem part {e : List Char} (he : Scan.NoOpenQuote (tokenize e)) (hs : Apart s)
    (h : EndTokens line (e ++ s) ts) :
    ∃ us vs, ts = us ++ vs ∧ PartOf line e us ∧ EndTokens line s vs := by
  obtain ⟨a, rfl, rfl⟩ := h
  have hend : EndTokens (a ++ (e ++ s)) s (Scan.tokensFrom (a ++ e).length s) :=
    ⟨a ++ e, by rw [List.append_assoc], rfl⟩
  refine ⟨_, _, ?_, ⟨a, s, by rw [List.append_assoc], rfl⟩, hend⟩
  cases s with
  | nil => rw [Scan.tokensFrom, List.append_nil, List.append_nil, Scan.tokensFrom_eq]
  | cons d s =>
      rw [Scan.tokensFrom_append (hs d rfl) (Scan.noOpenQuote_tokensFrom he _),
        Scan.tokensFrom_eq a.length e, List.length_append]

/-- All that is left is one part. -/
theorem last (h : EndTokens line s ts) : PartOf line s ts := by
  obtain ⟨a, rfl, rfl⟩ := h
  exact ⟨a, [], by rw [List.append_nil], Scan.tokensFrom_eq _ _⟩

/-- A character that is a token of its own. -/
theorem symbol {c : Char} {k : Kind} (hc : isBlank c = false) (hlex : Scan.lexeme c s = (k, 0))
    (h : EndTokens line (c :: s) ts) :
    ∃ t vs, ts = t :: vs ∧ t.kind = k ∧ EndTokens line s vs := by
  obtain ⟨a, rfl, rfl⟩ := h
  rw [Scan.tokensFrom_cons hc, hlex]
  refine ⟨_, _, rfl, rfl, a ++ [c], by rw [List.append_cons], ?_⟩
  rw [List.length_append, List.length_singleton]
  rfl

theorem name {e : List Char} (he : IsName e) (hs : Apart s) (h : EndTokens line (e ++ s) ts) :
    ∃ t vs, ts = t :: vs ∧ t.kind = .ident ∧ t.text = e ∧ EndTokens line s vs := by
  have htokens : tokenize e = [⟨.ident, e, 0⟩] := Scan.tokensFrom_name he 0
  have hclosed : Scan.NoOpenQuote (tokenize e) := by
    rw [htokens]
    intro t ht hkind
    obtain rfl := List.mem_singleton.mp ht
    cases hkind
  obtain ⟨us, vs, rfl, hpart, hend⟩ := h.part hclosed hs
  obtain ⟨n, rfl⟩ := hpart.kinds
  rw [htokens]
  exact ⟨_, vs, rfl, rfl, rfl, hend⟩

end EndTokens

/-! ## Keywords -/

/-- All words of the grammar. -/
def grammarWords : List String :=
  ["SET", "RANGE", "X", "Y", "Z", "TO", "COLOR", "MAP", "PARTICLES", "CONTOUR", "LEVELS", "LABEL",
   "AT", "DEF", "PLOT3D", "PLOT_VECFIELD", "GRID", "PLOT_TENSOR", "AS", "GLYPH", "ANIMATE", "FROM",
   "STEP"]

/-- How a line is written: each word of the grammar in some letter case,
and some blanks, or none, behind the commas of a list. -/
structure Spelling where
  word : String → List Char
  upperName_word : ∀ w ∈ grammarWords, upperName (String.ofList (word w)) = w
  gap : List Char
  gap_blank : ∀ c ∈ gap, isBlank c = true

theorem isAlpha_of_toUpper {c : Char} (h : c.toUpper ≠ c) : c.isAlpha = true := by
  have hlower : c.val ≥ 'a'.val ∧ c.val ≤ 'z'.val := by
    by_contra hnot
    exact h (dif_neg hnot)
  refine Bool.or_eq_true_iff.mpr (Or.inr ?_)
  exact Bool.and_eq_true_iff.mpr ⟨decide_eq_true hlower.1, decide_eq_true hlower.2⟩

theorem isNameChar_of_toUpper {c : Char} (h : Scan.isNameChar c.toUpper = true) :
    Scan.isNameChar c = true := by
  by_cases hc : c.toUpper = c
  · rwa [hc] at h
  · rw [Scan.isNameChar, Char.isAlphanum, isAlpha_of_toUpper hc]
    rfl

theorem isNameStart_of_toUpper {c : Char} (h : Scan.isNameStart c.toUpper = true) :
    Scan.isNameStart c = true := by
  by_cases hc : c.toUpper = c
  · rwa [hc] at h
  · rw [Scan.isNameStart, isAlpha_of_toUpper hc]
    rfl

/-- A name is one in every letter case. -/
theorem isName_of_upperName {s : List Char} {w : String} (hw : IsName w.toList)
    (h : upperName (String.ofList s) = w) : IsName s := by
  obtain ⟨c, rest, hsplit, hc, hrest⟩ := hw
  have hmap : s.map Char.toUpper = c :: rest := by
    rw [← hsplit, ← h, upperName, String.toList_map, String.toList_ofList]
  obtain ⟨d, tail, rfl, rfl, rfl⟩ := List.map_eq_cons_iff.mp hmap
  refine ⟨d, tail, rfl, isNameStart_of_toUpper hc, fun x hx => ?_⟩
  exact isNameChar_of_toUpper (hrest _ (List.mem_map_of_mem hx))

theorem isName_of_all {s : List Char}
    (h : (s.head?.any Scan.isNameStart && s.all Scan.isNameChar) = true) : IsName s := by
  obtain ⟨hhead, hall⟩ := Bool.and_eq_true_iff.mp h
  cases s with
  | nil => cases hhead
  | cons c rest =>
      exact ⟨c, rest, rfl, hhead, fun d hd => List.all_eq_true.mp hall d (List.mem_cons_of_mem _ hd)⟩

theorem Spelling.isName_word (sp : Spelling) {w : String} (hw : w ∈ grammarWords) :
    IsName (sp.word w) := by
  have hall : (grammarWords.all fun w =>
      w.toList.head?.any Scan.isNameStart && w.toList.all Scan.isNameChar) = true := by
    decide
  exact isName_of_upperName (isName_of_all (List.all_eq_true.mp hall w hw))
    (sp.upperName_word w hw)

/-! ## Numbers -/

theorem flatMap_text_moved (n : Nat) (ts : List Token) :
    (ts.map (Token.moved n)).flatMap (·.text) = ts.flatMap (·.text) := by
  rw [List.flatMap_map]
  rfl

/-- The tokens of a text without blanks write the text again. -/
theorem flatMap_text_tokensFrom {s : List Char} (h : ∀ c ∈ s, isBlank c = false) (p : Nat) :
    (Scan.tokensFrom p s).flatMap (·.text) = s := by
  fun_induction Scan.tokensFrom p s with
  | case1 p => rfl
  | case2 p c rest hblank ih =>
      exact absurd hblank (by simp [h c List.mem_cons_self])
  | case3 p c rest hblank kind more hlex ih =>
      have hrest : ∀ d ∈ rest.drop more, isBlank d = false := fun d hd =>
        h d (List.mem_cons_of_mem _ (List.mem_of_mem_drop hd))
      rw [List.flatMap_cons, ih hrest, List.cons_append, List.take_append_drop]

/-- The digits of every script lie between the blanks. -/
theorem isBlank_of_isDecimalDigit {c : Char} (h : isDecimalDigit c = true) : isBlank c = false := by
  have hzeros : (digitZeros.all fun z =>
      (33 ≤ z && z + 10 ≤ 0x85) || (0xa1 ≤ z && z + 10 ≤ 0x1680) ||
        (0x1681 ≤ z && z + 10 ≤ 0x2000) || 0x3001 ≤ z) = true := by
    decide
  rw [isDecimalDigit, digitValue?, Option.isSome_map, List.find?_isSome] at h
  obtain ⟨z, hz, hc⟩ := h
  have hzero := List.all_eq_true.mp hzeros z hz
  simp only [Bool.or_eq_true, Bool.and_eq_true, decide_eq_true_eq] at hzero hc
  rw [Bool.eq_false_iff]
  intro hblank
  simp only [isBlank, Bool.or_eq_true, Bool.and_eq_true, decide_eq_true_eq, beq_iff_eq] at hblank
  omega

/-- Tokens that neither open nor close anything and are no commas. -/
theorem setApart_of_forall {ts : List Token} (h : ∀ t ∈ ts, t.kind.closer? = none ∧
    t.kind.isCloser = false ∧ t.kind ≠ .comma) : SetApart ts := by
  refine ⟨?_, ?_⟩
  · rw [properlyNested]
    induction ts with
    | nil => rfl
    | cons t ts ih =>
        obtain ⟨⟨hopen, hclose, -⟩, hts⟩ := List.forall_mem_cons.mp h
        exact nestsWith_cons.mpr ⟨[], .neither [] hopen hclose, ih hts⟩
  · rintro t ⟨before, after, rfl, -⟩
    exact (h t (List.mem_append_right _ List.mem_cons_self)).2.2

/-- A number with an optional sign, and the finite value it writes. -/
structure Literal where
  sign : List Char
  digits : List Char
  value : Float
  sign_mem : sign ∈ [[], ['+'], ['-']]
  number : tokenize digits = [⟨.number, digits, 0⟩]
  reads : readFloat? (String.ofList (sign ++ digits)) = some value
  finite : value.isFinite = true

namespace Literal

variable (n : Literal)

def text : List Char := n.sign ++ n.digits

theorem tokenize_text : ∃ ts, tokenize n.text = ts ++ [⟨.number, n.digits, n.sign.length⟩] ∧
    ts.flatMap (·.text) = n.sign ∧ ∀ t ∈ ts, t.kind = .plus ∨ t.kind = .minus := by
  have hdigits : Scan.tokensFrom n.sign.length n.digits =
      [⟨.number, n.digits, n.sign.length⟩] := by
    rw [Scan.tokensFrom_eq, n.number]
    simp [Token.moved]
  have hcase := n.sign_mem
  simp only [List.mem_cons, List.not_mem_nil, or_false] at hcase
  rw [text, tokenize]
  rcases hcase with hsign | hsign | hsign
  · rw [hsign] at hdigits ⊢
    exact ⟨[], hdigits, rfl, List.forall_mem_nil _⟩
  · rw [hsign] at hdigits ⊢
    refine ⟨[⟨.plus, ['+'], 0⟩], ?_, rfl, by simp⟩
    rw [List.singleton_append, Scan.tokensFrom_cons (by decide)]
    exact congrArg _ hdigits
  · rw [hsign] at hdigits ⊢
    refine ⟨[⟨.minus, ['-'], 0⟩], ?_, rfl, by simp⟩
    rw [List.singleton_append, Scan.tokensFrom_cons (by decide)]
    exact congrArg _ hdigits

theorem kind_of_mem {t : Token} (h : t ∈ tokenize n.text) :
    t.kind = .plus ∨ t.kind = .minus ∨ t.kind = .number := by
  obtain ⟨ts, htokens, -, hts⟩ := n.tokenize_text
  rw [htokens] at h
  rcases List.mem_append.mp h with h | h
  · exact (hts t h).imp_right Or.inl
  · obtain rfl := List.mem_singleton.mp h
    exact Or.inr (Or.inr rfl)

theorem closed : Scan.NoOpenQuote (tokenize n.text) := by
  intro t ht hkind
  rcases n.kind_of_mem ht with h | h | h <;> rw [hkind] at h <;> cases h

variable {n} {line : List Char} {ts : List Token} (h : PartOf line n.text ts)
include h

theorem ne_nil_of_partOf : ts ≠ [] := by
  obtain ⟨k, rfl⟩ := h.kinds
  obtain ⟨us, htokens, -, -⟩ := n.tokenize_text
  rw [htokens]
  simp

theorem setApart_of_partOf : SetApart ts := by
  obtain ⟨k, rfl⟩ := h.kinds
  refine SetApart.map (Token.moved_kind k) (setApart_of_forall fun t ht => ?_)
  rcases n.kind_of_mem ht with h | h | h <;> rw [h] <;> exact ⟨rfl, rfl, by decide⟩

theorem isWord_of_partOf {words : List String} {t : Token} (ht : t ∈ ts) :
    t.isWord words = false := by
  obtain ⟨k, rfl⟩ := h.kinds
  obtain ⟨u, hu, rfl⟩ := List.mem_map.mp ht
  rw [Token.isWord, Token.moved_kind]
  rcases n.kind_of_mem hu with h | h | h <;> rw [h] <;> rfl

theorem number_of_partOf (l : LogicalLine) (context : String) :
    Statement.number l context ts = .ok n.value := by
  obtain ⟨k, rfl⟩ := h.kinds
  obtain ⟨us, htokens, hsign, -⟩ := n.tokenize_text
  have hjoined : (tokenize n.text).flatMap (·.text) = n.sign ++ n.digits := by
    rw [htokens, List.flatMap_append, hsign]
    simp
  rw [Statement.number, joinedText, flatMap_text_moved, hjoined, n.reads]
  exact if_pos n.finite

end Literal

/-- A numeral and the whole number it writes. -/
structure Count where
  text : List Char
  value : Nat
  reads : readNatural? text = some value
  length_le : text.length ≤ Statement.maxNumeralLength

namespace Count

theorem ne_nil (n : Count) : n.text ≠ [] := by
  intro hnil
  have hreads := n.reads
  rw [hnil] at hreads
  cases hreads

theorem isDecimalDigit_of_mem (n : Count) {c : Char} (hc : c ∈ n.text) :
    isDecimalDigit c = true := by
  have hall := Statement.readNatural?_isSome n.ne_nil
  rw [n.reads, Option.isSome_some, eq_comm, List.all_eq_true] at hall
  exact hall c hc

theorem wholeNumber_of_partOf {n : Count} {line : List Char} {ts : List Token}
    (h : PartOf line n.text ts) : Statement.wholeNumber ts = .ok (some n.value) := by
  obtain ⟨k, rfl⟩ := h.kinds
  have htext : ((tokenize n.text).map (Token.moved k)).flatMap (·.text) = n.text := by
    rw [flatMap_text_moved]
    exact flatMap_text_tokensFrom
      (fun c hc => isBlank_of_isDecimalDigit (n.isDecimalDigit_of_mem hc)) 0
  have hform : (n.text.isEmpty || !n.text.all isDigitForm) = false := by
    rw [Bool.or_eq_false_iff, Bool.not_eq_false']
    refine ⟨by simpa using n.ne_nil, List.all_eq_true.mpr fun c hc => ?_⟩
    rw [isDigitForm, n.isDecimalDigit_of_mem hc]
    rfl
  rw [Statement.wholeNumber, htext, hform, if_neg Bool.false_ne_true, if_neg (Nat.not_lt_of_le n.length_le), n.reads]

/-- The decimal digits of a number write this number. -/
theorem readNatural?_toDigits (n : Nat) : readNatural? (Nat.toDigits 10 n) = some n := by
  have hdigit : ∀ d < 10, digitValue? (Nat.digitChar d) = some d := by decide
  have hfold : (Nat.toDigits 10 n).foldlM
      (fun n c => (digitValue? c).map (10 * n + ·)) 0 = some n := by
    induction n using Nat.strongRecOn with
    | ind n ih =>
        rcases Nat.lt_or_ge n 10 with hlt | hge
        · rw [Nat.toDigits_of_lt_base hlt, List.foldlM_cons, hdigit n hlt]
          exact congrArg some (Nat.zero_add n)
        · have hlast := hdigit (n % 10) (Nat.mod_lt n (by decide))
          rw [Nat.toDigits_of_base_le (by decide) hge, List.foldlM_append,
            ih (n / 10) (Nat.div_lt_self (by omega) (by decide))]
          rw [Option.bind_eq_bind, Option.bind_some, List.foldlM_cons, hlast]
          exact congrArg some (Nat.div_add_mod n 10)
  rw [readNatural?, if_neg ?_, hfold]
  rw [List.isEmpty_iff, ← List.length_eq_zero_iff]
  exact Nat.ne_of_gt Nat.length_toDigits_pos

/-- A number in its decimal digits. -/
def ofNat (n : Nat) (h : n < 10 ^ Statement.maxNumeralLength) : Count where
  text := Nat.toDigits 10 n
  value := n
  reads := readNatural?_toDigits n
  length_le := Nat.toDigits_length 10 n _ (by decide) h

end Count

/-! ## Lists -/

/-- The parts with commas between them. -/
def listed (gap : List Char) : List (List Char) → List Char
  | [] => []
  | [e] => e
  | e :: es => e ++ ',' :: (gap ++ listed gap es)

theorem listed_cons_cons (gap e e' : List Char) (es : List (List Char)) :
    listed gap (e :: e' :: es) = e ++ ',' :: (gap ++ listed gap (e' :: es)) := rfl

theorem EndTokens.comma {line s gap : List Char} {ts : List Token}
    (hgap : ∀ c ∈ gap, isBlank c = true) (h : EndTokens line (',' :: (gap ++ s)) ts) :
    ∃ t vs, ts = t :: vs ∧ t.kind = .comma ∧ EndTokens line s vs := by
  obtain ⟨t, vs, rfl, hkind, hend⟩ := h.symbol (k := .comma) (by decide) rfl
  exact ⟨t, vs, rfl, hkind, hend.blanks hgap⟩

/-- A list at the end of the line. -/
theorem EndTokens.listed {line gap : List Char} (hgap : ∀ c ∈ gap, isBlank c = true)
    {es : List (List Char)} (hne : es ≠ []) (hes : ∀ e ∈ es, Scan.NoOpenQuote (tokenize e))
    {ts : List Token} (h : EndTokens line (listed gap es) ts) :
    ∃ groups, CommaSeparated groups ts ∧ List.Forall₂ (PartOf line) es groups := by
  induction es generalizing ts with
  | nil => exact absurd rfl hne
  | cons e es ih =>
      obtain ⟨he, hes⟩ := List.forall_mem_cons.mp hes
      cases es with
      | nil => exact ⟨[ts], .single ts, .cons h.last .nil⟩
      | cons e' es =>
          rw [listed_cons_cons] at h
          obtain ⟨us, vs, rfl, hpart, h⟩ := h.part he (apart_cons (by decide) _)
          obtain ⟨t, ws, rfl, hcomma, h⟩ := h.comma hgap
          obtain ⟨groups, hgroups, hparts⟩ := ih (List.cons_ne_nil _ _) hes h
          exact ⟨us :: groups, .cons us hcomma hgroups, .cons hpart hparts⟩

/-- A list of numbers at the end of the line. -/
theorem EndTokens.literals {line gap : List Char} (hgap : ∀ c ∈ gap, isBlank c = true)
    {ns : List Literal} (hne : ns ≠ []) {ts : List Token}
    (h : EndTokens line (FieldScript.listed gap (ns.map Literal.text)) ts) :
    ∃ groups, CommaSeparated groups ts ∧
      List.Forall₂ (fun n g => PartOf line (Literal.text n) g) ns groups := by
  obtain ⟨groups, hgroups, hparts⟩ := h.listed hgap (mt List.map_eq_nil_iff.mp hne) fun e he => by
    obtain ⟨n, -, rfl⟩ := List.mem_map.mp he
    exact n.closed
  exact ⟨groups, hgroups, List.forall₂_map_left_iff.mp hparts⟩

theorem setApart_of_literals {line : List Char} {ns : List Literal} {groups : List (List Token)}
    (h : List.Forall₂ (fun n g => PartOf line (Literal.text n) g) ns groups) :
    ∀ g ∈ groups, SetApart g ∧ g ≠ [] := by
  induction h with
  | nil => exact List.forall_mem_nil _
  | cons hpart _ ih =>
      exact List.forall_mem_cons.mpr
        ⟨⟨Literal.setApart_of_partOf hpart, Literal.ne_nil_of_partOf hpart⟩, ih⟩

theorem mapM_number_of_literals {line : List Char} {ns : List Literal} {groups : List (List Token)}
    (h : List.Forall₂ (fun n g => PartOf line (Literal.text n) g) ns groups) (l : LogicalLine)
    (context : String) : groups.mapM (Statement.number l context) = .ok (ns.map Literal.value) := by
  induction h with
  | nil => rfl
  | cons hpart _ ih =>
      rw [List.mapM_cons, Literal.number_of_partOf hpart, ih]
      rfl

end FieldScript
