import FieldScript.Proofs.LineParts

/-!
# Slices of a line

The text of an expression is cut from its line and taken for tokens again
wherever the expression is used. Both ways give the same tokens: a token
is not changed by what stands behind it (`lexeme_take`), so a cut behind
a token keeps all tokens in front (`tokensFrom_take`), and nothing of what
stands in front of a token is looked at when it is read
(`exists_tokensFrom_of_suffix`). The slice of a run of tokens is therefore
a part of the line with these tokens (`partOf_rawSlice`).
-/

namespace FieldScript

namespace Scan

/-! ## Lexemes in front of a cut -/

section Cut

variable {k : Nat} {s : List Char}

theorem run_take (p : Char → Bool) (s : List Char) (k : Nat) :
    run p (s.take k) = min k (run p s) := by
  induction s generalizing k with
  | nil => simp [run]
  | cons c rest ih =>
      cases k with
      | zero => simp [run]
      | succ k =>
          simp only [run, List.take_succ_cons, List.takeWhile_cons] at ih ⊢
          split
          · rw [List.length_cons, List.length_cons, ih, Nat.add_min_add_right]
          · simp

theorem fraction_take (h : fraction s ≤ k) : fraction (s.take k) = fraction s := by
  cases s with
  | nil => rw [List.take_nil]
  | cons c rest =>
      cases k with
      | zero => exact (Nat.le_zero.mp h).symm
      | succ k =>
          rw [fraction_cons] at h
          rw [List.take_succ_cons, fraction_cons, fraction_cons, run_take]
          split
          · rename_i hpoint
            rw [if_pos hpoint] at h
            omega
          · rfl

theorem signLength_take_succ (s : List Char) (k : Nat) :
    signLength (s.take (k + 1)) = signLength s := by
  cases s <;> rfl

/-- The digits of an exponent that is cut behind its letter. -/
theorem run_drop_sign_take (s : List Char) (k : Nat) :
    run isDecimalDigit ((s.take k).drop (signLength (s.take k))) =
      min (k - signLength s) (run isDecimalDigit (s.drop (signLength s))) := by
  cases k with
  | zero => simp [run]
  | succ k => rw [signLength_take_succ, List.drop_take, run_take]

theorem exponent_take (h : exponent s ≤ k) : exponent (s.take k) = exponent s := by
  cases s with
  | nil => rw [List.take_nil]
  | cons c rest =>
      cases k with
      | zero => exact (Nat.le_zero.mp h).symm
      | succ k =>
          rw [exponent_cons] at h
          rw [List.take_succ_cons, exponent_cons, exponent_cons, run_drop_sign_take]
          simp only [beq_iff_eq] at h ⊢
          split
          · rename_i hletter
            rw [if_pos hletter] at h
            split at h
            · rename_i hnone
              rw [hnone, Nat.min_zero, if_pos rfl, if_pos rfl]
            · rename_i hdigits
              obtain ⟨j, rfl⟩ : ∃ j, k = j + 1 := ⟨k - 1, by omega⟩
              rw [signLength_take_succ, Nat.min_eq_right (by omega)]
          · rfl

theorem afterDigit_take (h : afterDigit s ≤ k) : afterDigit (s.take k) = afterDigit s := by
  rw [afterDigit] at h
  have hwhole : run isDecimalDigit (s.take k) = run isDecimalDigit s := by
    rw [run_take, Nat.min_eq_right (by omega)]
  rw [afterDigit, hwhole, List.drop_take, fraction_take (by omega), List.drop_take,
    exponent_take (by omega), afterDigit]

theorem afterPoint_take (h : afterPoint s ≤ k) : afterPoint (s.take k) = afterPoint s := by
  rw [afterPoint] at h
  have hplaces : run isDecimalDigit (s.take k) = run isDecimalDigit s := by
    rw [run_take, Nat.min_eq_right (by omega)]
  rw [afterPoint, hplaces, List.drop_take, exponent_take (by omega), afterPoint]

/-- A digit that comes first begins a run. -/
theorem run_pos_of_head? {p : Char → Bool} (h : (s.head?.map p).getD false = true) :
    0 < run p s := by
  cases s with
  | nil => cases h
  | cons c rest =>
      have hc : p c = true := h
      rw [run, List.takeWhile_cons, if_pos hc, List.length_cons]
      exact Nat.succ_pos _

theorem head?_take_of_le {p : Char → Bool} (h : (s.head?.map p).getD false = true → 1 ≤ k) :
    ((s.take k).head?.map p).getD false = (s.head?.map p).getD false := by
  cases s with
  | nil => rw [List.take_nil]
  | cons d rest =>
      cases k with
      | zero => exact (Bool.eq_false_iff.mpr fun hnext => Nat.not_succ_le_zero _ (h hnext)).symm
      | succ k => rfl

theorem nextIs_take {c : Char} (h : nextIs c s = true → 1 ≤ k) :
    nextIs c (s.take k) = nextIs c s := by
  have hfirst : ∀ s, nextIs c s = (s.head?.map (· == c)).getD false := fun s => by cases s <;> rfl
  rw [hfirst] at h
  rw [hfirst, hfirst, head?_take_of_le h]

/-- What stands behind a token does not change it. -/
theorem lexeme_take {c : Char} (h : (lexeme c s).2 ≤ k) : lexeme c (s.take k) = lexeme c s := by
  unfold lexeme at h ⊢
  split
  · rename_i hquote
    rw [if_pos hquote] at h
    rw [List.findIdx?_take]
    cases hfind : s.findIdx? (· == c) with
    | none => rfl
    | some i =>
        rw [hfind] at h
        have hlt : i < k := h
        simp [hlt]
  · rename_i hquote
    rw [if_neg hquote] at h
    split
    · rename_i hdigit
      rw [if_pos hdigit] at h
      rw [afterDigit_take h]
    · rename_i hdigit
      rw [if_neg hdigit] at h
      by_cases hpoint : (c == '.' && (s.head?.map isDecimalDigit).getD false) = true
      · rw [if_pos hpoint] at h
        have hrun := run_pos_of_head? ((Bool.and_eq_true _ _).mp hpoint).2
        have hplaces : run isDecimalDigit s ≤ afterPoint s := Nat.le_add_right _ _
        have hk : 1 ≤ k := by
          have hle : afterPoint s ≤ k := h
          omega
        rw [head?_take_of_le fun _ => hk, if_pos hpoint, if_pos hpoint, afterPoint_take h]
      · have hcut : ¬ (c == '.' && ((s.take k).head?.map isDecimalDigit).getD false) = true := by
          intro hcut
          obtain ⟨hc, hfirst⟩ := (Bool.and_eq_true _ _).mp hcut
          have hk : 1 ≤ k := by
            by_contra hk
            obtain rfl : k = 0 := by omega
            cases hfirst
          rw [head?_take_of_le fun _ => hk] at hfirst
          exact hpoint ((Bool.and_eq_true _ _).mpr ⟨hc, hfirst⟩)
        rw [if_neg hpoint] at h
        rw [if_neg hpoint, if_neg hcut]
        split
        · rename_i hname
          rw [if_pos hname] at h
          rw [run_take, Nat.min_eq_right h]
        · rename_i hname
          rw [if_neg hname] at h
          -- A symbol reads at most one more character.
          split at h <;> first
            | rfl
            | rw [nextIs_take fun hnext => by simpa [hnext] using h]

/-- A cut behind the first token keeps it. -/
theorem tokensFrom_take_cons {p : Nat} {c : Char} (hc : isBlank c = false)
    (hk : (lexeme c s).2 ≤ k) :
    tokensFrom p ((c :: s).take (k + 1)) =
      ⟨(lexeme c s).1, c :: s.take (lexeme c s).2, p⟩ ::
        tokensFrom (p + 1 + (lexeme c s).2)
          ((s.drop (lexeme c s).2).take (k - (lexeme c s).2)) := by
  rw [List.take_succ_cons, tokensFrom_cons hc, lexeme_take hk, List.take_take,
    Nat.min_eq_left hk, List.drop_take]

theorem lt_stop_of_mem {p : Nat} {t : Token} (h : t ∈ tokensFrom p s) : p < t.stop := by
  have hle := le_position_of_mem h
  have hpos := List.length_pos_iff.mpr (startsIn_of_mem h).1
  rw [Token.stop]
  omega

/-- A cut behind a token gives the tokens up to this one. -/
theorem tokensFrom_take {p : Nat} {us vs : List Token} {u : Token}
    (h : tokensFrom p s = us ++ vs) (hlast : us.getLast? = some u) :
    tokensFrom p (s.take (u.stop - p)) = us := by
  fun_induction tokensFrom p s generalizing us with
  | case1 p =>
      obtain ⟨rfl, -⟩ := List.append_eq_nil_iff.mp h.symm
      cases hlast
  | case2 p c rest hblank ih =>
      have hlt := lt_stop_of_mem (h ▸ List.mem_append_left _ (List.mem_of_getLast? hlast))
      obtain ⟨k, hk⟩ : ∃ k, u.stop - p = k + 1 := ⟨u.stop - (p + 1), by omega⟩
      have hrest : u.stop - (p + 1) = k := by omega
      rw [hk, List.take_succ_cons, tokensFrom_blank hblank, ← hrest, ih h hlast]
  | case3 p c rest hblank kind more hlex ih =>
      have hmore : more ≤ rest.length := by
        have := lexeme_le c rest
        rwa [hlex] at this
      have hc : isBlank c = false := by simpa using hblank
      rw [List.length_take_of_le hmore] at h ih
      cases us with
      | nil => cases hlast
      | cons t us =>
          obtain ⟨rfl, htail⟩ := List.cons.inj h
          cases us with
          | nil =>
              rw [List.getLast?_singleton] at hlast
              obtain rfl := Option.some.inj hlast
              have hk : p + (more + 1) - p = more + 1 := Nat.add_sub_cancel_left _ _
              rw [Token.stop, List.length_cons, List.length_take_of_le hmore, hk,
                tokensFrom_take_cons hc (by rw [hlex]), hlex, Nat.sub_self, List.take_zero, tokensFrom]
          | cons v us =>
              rw [List.getLast?_cons_cons] at hlast
              have hu : u ∈ tokensFrom (p + 1 + more) (rest.drop more) := by
                rw [htail]
                exact List.mem_append_left _ (List.mem_of_getLast? hlast)
              have hlt := lt_stop_of_mem hu
              obtain ⟨k, hk⟩ : ∃ k, u.stop - p = k + 1 := ⟨u.stop - (p + 1), by omega⟩
              have hrest : u.stop - (p + 1 + more) = k - more := by omega
              rw [hk, tokensFrom_take_cons hc (by rw [hlex]; dsimp only; omega), hlex]
              dsimp only
              rw [← hrest, ih htail hlast]

end Cut

/-! ## Tokens of the end of a line -/

variable {p : Nat} {s : List Char}

/-- The last tokens of a text are those of its end. -/
theorem exists_tokensFrom_of_suffix {us vs : List Token} (h : tokensFrom p s = us ++ vs)
    (hne : vs ≠ []) :
    ∃ a b, s = a ++ b ∧ vs = tokensFrom (p + a.length) b ∧ StartsVisibly b := by
  fun_induction tokensFrom p s generalizing us with
  | case1 p =>
      obtain ⟨-, rfl⟩ := List.append_eq_nil_iff.mp h.symm
      exact absurd rfl hne
  | case2 p c rest hblank ih =>
      obtain ⟨a, b, rfl, rfl, hb⟩ := ih h
      exact ⟨c :: a, b, rfl, by rw [List.length_cons, Nat.add_right_comm, Nat.add_assoc], hb⟩
  | case3 p c rest hblank kind more hlex ih =>
      cases us with
      | nil =>
          refine ⟨[], c :: rest, rfl, ?_, c, rest, rfl, by simpa using hblank⟩
          rw [tokensFrom, if_neg hblank, hlex]
          exact h.symm
      | cons u us =>
          obtain ⟨-, htail⟩ := List.cons.inj h
          obtain ⟨a, b, hsplit, rfl, hb⟩ := ih htail
          refine ⟨c :: (rest.take more ++ a), b, ?_, ?_, hb⟩
          · rw [List.cons_append, List.append_assoc, ← hsplit, List.take_append_drop]
          · rw [List.length_cons, List.length_append]
            congr 1
            omega

theorem separates_of_isBlank {d : Char} (h : isBlank d = true) : Separates d := by
  refine ⟨?_, ?_, ?_⟩
  · rw [Bool.eq_false_iff]
    exact fun hname => Bool.false_ne_true ((isBlank_of_isNameChar hname).symm.trans h)
  · rw [Bool.eq_false_iff]
    exact fun hdigit => Bool.false_ne_true ((isBlank_of_isDecimalDigit hdigit).symm.trans h)
  · intro hmem
    simp only [List.mem_cons, List.not_mem_nil, or_false] at hmem
    rcases hmem with rfl | rfl | rfl | rfl | rfl <;> cases h

/-- Blanks behind a text close no quote in it. -/
theorem lexeme_append_blanks {c : Char} {rest gap : List Char} (hgap : ∀ d ∈ gap, isBlank d = true) :
    lexeme c (rest ++ gap) = lexeme c rest := by
  cases gap with
  | nil => rw [List.append_nil]
  | cons d gap =>
      by_cases hquote : (c == '"' || c == '\'') = true
      · have hnone : (d :: gap).findIdx? (· == c) = none := by
          rw [List.findIdx?_eq_none_iff]
          intro e he
          rw [beq_eq_false_iff_ne]
          rintro rfl
          have hblank := hgap e he
          rcases (Bool.or_eq_true _ _).mp hquote with h | h <;> rw [eq_of_beq h] at hblank <;>
            cases hblank
        unfold lexeme
        rw [if_pos hquote, if_pos hquote, List.findIdx?_append, hnone]
        simp
      · refine lexeme_append (separates_of_isBlank (hgap d List.mem_cons_self)) fun _ => ?_
        simpa using hquote

theorem tokensFrom_blanks {gap : List Char} (hgap : ∀ d ∈ gap, isBlank d = true) (p : Nat) :
    tokensFrom p gap = [] := by
  induction gap generalizing p with
  | nil => rw [tokensFrom]
  | cons c gap ih =>
      obtain ⟨hc, hgap⟩ := List.forall_mem_cons.mp hgap
      rw [tokensFrom_blank hc, ih hgap]

theorem tokensFrom_append_blanks {gap : List Char} (hgap : ∀ d ∈ gap, isBlank d = true) :
    tokensFrom p (s ++ gap) = tokensFrom p s := by
  fun_induction tokensFrom p s with
  | case1 p => exact tokensFrom_blanks hgap p
  | case2 p c rest hblank ih => rw [List.cons_append, tokensFrom_blank hblank, ih]
  | case3 p c rest hblank kind more hlex ih =>
      have hmore : more ≤ rest.length := by
        have := lexeme_le c rest
        rwa [hlex] at this
      rw [List.cons_append, tokensFrom_cons (by simpa using hblank), lexeme_append_blanks hgap, hlex]
      dsimp only
      rw [List.take_append_of_le_length hmore, List.drop_append_of_le_length hmore, ← ih,
        List.length_take_of_le hmore]

/-! ## Where tokens end -/

/-- A token ends before the next begins. -/
theorem tokensFrom_pairwise_stop (p : Nat) (s : List Char) :
    (tokensFrom p s).Pairwise fun t u => t.stop ≤ u.position := by
  fun_induction tokensFrom p s with
  | case1 => exact List.Pairwise.nil
  | case2 p c rest hblank ih => exact ih
  | case3 p c rest hblank kind more hlex ih =>
      refine List.Pairwise.cons (fun u hu => ?_) ih
      have hle := le_position_of_mem hu
      simp only [Token.stop, List.length_cons]
      omega

theorem stop_le_of_mem {p : Nat} {s : List Char} {t : Token} (h : t ∈ tokensFrom p s) :
    t.stop ≤ p + s.length := by
  fun_induction tokensFrom p s with
  | case1 => cases h
  | case2 p c rest hblank ih =>
      have := ih h
      rw [List.length_cons]
      omega
  | case3 p c rest hblank kind more hlex ih =>
      rw [List.length_cons]
      rcases List.mem_cons.mp h with rfl | hrest
      · simp only [Token.stop, List.length_cons, List.length_take]
        omega
      · have := ih hrest
        rw [List.length_take, List.length_drop] at this
        omega

/-- The text of a token is what stands at its position. -/
theorem take_drop_of_mem {t : Token} (h : t ∈ tokensFrom p s) :
    (s.drop (t.position - p)).take t.text.length = t.text := by
  fun_induction tokensFrom p s with
  | case1 => cases h
  | case2 p c rest hblank ih =>
      have hle := le_position_of_mem h
      obtain ⟨i, hi⟩ : ∃ i, t.position - p = i + 1 := ⟨t.position - (p + 1), by omega⟩
      have hrest : t.position - (p + 1) = i := by omega
      rw [hi, List.drop_succ_cons, ← hrest, ih h]
  | case3 p c rest hblank kind more hlex ih =>
      have hmore : more ≤ rest.length := by
        have := lexeme_le c rest
        rwa [hlex] at this
      rw [List.length_take_of_le hmore] at h ih
      rcases List.mem_cons.mp h with rfl | hrest
      · rw [Nat.sub_self, List.drop_zero, List.length_cons, List.length_take_of_le hmore,
          List.take_succ_cons]
      · have hle := le_position_of_mem hrest
        obtain ⟨i, hi⟩ : ∃ i, t.position - p = more + i + 1 :=
          ⟨t.position - (p + 1 + more), by omega⟩
        have htail : t.position - (p + 1 + more) = i := by omega
        rw [hi, List.drop_succ_cons, ← List.drop_drop, ← htail, ih hrest]

/-- Whatever is no blank belongs to a token. -/
theorem exists_mem_of_getElem? {i : Nat} {c : Char} (h : s[i]? = some c) (hc : isBlank c = false) :
    ∃ t ∈ tokensFrom p s, t.position ≤ p + i ∧ p + i < t.stop := by
  fun_induction tokensFrom p s generalizing i with
  | case1 => simp at h
  | case2 p d rest hblank ih =>
      cases i with
      | zero =>
          obtain rfl := Option.some.inj h
          exact absurd (hc.symm.trans hblank) Bool.false_ne_true
      | succ i =>
          obtain ⟨t, ht, hle, hlt⟩ := ih h
          exact ⟨t, ht, by omega, by omega⟩
  | case3 p d rest hblank kind more hlex ih =>
      have hmore : more ≤ rest.length := by
        have := lexeme_le d rest
        rwa [hlex] at this
      rw [List.length_take_of_le hmore] at ih ⊢
      by_cases hi : i ≤ more
      · refine ⟨_, List.mem_cons_self, Nat.le_add_right _ _, ?_⟩
        rw [Token.stop, List.length_cons, List.length_take_of_le hmore]
        dsimp only
        omega
      · obtain ⟨j, rfl⟩ : ∃ j, i = more + j + 1 := ⟨i - more - 1, by omega⟩
        rw [List.getElem?_cons_succ, ← List.getElem?_drop] at h
        obtain ⟨t, ht, hle, hlt⟩ := ih h
        exact ⟨t, List.mem_cons_of_mem _ ht, by omega, by omega⟩

end Scan

/-! ## Slices -/

theorem exists_trimEnd_append (s : List Char) :
    ∃ gap, s = trimEnd s ++ gap ∧ ∀ d ∈ gap, isBlank d = true := by
  refine ⟨(s.reverse.takeWhile isBlank).reverse, ?_, fun d hd => ?_⟩
  · rw [trimEnd, ← List.reverse_append, List.takeWhile_append_dropWhile, List.reverse_reverse]
  · exact List.mem_takeWhile_imp (List.mem_reverse.mp hd)

/-- The slice of a run of tokens is the part of the line that has these
tokens, and no blanks stand at its ends. -/
theorem partOf_rawSlice {line : List Char} {before run after : List Token}
    (h : tokenize line = before ++ run ++ after) (hne : run ≠ []) :
    PartOf line (rawSlice line run) run ∧ StartsVisibly (rawSlice line run) ∧
      EndsVisibly (rawSlice line run) := by
  rw [List.append_assoc] at h
  obtain ⟨a, b, rfl, hrun, hb⟩ := Scan.exists_tokensFrom_of_suffix h (by simp [hne])
  rw [Nat.zero_add] at hrun
  obtain ⟨u, hlast⟩ : ∃ u, run.getLast? = some u := ⟨_, List.getLast?_eq_some_getLast hne⟩
  obtain ⟨t, hhead⟩ : ∃ t, run.head? = some t := ⟨_, List.head?_eq_some_head hne⟩
  have hposition : t.position = a.length := by
    obtain ⟨t', ht', hposition⟩ := Scan.exists_head?_tokensFrom hb a.length
    rw [← hrun, List.head?_append_of_ne_nil _ hne, hhead] at ht'
    rw [Option.some.inj ht', hposition]
  have htokens := Scan.tokensFrom_take hrun.symm hlast
  generalize he : b.take (u.stop - a.length) = e at htokens
  have hraw : rawSlice (a ++ b) run = e := by
    rw [rawSlice, hhead, hlast]
    dsimp only
    rw [hposition, List.drop_take, List.drop_left, he]
  have hstart : StartsVisibly e := by
    refine hb.of_isPrefix (he ▸ List.take_prefix _ _) ?_
    rintro rfl
    rw [Scan.tokensFrom] at htokens
    exact hne htokens.symm
  -- A blank at the end would stand behind the last token.
  have hend : trimEnd e = e := by
    obtain ⟨gap, hsplit, hgap⟩ := exists_trimEnd_append e
    have hu : u ∈ Scan.tokensFrom a.length (trimEnd e) := by
      rw [← Scan.tokensFrom_append_blanks hgap, ← hsplit, htokens]
      exact List.mem_of_getLast? hlast
    have hstop := Scan.stop_le_of_mem hu
    have hlength : e.length ≤ u.stop - a.length := he ▸ List.length_take_le _ _
    have hsum := congrArg List.length hsplit
    rw [List.length_append] at hsum
    have hnil : gap = [] := List.eq_nil_of_length_eq_zero (by omega)
    rw [hnil, List.append_nil] at hsplit
    exact hsplit.symm
  rw [hraw]
  refine ⟨⟨a, b.drop (u.stop - a.length), ?_, ?_⟩, hstart, hend ▸ endsVisibly_trimEnd ?_⟩
  · rw [List.append_assoc, ← he, List.take_append_drop]
  · rw [← htokens, Scan.tokensFrom_eq]
  · obtain ⟨c, rest, rfl, -⟩ := hstart
    rw [hend]
    exact List.cons_ne_nil c rest

theorem sliceText_eq_rawSlice {line : List Char} {before run after : List Token}
    (h : tokenize line = before ++ run ++ after) (hne : run ≠ []) :
    sliceText line run = rawSlice line run :=
  let ⟨_, hstart, hend⟩ := partOf_rawSlice h hne
  trim_eq_self hstart hend

/-- The text of the last tokens of a line has these tokens. -/
theorem partOf_sliceText {s : List Char} {us vs : List Token} (h : tokenize s = us ++ vs)
    (hne : vs ≠ []) : PartOf s (sliceText s vs) vs := by
  have hrun : tokenize s = us ++ vs ++ [] := by rw [List.append_nil, h]
  rw [sliceText_eq_rawSlice hrun hne]
  exact (partOf_rawSlice hrun hne).1

theorem PartOf.tokenize_moved {line e : List Char} {first : Token} {rest : List Token}
    (h : PartOf line e (first :: rest)) (he : StartsVisibly e) :
    (tokenize e).map (Token.moved first.position) = first :: rest := by
  obtain ⟨a, b, -, hrun⟩ := h
  obtain ⟨t, ht, hposition⟩ := Scan.exists_head?_tokensFrom he a.length
  rw [Scan.tokensFrom_eq, ← hrun, List.head?_cons] at ht
  rw [hrun, Option.some.inj ht, hposition]

/-- Tokens come one behind the other, each is what stands at its position,
and what belongs to none of them is blank. The slice of a run of tokens
has no outer blanks, and its tokens are those of the run, moved to where
the slice stands. -/
theorem tokenize_slices (s : List Char) :
    ((tokenize s).Pairwise fun t u => t.stop ≤ u.position) ∧
    (∀ t ∈ tokenize s, t.text ≠ [] ∧ (s.drop t.position).take t.text.length = t.text) ∧
    (∀ i c, s[i]? = some c → isBlank c = true ∨ ∃ t ∈ tokenize s, t.position ≤ i ∧ i < t.stop) ∧
    ∀ before first rest after, tokenize s = before ++ first :: rest ++ after →
      sliceText s (first :: rest) = rawSlice s (first :: rest) ∧
        (tokenize (rawSlice s (first :: rest))).map (Token.moved first.position) = first :: rest := by
  refine ⟨Scan.tokensFrom_pairwise_stop 0 s, fun t ht => ⟨?_, ?_⟩, fun i c hget => ?_, ?_⟩
  · exact (Scan.startsIn_of_mem ht).1
  · have htext := Scan.take_drop_of_mem ht
    rwa [Nat.sub_zero] at htext
  · cases hc : isBlank c with
    | true => exact Or.inl rfl
    | false =>
        obtain ⟨t, ht, hle, hlt⟩ := Scan.exists_mem_of_getElem? (p := 0) hget hc
        rw [Nat.zero_add] at hle hlt
        exact Or.inr ⟨t, ht, hle, hlt⟩
  · intro before first rest after h
    obtain ⟨hpart, hstart, -⟩ := partOf_rawSlice h (List.cons_ne_nil _ _)
    exact ⟨sliceText_eq_rawSlice h (List.cons_ne_nil _ _), hpart.tokenize_moved hstart⟩

end FieldScript
