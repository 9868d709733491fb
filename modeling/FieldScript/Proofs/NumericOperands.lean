import FieldScript.Proofs.StatementResults
import FieldScript.Proofs.TokenSlices

/-!
# Numbers of statements

Where a statement wants a number, the tokens are put together without the
blanks between them, and the text that results is read. No numeral holds a
blank (`visible_of_readFloat?`), so what is read is the slice of these
tokens without its blanks (`compact_rawSlice`). It is what stands in the
line exactly if the tokens touch each other (`rawSlice_eq_iff`); only a
sign may stand apart from its number (`Operand`).

Tokens that do not touch are not refused: `PARTICLES 1 2` asks for twelve
particles (`Statement.not_touching_particles`).
-/

namespace FieldScript

/-! ## Numerals have no blanks -/

namespace Numeral

theorem exists_append_digitRunFrom (after : Bool) (s : List Char) :
    ∃ run, s = run ++ (digitRunFrom after s).2 ∧ ∀ c ∈ run, isBlank c = false := by
  induction s generalizing after with
  | nil => exact ⟨[], rfl, List.forall_mem_nil _⟩
  | cons c rest ih =>
      rw [digitRunFrom]
      split
      · rename_i d hd
        obtain ⟨run, hsplit, hrun⟩ := ih true
        have hc : isDecimalDigit c = true := by rw [isDecimalDigit, hd, Option.isSome_some]
        exact ⟨c :: run, congrArg (c :: ·) hsplit,
          List.forall_mem_cons.mpr ⟨isBlank_of_isDecimalDigit hc, hrun⟩⟩
      · split
        · rename_i hjoin
          obtain ⟨run, hsplit, hrun⟩ := ih false
          simp only [Bool.and_eq_true, beq_iff_eq] at hjoin
          obtain ⟨⟨rfl, -⟩, -⟩ := hjoin
          exact ⟨'_' :: run, congrArg ('_' :: ·) hsplit, List.forall_mem_cons.mpr ⟨rfl, hrun⟩⟩
        · exact ⟨[], rfl, List.forall_mem_nil _⟩

/-- A text that is a run of digits and what is read behind it. -/
theorem visible_of_digitRun {s : List Char}
    (h : ∀ c ∈ (digitRun s).2, isBlank c = false) : ∀ c ∈ s, isBlank c = false := by
  obtain ⟨run, hsplit, hrun⟩ := exists_append_digitRunFrom false s
  rw [hsplit]
  exact List.forall_mem_append.mpr ⟨hrun, h⟩

theorem visible_of_readExponent? {s : List Char} {e : Int} (h : readExponent? s = some e) :
    ∀ c ∈ s, isBlank c = false := by
  unfold readExponent? at h
  split at h
  · exact List.forall_mem_nil _
  · rename_i c rest
    split at h
    · rename_i hletter
      have hc : isBlank c = false := by
        rcases Bool.or_eq_true_iff.mp hletter with hc | hc <;> rw [eq_of_beq hc] <;> rfl
      refine List.forall_mem_cons.mpr ⟨hc, ?_⟩
      split at h
      rename_i negative body hsign
      have hbody : ∀ c ∈ body, isBlank c = false := by
        refine visible_of_digitRun ?_
        split at h
        · cases h
        · rename_i hrun
          rw [hrun]
          exact List.forall_mem_nil _
        · cases h
      split at hsign <;> obtain ⟨rfl, rfl⟩ := Prod.mk.inj hsign
      · exact List.forall_mem_cons.mpr ⟨rfl, hbody⟩
      · exact List.forall_mem_cons.mpr ⟨rfl, hbody⟩
      · exact hbody
    · cases h

theorem visible_of_readUnsigned? {negative : Bool} {s : List Char} {n : Numeral}
    (h : readUnsigned? negative s = some n) : ∀ c ∈ s, isBlank c = false := by
  have hrest : ∀ {ds ps : List Nat} {rest : List Char},
      (if (ds.isEmpty && ps.isEmpty) = true then none
      else (readExponent? rest).map fun e =>
        Numeral.mk negative (ofDigits (ds ++ ps)) (e - ps.length)) = some n →
        ∀ c ∈ rest, isBlank c = false := by
    intro ds ps rest hread
    split at hread
    · cases hread
    · obtain ⟨e, hexponent, -⟩ := Option.map_eq_some_iff.mp hread
      exact visible_of_readExponent? hexponent
  refine visible_of_digitRun ?_
  unfold readUnsigned? at h
  dsimp only at h
  split at h
  · rename_i r hpoint
    rw [hpoint]
    exact List.forall_mem_cons.mpr ⟨rfl, visible_of_digitRun (hrest h)⟩
  · exact hrest h

end Numeral

theorem toLower_of_isBlank {c : Char} (h : isBlank c = true) : c.toLower = c := by
  have hupper : ¬ (65 ≤ c.toNat ∧ c.toNat ≤ 90) := by
    simp only [isBlank, Bool.or_eq_true, Bool.and_eq_true, decide_eq_true_eq, beq_iff_eq] at h
    omega
  rw [Char.toLower]
  split
  · exact absurd ‹_› hupper
  · rfl

theorem visible_of_map_toLower {s : List Char} {word : String}
    (h : String.ofList (s.map Char.toLower) = word) (hword : ∀ c ∈ word.toList, isBlank c = false) :
    ∀ c ∈ s, isBlank c = false := by
  intro c hc
  cases hblank : isBlank c with
  | false => rfl
  | true =>
      have hmem : c ∈ word.toList := by
        rw [← h, String.toList_ofList, ← toLower_of_isBlank hblank]
        exact List.mem_map_of_mem hc
      rw [← hblank, hword c hmem]

theorem visible_of_readFloat? {s : List Char} {x : Float}
    (h : readFloat? (String.ofList s) = some x) : ∀ c ∈ trim s, isBlank c = false := by
  have hbody : ∀ {negative : Bool} {body : List Char},
      (if (String.ofList (body.map Char.toLower) == "inf" ||
          String.ofList (body.map Char.toLower) == "infinity") = true then
        some (if negative = true then -Binary64.infinity else Binary64.infinity)
      else if (String.ofList (body.map Char.toLower) == "nan") = true then some Binary64.nan
      else (Numeral.readUnsigned? negative body).map Numeral.toFloat) = some x →
        ∀ c ∈ body, isBlank c = false := by
    intro negative body hread
    split at hread
    · rename_i hword
      rcases Bool.or_eq_true_iff.mp hword with hword | hword <;>
        exact visible_of_map_toLower (eq_of_beq hword) (by simp [isBlank])
    · split at hread
      · exact visible_of_map_toLower (eq_of_beq ‹_›) (by simp [isBlank])
      · obtain ⟨n, hnumeral, -⟩ := Option.map_eq_some_iff.mp hread
        exact Numeral.visible_of_readUnsigned? hnumeral
  unfold readFloat? at h
  rw [String.toList_ofList] at h
  dsimp only at h
  split at h
  · rename_i r hsign
    rw [hsign]
    exact List.forall_mem_cons.mpr ⟨rfl, hbody h⟩
  · rename_i r hsign
    rw [hsign]
    exact List.forall_mem_cons.mpr ⟨rfl, hbody h⟩
  · exact hbody h

/-! ## Slices without blanks -/

/-- The text without its blanks. -/
def compact (s : List Char) : List Char := s.filter fun c => !isBlank c

theorem compact_eq_self {s : List Char} (h : ∀ c ∈ s, isBlank c = false) : compact s = s :=
  List.filter_eq_self.mpr fun c hc => by rw [h c hc]; rfl

theorem compact_append (s t : List Char) : compact (s ++ t) = compact s ++ compact t :=
  List.filter_append ..

/-- Between tokens there are only blanks. -/
theorem compact_flatMap_text (p : Nat) (s : List Char) :
    compact ((Scan.tokensFrom p s).flatMap (·.text)) = compact s := by
  fun_induction Scan.tokensFrom p s with
  | case1 p => rfl
  | case2 p c rest hblank ih =>
      rw [ih, compact, compact, List.filter_cons_of_neg (by simp [hblank])]
  | case3 p c rest hblank kind more hlex ih =>
      rw [List.flatMap_cons, compact_append, ih, ← compact_append, List.cons_append,
        List.take_append_drop]

section Runs

variable {line : List Char} {run : List Token}

theorem compact_rawSlice (hrun : run <:+: tokenize line) :
    compact (rawSlice line run) = compact (run.flatMap (·.text)) := by
  by_cases hne : run = []
  · rw [hne]
    rfl
  · obtain ⟨before, after, h⟩ := hrun
    obtain ⟨⟨a, b, -, htokens⟩, -⟩ := partOf_rawSlice h.symm hne
    have htext := compact_flatMap_text 0 (rawSlice line run)
    rw [← htext]
    generalize rawSlice line run = e at htokens
    rw [htokens, flatMap_text_moved, tokenize]

/-- Each token begins where the one before it ends. -/
def Touching (ts : List Token) : Prop := ts.IsChain fun t u => t.stop = u.position

theorem drop_take_append {a b n : Nat} (hab : a ≤ b) (hbn : b ≤ n) (hb : b ≤ line.length) :
    (line.take n).drop a = (line.take b).drop a ++ (line.take n).drop b := by
  have hlength : a ≤ (line.take b).length := by rw [List.length_take_of_le hb]; exact hab
  rw [← List.drop_append_of_le_length hlength]
  congr 1
  conv_lhs => rw [← List.take_append_drop b (line.take n), List.take_take, Nat.min_eq_left hbn]

theorem rawSlice_singleton {t : Token} (ht : t ∈ tokenize line) : rawSlice line [t] = t.text := by
  have htext := Scan.take_drop_of_mem ht
  have hlength : t.stop - t.position = t.text.length := Nat.add_sub_cancel_left _ _
  rw [rawSlice, List.head?_cons, List.getLast?_singleton]
  dsimp only
  rwa [List.drop_take, hlength, ← Nat.sub_zero t.position]

theorem gap_bounds {t u : Token} {rest : List Token} (h : t :: u :: rest <:+: tokenize line) :
    t.stop ≤ u.position ∧ u.position ≤ line.length := by
  have hsorted := (Scan.tokensFrom_pairwise_stop 0 line).sublist h.sublist
  have hu : u ∈ tokenize line := h.subset (List.mem_cons_of_mem _ List.mem_cons_self)
  have hstop := Scan.stop_le_of_mem hu
  rw [Token.stop] at hstop
  exact ⟨List.rel_of_pairwise_cons hsorted List.mem_cons_self, by omega⟩

theorem position_le_stop_of_getLast? {u v : Token} {rest : List Token}
    (h : u :: rest <:+: tokenize line) (hlast : (u :: rest).getLast? = some v) :
    u.position ≤ v.stop := by
  have hstop : ∀ t : Token, t.position ≤ t.stop := fun t => Nat.le_add_right _ _
  rcases List.mem_cons.mp (List.mem_of_getLast? hlast) with rfl | hrest
  · exact hstop v
  · have hsorted := (Scan.tokensFrom_pairwise_stop 0 line).sublist h.sublist
    have hle := List.rel_of_pairwise_cons hsorted hrest
    exact (hstop u).trans (hle.trans (hstop v))

theorem rawSlice_cons_cons {t u : Token} {rest : List Token}
    (h : t :: u :: rest <:+: tokenize line) :
    rawSlice line (t :: u :: rest) =
      t.text ++ ((line.take u.position).drop t.stop ++ rawSlice line (u :: rest)) := by
  obtain ⟨v, hlast⟩ : ∃ v, (u :: rest).getLast? = some v :=
    ⟨_, List.getLast?_eq_some_getLast (List.cons_ne_nil _ _)⟩
  have ht : t ∈ tokenize line := h.subset List.mem_cons_self
  obtain ⟨hgap, hu⟩ := gap_bounds h
  have hv := position_le_stop_of_getLast? ((List.suffix_cons t _).isInfix.trans h) hlast
  rw [rawSlice, List.head?_cons, List.getLast?_cons_cons, hlast, rawSlice, List.head?_cons, hlast]
  dsimp only
  rw [drop_take_append (b := t.stop) (Nat.le_add_right _ _) (hgap.trans hv) (hgap.trans hu),
    drop_take_append (b := u.position) hgap hv hu]
  congr 1
  rw [← rawSlice_singleton ht, rawSlice, List.head?_cons, List.getLast?_singleton]

/-- A slice writes its tokens without anything between them exactly if
they touch. -/
theorem rawSlice_eq_iff (hrun : run <:+: tokenize line)
    (hvisible : ∀ c ∈ run.flatMap (·.text), isBlank c = false) :
    rawSlice line run = run.flatMap (·.text) ↔ Touching run := by
  induction run with
  | nil => exact iff_of_true rfl List.isChain_nil
  | cons t rest ih =>
      cases rest with
      | nil =>
          refine iff_of_true ?_ (List.isChain_singleton t)
          rw [rawSlice_singleton (hrun.subset List.mem_cons_self), List.flatMap_singleton]
      | cons u rest =>
          have hrest : u :: rest <:+: tokenize line := (List.suffix_cons t _).isInfix.trans hrun
          rw [List.flatMap_cons] at hvisible
          have hvisible' := (List.forall_mem_append.mp hvisible).2
          obtain ⟨hgap, hu⟩ := gap_bounds hrun
          rw [rawSlice_cons_cons hrun, List.flatMap_cons, List.append_cancel_left_eq, Touching,
            List.isChain_cons_cons, ← Touching, ← ih hrest hvisible']
          constructor
          · intro heq
            -- The tokens behind the gap are as long as the slice without blanks.
            have hle : ((u :: rest).flatMap (·.text)).length ≤
                (rawSlice line (u :: rest)).length := by
              rw [← compact_eq_self hvisible', ← compact_rawSlice hrest]
              exact List.length_filter_le _ _
            have hlength := congrArg List.length heq
            rw [List.length_append, List.length_drop, List.length_take_of_le hu] at hlength
            have htouch : t.stop = u.position := by omega
            rw [htouch, List.drop_take_self, List.nil_append] at heq
            exact ⟨htouch, heq⟩
          · rintro ⟨htouch, heq⟩
            rw [htouch, List.drop_take_self, List.nil_append, heq]

/-- Visible tokens touch exactly if there is no blank in their slice. -/
theorem touching_iff (hrun : run <:+: tokenize line)
    (hvisible : ∀ c ∈ run.flatMap (·.text), isBlank c = false) :
    Touching run ↔ ∀ c ∈ rawSlice line run, isBlank c = false := by
  rw [← rawSlice_eq_iff hrun hvisible]
  constructor
  · intro heq
    rwa [heq]
  · intro hslice
    rw [← compact_eq_self hslice, compact_rawSlice hrun, compact_eq_self hvisible]

/-- The texts of tokens begin and end visibly. -/
theorem visible_ends_of_mem {t : Token} (ht : t ∈ tokenize line) :
    StartsVisibly t.text ∧ EndsVisibly t.text := by
  obtain ⟨before, after, h⟩ := List.append_of_mem ht
  have hrun : tokenize line = before ++ [t] ++ after := by
    rw [List.append_assoc, List.singleton_append, h]
  have hends := (partOf_rawSlice hrun (List.cons_ne_nil _ _)).2
  rwa [rawSlice_singleton ht] at hends

theorem visible_ends_rawSlice (hrun : run <:+: tokenize line) (hne : run ≠ []) :
    StartsVisibly (rawSlice line run) ∧ EndsVisibly (rawSlice line run) :=
  let ⟨_, _, h⟩ := hrun
  (partOf_rawSlice h.symm hne).2

theorem visible_ends_flatMap_text (hrun : run <:+: tokenize line) (hne : run ≠ []) :
    StartsVisibly (run.flatMap (·.text)) ∧ EndsVisibly (run.flatMap (·.text)) := by
  constructor
  · obtain ⟨t, rest, rfl⟩ := List.exists_cons_of_ne_nil hne
    exact (visible_ends_of_mem (hrun.subset List.mem_cons_self)).1.append _
  · obtain ⟨init, u, rfl⟩ := (List.eq_nil_or_concat' run).resolve_left hne
    rw [List.flatMap_append, List.flatMap_singleton]
    exact (visible_ends_of_mem (hrun.subset (by simp))).2.append _

end Runs

/-! ## Operands -/

/-- What a statement keeps of a number. -/
inductive Stored where
  | real (x : Float)
  | whole (n : Nat)

/-- The number is the value of the text. -/
def Stored.ReadFrom : Stored → List Char → Prop
  | .real x, s => readFloat? (String.ofList s) = some x
  | .whole n, s => readNatural? s = some n

theorem Stored.ReadFrom.ne_nil {v : Stored} {s : List Char} (h : v.ReadFrom s) : s ≠ [] := by
  rintro rfl
  cases v with
  | real x =>
      have hnone : (readFloat? (String.ofList [])).isSome = false := by decide +kernel
      have hread : readFloat? (String.ofList []) = some x := h
      rw [hread] at hnone
      cases hnone
  | whole n => cases h

theorem Stored.ReadFrom.visible {v : Stored} {s : List Char} (h : v.ReadFrom s)
    (hstart : StartsVisibly s) (hend : EndsVisibly s) : ∀ c ∈ s, isBlank c = false := by
  cases v with
  | real x =>
      have hvisible := visible_of_readFloat? h
      rwa [trim_eq_self hstart hend] at hvisible
  | whole n =>
      have hall := Statement.readNatural?_isSome (s := s) (h.ne_nil)
      have hread : readNatural? s = some n := h
      rw [hread, Option.isSome_some, eq_comm, List.all_eq_true] at hall
      exact fun c hc => isBlank_of_isDecimalDigit (hall c hc)

def Token.isSign (t : Token) : Bool := t.kind == .plus || t.kind == .minus

/-- The tokens behind the sign, if there is one. -/
def unsigned : List Token → List Token
  | [] => []
  | t :: rest => if t.isSign then rest else t :: rest

/-- The text of a number as it is written, but for blanks behind its
sign. -/
def literal (line : List Char) : List Token → List Char
  | [] => []
  | t :: rest => if t.isSign then t.text ++ rawSlice line rest else rawSlice line (t :: rest)

/-- The number that was read from a run of tokens: the value of its slice
without blanks. It is the value of what is written exactly if the tokens
behind the sign touch. -/
structure Operand (line : List Char) (run : List Token) (v : Stored) : Prop where
  part : run <:+: tokenize line
  nonempty : run ≠ []
  value : v.ReadFrom (compact (rawSlice line run))
  touching_iff_visible :
    Touching (unsigned run) ↔ ∀ c ∈ rawSlice line (unsigned run), isBlank c = false
  touching_iff_literal : Touching (unsigned run) ↔ v.ReadFrom (literal line run)

section Operands

variable {line : List Char} {run : List Token} {v : Stored}

/-- What stands behind a sign, or at the beginning, touches exactly if it is
read as it is written. -/
theorem touching_iff_readFrom {sign : List Char} (hrun : run <:+: tokenize line)
    (hvisible : ∀ c ∈ run.flatMap (·.text), isBlank c = false)
    (hread : v.ReadFrom (sign ++ run.flatMap (·.text)))
    (hends : StartsVisibly (sign ++ rawSlice line run) ∧ EndsVisibly (sign ++ rawSlice line run)) :
    Touching run ↔ v.ReadFrom (sign ++ rawSlice line run) := by
  constructor
  · intro htouch
    rwa [(rawSlice_eq_iff hrun hvisible).mpr htouch]
  · intro hwritten
    have hall := hwritten.visible hends.1 hends.2
    exact (touching_iff hrun hvisible).mpr (List.forall_mem_append.mp hall).2

/-- The tokens of a number touch behind its sign exactly if there is no
blank, and exactly if it is read as it is written. -/
theorem Operand.of_readFrom (hrun : run <:+: tokenize line)
    (hread : v.ReadFrom (run.flatMap (·.text))) : Operand line run v := by
  obtain ⟨t, rest, rfl⟩ : ∃ t rest, run = t :: rest :=
    List.exists_cons_of_ne_nil fun hnil => hread.ne_nil (by rw [hnil]; rfl)
  have hne : t :: rest ≠ [] := List.cons_ne_nil _ _
  obtain ⟨hstart, hend⟩ := visible_ends_flatMap_text hrun hne
  have hvisible := hread.visible hstart hend
  have hrest : rest <:+: tokenize line := (List.suffix_cons t _).isInfix.trans hrun
  have hvisible' : ∀ c ∈ rest.flatMap (·.text), isBlank c = false :=
    (List.forall_mem_append.mp (List.flatMap_cons ▸ hvisible)).2
  have hsigned : StartsVisibly (t.text ++ rawSlice line rest) ∧
      EndsVisibly (t.text ++ rawSlice line rest) := by
    have ht := visible_ends_of_mem (hrun.subset List.mem_cons_self)
    refine ⟨ht.1.append _, ?_⟩
    by_cases hnil : rest = []
    · rw [hnil, rawSlice, List.head?_nil, List.append_nil]
      exact ht.2
    · exact (visible_ends_rawSlice hrest hnil).2.append _
  refine ⟨hrun, hne, ?_, ?_, ?_⟩
  · rwa [compact_rawSlice hrun, compact_eq_self hvisible]
  · rw [unsigned]
    split
    · exact touching_iff hrest hvisible'
    · exact touching_iff hrun hvisible
  · rw [unsigned, literal]
    split
    · exact touching_iff_readFrom hrest hvisible' (List.flatMap_cons ▸ hread) hsigned
    · exact @touching_iff_readFrom _ _ _ [] hrun hvisible hread (visible_ends_rawSlice hrun hne)

end Operands

/-! ## Statements with numbers -/

theorem isInfix_of_mem_splitFrom (separator : Kind) (depth : Int) (ts : List Token) :
    (∃ g gs, splitFrom separator depth ts = g :: gs ∧ g <+: ts) ∧
      ∀ g ∈ splitFrom separator depth ts, g <:+: ts := by
  induction ts generalizing depth with
  | nil =>
      refine ⟨⟨[], [], rfl, List.prefix_rfl⟩, fun g hg => ?_⟩
      rw [List.mem_singleton.mp hg]
  | cons t ts ih =>
      obtain ⟨⟨g, gs, hsplit, hbegin⟩, hparts⟩ := ih (depthAfter depth t)
      rw [splitFrom]
      split
      · refine ⟨⟨[], _, rfl, List.nil_prefix⟩, fun k hk => ?_⟩
        rcases List.mem_cons.mp hk with rfl | hk
        · exact List.nil_infix
        · exact List.infix_cons (hparts k hk)
      · rw [hsplit] at hparts ⊢
        have hfirst : t :: g <+: t :: ts := List.cons_prefix_cons.mpr ⟨rfl, hbegin⟩
        refine ⟨⟨t :: g, gs, rfl, hfirst⟩, fun k hk => ?_⟩
        rcases List.mem_cons.mp hk with rfl | hk
        · exact hfirst.isInfix
        · exact List.infix_cons (hparts k (List.mem_cons_of_mem _ hk))

namespace Statement

/-- Where a statement wants numbers, and the numbers that it has. -/
def operands (ts : List Token) : StatementBody → List (List Token) × List Stored
  | .range _ low high =>
    match findTopLevel ts "TO" 3 with
    | some i => ([between ts 3 i, ts.drop (i + 1)], [.real low, .real high])
    | none => ([], [.real low, .real high])
  | .particles n => ([ts.drop 1], [.whole n])
  | .contour levels => ((splitTopLevel (ts.drop 2)).filter (!·.isEmpty), levels.map .real)
  | .vectorField _ n => if ts.length ≤ 2 then ([], []) else ([ts.drop 3], [.whole n])
  | _ => ([], [])

/-- Each number of a statement was read where one is wanted. -/
def OperandsRead (line : List Char) (body : StatementBody) : Prop :=
  List.Forall₂ (Operand line) (operands (tokenize line) body).1 (operands (tokenize line) body).2

variable {l : LogicalLine} {run : List Token}

theorem operand_of_number {context : String} {x : Float} (hrun : run <:+: tokenize l.text)
    (h : number l context run = .ok x) : Operand l.text run (.real x) := by
  refine Operand.of_readFrom hrun ?_
  unfold number at h
  dsimp only at h
  split at h
  · rename_i y hread
    split at h
    · rw [← Except.ok.inj h]
      exact hread
    · cases h
  · cases h

theorem operand_of_wholeNumber {n : Nat} (hrun : run <:+: tokenize l.text)
    (h : wholeNumber run = .ok (some n)) : Operand l.text run (.whole n) := by
  refine Operand.of_readFrom hrun ?_
  unfold wholeNumber at h
  dsimp only at h
  split at h
  · cases h
  · split at h
    · cases h
    · split at h
      · rename_i m hread
        obtain rfl := Option.some.inj (Except.ok.inj h)
        exact hread
      · cases h

theorem operands_of_mapM_number {context : String} {groups : List (List Token)} {xs : List Float}
    (hgroups : ∀ g ∈ groups, g <:+: tokenize l.text) (h : groups.mapM (number l context) = .ok xs) :
    List.Forall₂ (Operand l.text) groups (xs.map .real) := by
  induction groups generalizing xs with
  | nil =>
      obtain rfl := Except.ok.inj h
      exact .nil
  | cons g groups ih =>
      obtain ⟨hg, hgroups⟩ := List.forall_mem_cons.mp hgroups
      obtain ⟨x, xs, hx, hxs, rfl⟩ := mapM_cons_eq_ok.mp h
      exact .cons (operand_of_number hg hx) (ih hgroups hxs)

/-- Each number of a line that is read was read from its tokens without
the blanks between them. It is the value of the number that is written if
and only if these touch behind the sign. -/
theorem operandsRead_of_parse {s : Statement} (h : parse l = .ok s) :
    OperandsRead l.text s.body := by
  refine body_of_parse h fun word read hread => ?_
  have hdrop : ∀ n, (tokenize l.text).drop n <:+: tokenize l.text := fun n =>
    (List.drop_suffix n _).isInfix
  unfold reader? at hread
  split at hread <;> cases hread
  · refine yields_readRange fun axis i low high hto hlow hhigh => ?_
    have htake : (tokenize l.text).take i <:+: tokenize l.text :=
      ⟨[], _, List.take_append_drop i _⟩
    have hbetween : between (tokenize l.text) 3 i <:+: tokenize l.text :=
      (List.drop_suffix _ _).isInfix.trans htake
    rw [OperandsRead, operands, hto]
    exact .cons (operand_of_number hbetween hlow) (.cons (operand_of_number (hdrop _) hhigh) .nil)
  · exact yields_readColorMap fun _ => .nil
  · exact yields_readParticles fun n hn => .cons (operand_of_wholeNumber (hdrop 1) hn) .nil
  · refine yields_readContour fun levels hlevels => operands_of_mapM_number (fun g hg => ?_) hlevels
    exact ((isInfix_of_mem_splitFrom _ _ _).2 g (List.mem_filter.mp hg).1).trans (hdrop 2)
  · exact yields_readLabel fun _ _ => .nil
  · exact yields_readDefinition fun _ _ _ _ => .nil
  · exact yields_readSurface fun _ => .nil
  · refine yields_readVectorField (fun name hshort => ?_) fun name n hlong hn => ?_
    · rw [OperandsRead, operands, if_pos hshort]
      exact .nil
    · rw [OperandsRead, operands, if_neg (Nat.not_le_of_lt hlong)]
      exact .cons (operand_of_wholeNumber (hdrop 3) hn) .nil
  · exact yields_readTensorField fun _ _ => .nil
  · exact yields_readAnimation fun _ _ _ _ => .nil

/-- Lines that ask for particles are read by evaluation. -/
theorem parse_eq_particles {n count : Nat}
    (h : (match parse l with
      | .ok ⟨line, .particles m⟩ => line == n && m == count
      | _ => false) = true) : parse l = .ok ⟨n, .particles count⟩ := by
  split at h
  · rename_i hread
    simp only [Bool.and_eq_true, beq_iff_eq] at h
    obtain ⟨rfl, rfl⟩ := h
    exact hread
  · cases h

theorem operandsRead_of_parse_particles :
    parse ⟨"PARTICLES 12".toList, 1⟩ = .ok ⟨1, .particles 12⟩ ∧
    OperandsRead "PARTICLES 12".toList (.particles 12) :=
  have hread := parse_eq_particles (by decide +kernel)
  ⟨hread, operandsRead_of_parse hread⟩

/-- Two numbers where one is wanted are put together. -/
theorem not_touching_particles :
    parse ⟨"PARTICLES 1 2".toList, 1⟩ = .ok ⟨1, .particles 12⟩ ∧
    (operands (tokenize "PARTICLES 1 2".toList) (.particles 12)) =
      ([[⟨.number, ['1'], 10⟩, ⟨.number, ['2'], 12⟩]], [.whole 12]) ∧
    ¬ Touching (unsigned [⟨.number, ['1'], 10⟩, ⟨.number, ['2'], 12⟩]) ∧
    ¬ (Stored.whole 12).ReadFrom
      (literal "PARTICLES 1 2".toList [⟨.number, ['1'], 10⟩, ⟨.number, ['2'], 12⟩]) := by
  refine ⟨parse_eq_particles (by decide +kernel), ?_, ?_, ?_⟩
  · have hrun : (tokenize "PARTICLES 1 2".toList).drop 1 =
        [⟨.number, ['1'], 10⟩, ⟨.number, ['2'], 12⟩] := by
      decide +kernel
    rw [operands, hrun]
  · simp [unsigned, Token.isSign, Touching, Token.stop]
  · have hnone : readNatural? (literal "PARTICLES 1 2".toList
        [⟨.number, ['1'], 10⟩, ⟨.number, ['2'], 12⟩]) ≠ some 12 := by
      decide +kernel
    exact hnone

end Statement
end FieldScript
