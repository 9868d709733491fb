import FieldScript.Proofs.FloatOrder
import FieldScript.Proofs.TokenPositions

/-!
# What the readers of statements answer

A reader answers with a statement that is in order by itself
(`StatementBody.Valid`) or with a fault of its line. `Answers` says so
for any step of a reader, and `Answers.bind` puts the steps together; no
reader looks at the position of its line, so this is all that the
statements of a source have in common.

There is one exception, and `Answers` carries its condition: the numeral
of a count is taken for one as soon as its characters are digits in form,
and then it may be too long to be read or hold a digit without a value
(`UnreadableCount`). Such a numeral is no fault of the line but a bare
`Failure.invalidValue`.
-/

namespace FieldScript

/-- A fault in the statement on line `n`. -/
def Failure.OnLine (n : Nat) (f : Failure) : Prop :=
  ∃ fault text, f = .statement n fault text

/-- What a statement guarantees by itself. -/
def StatementBody.Valid : StatementBody → Prop
  | .range _ low high => low.isFinite ∧ high.isFinite ∧ low < high
  | .particles n => 1 ≤ n ∧ n ≤ maxParticles
  | .contour ls => ls ≠ [] ∧ ∀ x ∈ ls, x.isFinite
  | .label text (x, y, z) => text ≠ "" ∧ x ≠ "" ∧ y ≠ "" ∧ z ≠ ""
  | .define _ params _ => params.Nodup
  | .vectorField _ gridSize => 2 ≤ gridSize ∧ gridSize ≤ maxGridSize
  | _ => True

namespace Statement

/-! ## Numerals of counts -/

/-- Digits in form that no number is read from. -/
def Unreadable (s : List Char) : Prop :=
  s ≠ [] ∧ (∀ c ∈ s, isDigitForm c) ∧
    (maxNumeralLength < s.length ∨ ∃ c ∈ s, isDecimalDigit c = false)

/-- The text of the numeral in a statement that has a count. -/
inductive CountText : List Token → List Char → Prop
  | particles {t : Token} {rest : List Token} (ht : t.isWord ["PARTICLES"]) :
      CountText (t :: rest) (rest.flatMap (·.text))
  | grid {t name g : Token} {rest : List Token} (ht : t.isWord ["PLOT_VECFIELD"])
      (hkind : name.kind = .ident) (hname : (upperName name.value).startsWith "VEC_")
      (hg : g.isWord ["GRID"]) : CountText (t :: name :: g :: rest) (rest.flatMap (·.text))

/-- The line has a count that no number is read from. -/
def UnreadableCount (l : LogicalLine) : Prop :=
  ∃ s, CountText (tokenize l.text) s ∧ Unreadable s

theorem foldlM_digits_isSome (s : List Char) (n : Nat) :
    (s.foldlM (fun n c => (digitValue? c).map (10 * n + ·)) n).isSome = s.all isDecimalDigit := by
  induction s generalizing n with
  | nil => rfl
  | cons c rest ih =>
      rw [List.foldlM_cons, List.all_cons, isDecimalDigit]
      cases digitValue? c with
      | none => rfl
      | some d => exact ih _

theorem readNatural?_isSome {s : List Char} (h : s ≠ []) :
    (readNatural? s).isSome = s.all isDecimalDigit := by
  rw [readNatural?, if_neg (by simpa using h)]
  exact foldlM_digits_isSome s 0

/-- A count is read, is not written in digits, or is unreadable. -/
theorem wholeNumber_error_iff {ts : List Token} {f : Failure} :
    wholeNumber ts = .error f ↔ f = .invalidValue ∧ Unreadable (ts.flatMap (·.text)) := by
  unfold wholeNumber
  dsimp only
  generalize ts.flatMap (·.text) = s
  rw [Unreadable]
  split
  · rename_i hform
    refine ⟨fun h => (by cases h), fun ⟨_, hne, hall, _⟩ => ?_⟩
    rcases Bool.or_eq_true_iff.mp hform with hempty | hnot
    · exact absurd (List.isEmpty_iff.mp hempty) hne
    · rw [List.all_eq_true.mpr hall] at hnot
      cases hnot
  · rename_i hform
    have hform' : s ≠ [] ∧ ∀ c ∈ s, isDigitForm c := by simpa using hform
    obtain ⟨hne, hall⟩ := hform'
    have hsome := readNatural?_isSome hne
    split
    · rename_i hlong
      exact ⟨fun h => ⟨(Except.error.inj h).symm, hne, hall, Or.inl hlong⟩, fun ⟨h, _⟩ => h ▸ rfl⟩
    · rename_i hshort
      split
      · rename_i n hread
        rw [hread, Option.isSome_some, eq_comm, List.all_eq_true] at hsome
        refine ⟨fun h => (by cases h), fun ⟨_, _, _, hbad⟩ => ?_⟩
        rcases hbad with hlong | ⟨c, hc, hdigit⟩
        · exact absurd hlong hshort
        · rw [hsome c hc] at hdigit
          cases hdigit
      · rename_i hread
        rw [hread, Option.isSome_none, eq_comm, List.all_eq_false] at hsome
        obtain ⟨c, hc, hdigit⟩ := hsome
        exact ⟨fun h => ⟨(Except.error.inj h).symm, hne, hall,
            Or.inr ⟨c, hc, by simpa using hdigit⟩⟩,
          fun ⟨h, _⟩ => h ▸ rfl⟩

/-! ## Answers -/

section Answers

variable {α β : Type} {l : LogicalLine} {E : Prop} {Q : α → Prop}

/-- How a step of the reader of a line ends: with a value that has the
property `Q`, with a fault of the line, or with the failure of a numeral,
and then `E` holds. -/
inductive Answers (l : LogicalLine) (E : Prop) (Q : α → Prop) : Except Failure α → Prop
  | value {a : α} (h : Q a) : Answers l E Q (.ok a)
  | fault {f : Failure} (h : f.OnLine l.line) : Answers l E Q (.error f)
  | numeral (h : E) : Answers l E Q (.error .invalidValue)

theorem Answers.bind {r : Except Failure α} {k : α → Except Failure β} {R : β → Prop}
    (hr : Answers l E Q r) (hk : ∀ a, Q a → Answers l E R (k a)) : Answers l E R (r >>= k) := by
  cases hr with
  | value h => exact hk _ h
  | fault h => exact .fault h
  | numeral h => exact .numeral h

theorem Answers.map {r : Except Failure α} {f : α → β} {R : β → Prop}
    (hr : Answers l E Q r) (hf : ∀ a, Q a → R (f a)) : Answers l E R (r.map f) := by
  cases hr with
  | value h => exact .value (hf _ h)
  | fault h => exact .fault h
  | numeral h => exact .numeral h

theorem answers_fail (fault : StatementFault) : Answers l E Q (fail l fault) :=
  .fault ⟨fault, _, rfl⟩

theorem answers_fail_bind (fault : StatementFault) (k : β → Except Failure α) :
    Answers l E Q (fail l fault >>= k) :=
  .fault ⟨fault, _, rfl⟩

theorem answers_pure {a : α} (h : Q a) : Answers l E Q (pure a) := .value h

/-- A check that ends the reader when it fails. -/
theorem answers_unless {c : Prop} [Decidable c] {fault : StatementFault}
    {k : Unit → Except Failure α} (h : ¬ c → Answers l E Q (k ())) :
    Answers l E Q (if c then fail l fault >>= k else k ()) := by
  split
  · exact answers_fail_bind fault k
  · exact h ‹_›

theorem answers_expect (kind : Kind) (wanted : String) (ts : List Token) :
    Answers l E (fun p => ts = p.1 :: p.2 ∧ p.1.kind = kind) (expect l kind wanted ts) := by
  cases ts with
  | nil => exact answers_fail _
  | cons t rest =>
      rw [expect]
      split
      · rename_i hkind
        exact .value ⟨rfl, by simpa using hkind⟩
      · exact answers_fail _

theorem answers_expectWord (words : List String) (ts : List Token) :
    Answers l E (fun rest => ∃ t, ts = t :: rest ∧ t.isWord words) (expectWord l words ts) := by
  cases ts with
  | nil => exact answers_fail _
  | cons t rest =>
      rw [expectWord]
      split
      · rename_i hword
        exact .value ⟨t, rfl, hword⟩
      · exact answers_fail _

theorem answers_expectEnd (ts : List Token) :
    Answers l E (fun _ => True) (expectEnd l ts) := by
  cases ts with
  | nil => exact .value trivial
  | cons t rest => exact answers_fail _

theorem answers_number (context : String) (ts : List Token) :
    Answers l E (fun x => x.isFinite = true) (number l context ts) := by
  unfold number
  dsimp only
  split
  · split
    · rename_i hfinite
      exact .value hfinite
    · exact answers_fail _
  · exact answers_fail _

theorem answers_wholeNumber (ts : List Token) (hE : Unreadable (ts.flatMap (·.text)) → E) :
    Answers l E (fun _ => True) (wholeNumber ts) := by
  cases h : wholeNumber ts with
  | ok a => exact .value trivial
  | error f =>
      obtain ⟨rfl, hs⟩ := wholeNumber_error_iff.mp h
      exact .numeral (hE hs)

theorem answers_mapM {f : α → Except Failure β} {R : β → Prop} (h : ∀ a, Answers l E R (f a))
    (as : List α) :
    Answers l E (fun bs => bs.length = as.length ∧ ∀ b ∈ bs, R b) (as.mapM f) := by
  induction as with
  | nil => exact .value ⟨rfl, fun _ hb => (by cases hb)⟩
  | cons a rest ih =>
      rw [List.mapM_cons]
      refine (h a).bind fun b hb => ih.bind fun bs ⟨hlen, hbs⟩ => answers_pure ⟨?_, ?_⟩
      · rw [List.length_cons, List.length_cons, hlen]
      · intro x hx
        rcases List.mem_cons.mp hx with rfl | hrest
        · exact hb
        · exact hbs x hrest

end Answers

/-! ## The readers -/

section Readers

variable {l : LogicalLine} {E : Prop}

theorem answers_readRange (ts : List Token) :
    Answers l E StatementBody.Valid (readRange l ts) := by
  unfold readRange
  refine (answers_expectWord _ ts).bind fun rest _ => ?_
  refine (answers_expectWord _ rest).bind fun rest _ => ?_
  refine (answers_expect _ _ rest).bind fun ⟨name, _⟩ _ => ?_
  dsimp only
  split
  case h_4 => exact answers_fail_bind _ _
  -- Whatever the axis, the bounds are read in the same way.
  all_goals
    refine Answers.bind (Q := fun _ => True) (answers_pure trivial) fun axis _ => ?_
    split
    · exact answers_fail _
    · refine (answers_number _ _).bind fun low hlow => ?_
      refine (answers_number _ _).bind fun high hhigh => ?_
      refine answers_unless fun hle => answers_pure ⟨hlow, hhigh, ?_⟩
      exact Binary64.lt_of_not_le (Binary64.isNumber_of_isFinite hlow)
        (Binary64.isNumber_of_isFinite hhigh) hle

theorem answers_readColorMap (ts : List Token) :
    Answers l E StatementBody.Valid (readColorMap l ts) := by
  unfold readColorMap
  refine (answers_expectWord _ ts).bind fun rest _ => ?_
  refine (answers_expectWord _ rest).bind fun rest _ => ?_
  refine (answers_expect _ _ rest).bind fun ⟨token, rest⟩ _ => ?_
  refine (answers_expectEnd _).bind fun _ _ => ?_
  exact answers_unless fun _ => answers_pure trivial

theorem answers_readParticles (ts : List Token)
    (hE : ∀ s, CountText ts s → Unreadable s → E) :
    Answers l E StatementBody.Valid (readParticles l ts) := by
  unfold readParticles
  refine (answers_expectWord _ ts).bind fun rest ⟨t, hts, ht⟩ => ?_
  refine (answers_wholeNumber rest (hE _ (hts ▸ .particles ht))).bind fun n? _ => ?_
  cases n? with
  | none => exact answers_fail _
  | some n =>
      refine answers_unless fun hzero => answers_unless fun hlarge => answers_pure ⟨?_, ?_⟩
      · rw [beq_iff_eq] at hzero
        omega
      · omega

theorem answers_readContour (ts : List Token) :
    Answers l E StatementBody.Valid (readContour l ts) := by
  unfold readContour
  refine (answers_expectWord _ ts).bind fun rest _ => ?_
  refine (answers_expectWord _ rest).bind fun rest _ => ?_
  refine answers_unless fun hgroups => ?_
  refine (answers_mapM (answers_number _) _).bind fun ls ⟨hlen, hfinite⟩ => ?_
  refine answers_pure ⟨?_, hfinite⟩
  intro hnil
  rw [hnil, List.length_nil, eq_comm, List.length_eq_zero_iff] at hlen
  exact hgroups (List.isEmpty_iff.mpr hlen)

/-- The index of a word lies between the start of the search and the end
of the tokens. -/
theorem findLastTopLevel_bounds {ts : List Token} {word : String} {start i : Nat}
    (h : findLastTopLevel ts word start = some i) : start ≤ i ∧ i < ts.length := by
  have hfold : ∀ (is : List Nat) (last : Option Nat), (∀ j ∈ is, j < ts.length) →
      (∀ j, last = some j → start ≤ j ∧ j < ts.length) →
      ∀ j, is.foldl (fun last i =>
          if start ≤ i && findTopLevel ts word i == some i then some i else last) last = some j →
        start ≤ j ∧ j < ts.length := by
    intro is
    induction is with
    | nil => exact fun last _ hlast j hj => hlast j hj
    | cons k rest ih =>
        intro last hmem hlast
        refine ih _ (fun j hj => hmem j (List.mem_cons_of_mem _ hj)) ?_
        intro j hj
        dsimp only at hj
        split at hj
        · rename_i hcond
          obtain rfl := Option.some.inj hj
          rw [Bool.and_eq_true, decide_eq_true_eq] at hcond
          exact ⟨hcond.1, hmem k List.mem_cons_self⟩
        · exact hlast j hj
  exact hfold _ none (fun j hj => List.mem_range.mp hj) (fun j hj => by cases hj) i h

theorem answers_readLabel :
    Answers l E StatementBody.Valid (readLabel l (tokenize l.text)) := by
  unfold readLabel
  refine (answers_expectWord _ _).bind fun _ _ => ?_
  split
  · exact answers_fail _
  · rename_i i hat
    obtain ⟨hstart, hend⟩ := findLastTopLevel_bounds hat
    refine answers_unless fun hi => ?_
    rw [beq_iff_eq] at hi
    split
    · rename_i x y z hgroups
      refine answers_unless fun hempty => answers_pure ?_
      simp only [Bool.or_eq_true, List.isEmpty_iff, not_or] at hempty
      obtain ⟨⟨hx, hy⟩, hz⟩ := hempty
      have hgroup : ∀ g ∈ [x, y, z], g.Sublist (tokenize l.text) := by
        intro g hg
        rw [← hgroups] at hg
        exact (sublist_of_mem_splitTopLevel hg).trans (List.drop_sublist _ _)
      have htext : between (tokenize l.text) 1 i ≠ [] := by
        intro hnil
        have hlen := congrArg List.length hnil
        rw [between, List.length_drop, List.length_take, List.length_nil] at hlen
        omega
      exact ⟨textOf_ne_empty (between_sublist _ _ _) htext,
        textOf_ne_empty (hgroup x (by simp)) hx, textOf_ne_empty (hgroup y (by simp)) hy,
        textOf_ne_empty (hgroup z (by simp)) hz⟩
    · exact answers_fail _

theorem answers_readParams (fuel : Nat) (ts : List Token) :
    Answers l E (fun _ => True) (readParams l fuel ts) := by
  induction fuel generalizing ts with
  | zero => exact .value trivial
  | succ n ih =>
      rw [readParams]
      refine (answers_expect _ _ ts).bind fun ⟨p, rest⟩ _ => ?_
      dsimp only
      split
      · split
        · exact (ih _).bind fun _ _ => answers_pure trivial
        · split
          · exact answers_pure trivial
          · exact answers_fail _
      · exact answers_fail _

theorem answers_readParamList (ts : List Token) :
    Answers l E (fun _ => True) (readParamList l ts) := by
  have hmap : ∀ fuel rest, Answers l E (fun _ => True)
      ((readParams l fuel rest).map fun r => (some r.1, r.2)) :=
    fun fuel rest => (answers_readParams fuel rest).map fun _ _ => trivial
  unfold readParamList
  split
  · split
    · split
      · split
        · exact .value trivial
        · exact hmap _ _
      · exact hmap _ _
    · exact .value trivial
  · exact .value trivial

theorem answers_checkVectorBody (ts : List Token) :
    Answers l E (fun _ => True) (checkVectorBody l ts) := by
  unfold checkVectorBody
  refine answers_unless fun _ => answers_unless fun _ => ?_
  split
  · exact answers_fail _
  · exact answers_pure trivial

theorem answers_checkTensorBody (ts : List Token) :
    Answers l E (fun _ => True) (checkTensorBody l ts) := by
  unfold checkTensorBody
  refine answers_unless fun _ => answers_unless fun _ => ?_
  refine Answers.bind (Q := fun _ => True) ?_ fun _ _ => answers_pure trivial
  generalize splitTopLevel (inner ts) = rows
  induction rows with
  | nil => exact answers_pure trivial
  | cons row rest ih =>
      rw [List.forIn_cons]
      dsimp only
      split
      · exact answers_fail _
      · exact ih

/-- No name stands twice among parameters of which none is repeated. -/
theorem nodup_of_repeated_nil {params : List String}
    (h : (params.filter fun p => params.count p > 1).mergeSort (· ≤ ·) = []) : params.Nodup := by
  have hlength := congrArg List.length h
  rw [List.length_mergeSort, List.length_nil, List.length_eq_zero_iff, List.filter_eq_nil_iff]
    at hlength
  refine List.nodup_iff_count.mpr fun p => ?_
  by_cases hp : p ∈ params
  · simpa using hlength p hp
  · rw [List.count_eq_zero_of_not_mem hp]
    exact Nat.zero_le 1

theorem answers_readDefinition (ts : List Token) :
    Answers l E StatementBody.Valid (readDefinition l ts) := by
  unfold readDefinition
  refine (answers_expectWord _ ts).bind fun rest _ => ?_
  refine (answers_expect _ _ rest).bind fun ⟨token, rest⟩ _ => ?_
  refine (answers_readParamList _).bind fun ⟨params?, rest⟩ _ => ?_
  dsimp only
  split
  · exact answers_fail_bind _ _
  · rename_i hnone
    have hparams := nodup_of_repeated_nil hnone
    generalize params?.getD [] = params at hparams
    refine (answers_expect _ _ _).bind fun ⟨_, bodyTokens⟩ _ => ?_
    have hbody : ∀ name body, Answers l E StatementBody.Valid (
        if (upperName token.value).startsWith "VEC_" = true then do
          let _ ← checkVectorBody l bodyTokens
          pure (.define name params body)
        else if (upperName token.value).startsWith "TENSOR_" = true then do
          let _ ← checkTensorBody l bodyTokens
          pure (.define name params body)
        else if (!properlyNested bodyTokens) = true then do
          let _ ← fail (α := Unit) l (StatementFault.unbalanced token.value)
          pure (.define name params body)
        else pure (.define name params body)) := by
      intro name body
      split
      · exact (answers_checkVectorBody _).bind fun _ _ => answers_pure hparams
      · split
        · exact (answers_checkTensorBody _).bind fun _ _ => answers_pure hparams
        · exact answers_unless fun _ => answers_pure hparams
    dsimp only
    split
    · exact answers_unless fun _ => answers_unless fun _ => hbody _ _
    · exact answers_unless fun _ => answers_unless fun _ => hbody _ _

theorem answers_readSurface (ts : List Token) :
    Answers l E StatementBody.Valid (readSurface l ts) := by
  unfold readSurface
  refine (answers_expectWord _ ts).bind fun rest _ => ?_
  exact answers_unless fun _ => answers_pure trivial

theorem answers_readVectorField (ts : List Token)
    (hE : ∀ s, CountText ts s → Unreadable s → E) :
    Answers l E StatementBody.Valid (readVectorField l ts) := by
  unfold readVectorField
  refine (answers_expectWord _ ts).bind fun rest ⟨t, hts, ht⟩ => ?_
  refine (answers_expect _ _ rest).bind fun ⟨name, rest'⟩ ⟨hrest, hkind⟩ => ?_
  refine answers_unless fun hname => ?_
  cases rest' with
  | nil => exact answers_pure ⟨by decide, by decide⟩
  | cons g more =>
      dsimp only
      split
      · rename_i hg
        subst hts hrest
        have hcount : CountText (t :: name :: g :: more) (more.flatMap (·.text)) :=
          .grid ht hkind (by simpa using hname) hg
        refine (answers_wholeNumber more (hE _ hcount)).bind fun n? _ => ?_
        cases n? with
        | none => exact answers_fail _
        | some n =>
            refine answers_unless fun hsize => answers_pure ?_
            simp only [Bool.or_eq_true, decide_eq_true_eq, not_or] at hsize
            exact ⟨by omega, by omega⟩
      · exact answers_fail _

theorem answers_readTensorField (ts : List Token) :
    Answers l E StatementBody.Valid (readTensorField l ts) := by
  unfold readTensorField
  refine (answers_expectWord _ ts).bind fun rest _ => ?_
  refine (answers_expect _ _ rest).bind fun ⟨token, rest⟩ _ => ?_
  refine answers_unless fun _ => ?_
  refine (answers_expectWord _ _).bind fun rest _ => ?_
  refine (answers_expectWord _ rest).bind fun rest _ => ?_
  refine (answers_expect _ _ rest).bind fun ⟨quoted, rest⟩ _ => ?_
  refine (answers_expectEnd _).bind fun _ _ => ?_
  exact answers_unless fun _ => answers_pure trivial

theorem answers_readAnimation (ts : List Token) :
    Answers l E StatementBody.Valid (readAnimation l ts) := by
  unfold readAnimation
  refine (answers_expectWord _ ts).bind fun rest _ => ?_
  refine (answers_expect _ _ rest).bind fun ⟨parameter, _⟩ _ => ?_
  dsimp only
  split
  · exact answers_unless fun _ => answers_pure trivial
  · exact answers_fail _

end Readers

/-! ## A line as a whole -/

/-- A line is read as a valid statement, is at fault, or has an
unreadable count. -/
theorem answers_parse (l : LogicalLine) :
    Answers l (UnreadableCount l) (fun s => s.line = l.line ∧ s.body.Valid) (parse l) := by
  have hcount : ∀ s, CountText (tokenize l.text) s → Unreadable s → UnreadableCount l :=
    fun s hs hu => ⟨s, hs, hu⟩
  have hmap : ∀ r, Answers l (UnreadableCount l) StatementBody.Valid r →
      Answers l (UnreadableCount l) (fun s : Statement => s.line = l.line ∧ s.body.Valid)
        (r.map (⟨l.line, ·⟩)) :=
    fun r hr => hr.map fun _ hb => ⟨rfl, hb⟩
  unfold parse
  dsimp only
  split
  · rename_i read hread
    obtain ⟨t, -, hread⟩ := Option.bind_eq_some_iff.mp hread
    split at hread
    · refine hmap _ ?_
      unfold reader? at hread
      split at hread <;> cases hread
      · exact answers_readRange _
      · exact answers_readColorMap _
      · exact answers_readParticles _ hcount
      · exact answers_readContour _
      · exact answers_readLabel
      · exact answers_readDefinition _
      · exact answers_readSurface _
      · exact answers_readVectorField _ hcount
      · exact answers_readTensorField _
      · exact answers_readAnimation _
    · cases hread
  · exact answers_fail _

theorem valid_of_parse {l : LogicalLine} {s : Statement} (h : parse l = .ok s) :
    s.line = l.line ∧ s.body.Valid := by
  have hparse := answers_parse l
  rw [h] at hparse
  cases hparse with
  | value hs => exact hs

/-- A line that is no statement is at fault, unless a count in it is
unreadable. -/
theorem onLine_of_parse {l : LogicalLine} {f : Failure} (h : parse l = .error f)
    (hcount : ¬ UnreadableCount l) : f.OnLine l.line := by
  have hparse := answers_parse l
  rw [h] at hparse
  cases hparse with
  | fault hf => exact hf
  | numeral hl => exact absurd hl hcount

theorem isWord_singleton {t : Token} {word : String} :
    t.isWord [word] ↔ t.kind = .ident ∧ upperName t.value = word := by
  simp [Token.isWord]

theorem expectWord_cons {l : LogicalLine} {words : List String} {t : Token} {rest : List Token}
    (h : t.isWord words) : expectWord l words (t :: rest) = .ok rest := by
  rw [expectWord, if_pos h]

/-- No fault is reported for an unreadable count. -/
theorem parse_of_unreadableCount {l : LogicalLine} (h : UnreadableCount l) :
    parse l = .error .invalidValue := by
  obtain ⟨s, hs, hu⟩ := h
  unfold parse
  dsimp only
  generalize tokenize l.text = ts at hs
  cases hs with
  | @particles t rest ht =>
      obtain ⟨hkind, hword⟩ := isWord_singleton.mp ht
      have hread : readParticles l (t :: rest) = .error .invalidValue := by
        rw [readParticles, expectWord_cons ht]
        show (wholeNumber rest >>= _) = _
        rw [wholeNumber_error_iff.mpr ⟨rfl, hu⟩]
        rfl
      rw [List.head?_cons, Option.bind_some, hkind, hword]
      show (readParticles l _).map _ = _
      rw [hread]
      rfl
  | @grid t name g rest ht hkind hname hg =>
      obtain ⟨htkind, htword⟩ := isWord_singleton.mp ht
      have hread : readVectorField l (t :: name :: g :: rest) = .error .invalidValue := by
        rw [readVectorField, expectWord_cons ht]
        show (expect l .ident _ (name :: g :: rest) >>= _) = _
        rw [expect, if_pos (beq_iff_eq.mpr hkind)]
        show (if _ then _ else _) = _
        rw [if_neg (by simpa using hname)]
        show (if g.isWord ["GRID"] = true then _ else _) = _
        rw [if_pos hg, wholeNumber_error_iff.mpr ⟨rfl, hu⟩]
        rfl
      rw [List.head?_cons, Option.bind_some, htkind, htword]
      show (readVectorField l _).map _ = _
      rw [hread]
      rfl

end Statement
end FieldScript
