import FieldScript.Definition
import FieldScript.Proofs.BodyGrammar
import FieldScript.Proofs.StatementResults
import FieldScript.Proofs.TokenSlices

/-!
# Texts of components

A definition is checked on the tokens of its line, and what is stored is
the text of its body; `splitComponents?` takes the tokens of that text
again. They are the tokens of the line behind the equals sign, moved to
where the text starts (`partOf_sliceText`), so both cut the same texts.

For the cells of a tensor the texts are those of the cells that were
checked. A component of a vector that starts with `[` is taken for a row
of cells, although the check lets it pass if it is more than one group in
brackets; the texts are those of the components exactly if none starts so
(`Statement.componentTexts_define`).
-/

namespace FieldScript

/-! ## Texts cut from moved tokens -/

theorem rawSlice_moved {a e b : List Char} {g : List Token} (hg : g.Sublist (tokenize e)) :
    rawSlice (a ++ e ++ b) (g.map (Token.moved a.length)) = rawSlice e g := by
  rw [rawSlice, rawSlice, List.head?_map, List.getLast?_map]
  cases hhead : g.head? with
  | none => rfl
  | some t =>
      cases hlast : g.getLast? with
      | none => rfl
      | some u =>
          have hstop : u.stop ≤ e.length := by
            have := Scan.stop_le_of_mem (hg.subset (List.mem_of_getLast? hlast))
            omega
          have hmovedStop : (u.moved a.length).stop = a.length + u.stop := by
            simp only [Token.stop, Token.moved]
            omega
          have hmovedStart : (t.moved a.length).position = a.length + t.position :=
            Nat.add_comm _ _
          simp only [Option.map_some, hmovedStop, hmovedStart]
          rw [List.append_assoc, List.take_length_add_append, List.take_append_of_le_length hstop,
            List.drop_length_add_append]

/-- The tokens between two others are cut out as a shorter text. -/
theorem length_rawSlice_inner_lt {line : List Char} {g : List Token}
    (hg : g.Sublist (tokenize line)) (hne : inner g ≠ []) :
    (rawSlice line (inner g)).length < (rawSlice line g).length := by
  obtain ⟨o, rest, rfl⟩ : ∃ o rest, g = o :: rest := by
    cases g with
    | nil => exact absurd rfl hne
    | cons o rest => exact ⟨o, rest, rfl⟩
  obtain ⟨inside, c, rfl⟩ : ∃ inside c, rest = inside ++ [c] := by
    rcases List.eq_nil_or_concat rest with rfl | ⟨inside, c, h⟩
    · exact absurd rfl hne
    · exact ⟨inside, c, by rw [h, List.concat_eq_append]⟩
  have hinner : inner (o :: (inside ++ [c])) = inside := List.dropLast_concat
  rw [hinner] at hne ⊢
  obtain ⟨t, ht⟩ : ∃ t, inside.head? = some t := ⟨_, List.head?_eq_some_head hne⟩
  obtain ⟨u, hu⟩ : ∃ u, inside.getLast? = some u := ⟨_, List.getLast?_eq_some_getLast hne⟩
  have hstops := (Scan.tokensFrom_pairwise_stop 0 line).sublist hg
  have hfirst : o.stop ≤ t.position :=
    List.rel_of_pairwise_cons hstops (List.mem_append_left _ (List.mem_of_head? ht))
  have hlast : u.stop ≤ c.position :=
    List.pairwise_append.mp (List.pairwise_cons.mp hstops).2 |>.2.2 u
      (List.mem_of_getLast? hu) c (List.mem_singleton_self c)
  have hordered : o.stop ≤ c.position :=
    List.rel_of_pairwise_cons hstops (List.mem_append_right _ (List.mem_singleton_self c))
  have hend := Scan.stop_le_of_mem (hg.subset (List.mem_cons_of_mem o
    (List.mem_append_right inside (List.mem_singleton_self c))))
  obtain ⟨hopen, -⟩ := Scan.startsIn_of_mem (hg.subset List.mem_cons_self)
  have hopen := List.length_pos_iff.mpr hopen
  rw [rawSlice, rawSlice, ht, hu, List.head?_cons, getLast?_cons_concat]
  simp only [List.length_drop, List.length_take]
  simp only [Token.stop] at hfirst hlast hordered hend ⊢
  omega

theorem splitFrom_map {f : Token → Token} (hf : ∀ t, (f t).kind = t.kind) (separator : Kind)
    (depth : Int) (ts : List Token) :
    splitFrom separator depth (ts.map f) = (splitFrom separator depth ts).map (List.map f) := by
  induction ts generalizing depth with
  | nil => rfl
  | cons t ts ih =>
      have hdepth : depthAfter depth (f t) = depthAfter depth t := by
        simp only [depthAfter, hf]
      rw [List.map_cons, splitFrom, splitFrom, hdepth, hf, ih]
      split
      · rfl
      · cases splitFrom separator (depthAfter depth t) ts <;> rfl

theorem inner_map (f : Token → Token) (ts : List Token) : inner (ts.map f) = (inner ts).map f := by
  rw [inner, inner, ← List.map_drop, List.map_dropLast]

theorem inner_sublist (ts : List Token) : (inner ts).Sublist ts :=
  (List.dropLast_sublist _).trans (List.drop_sublist 1 ts)

/-! ## Texts of groups -/

variable {line : List Char} {g : List Token}

/-- The text of one component or cell as it is written. -/
def writtenText (line : List Char) (g : List Token) : String := String.ofList (rawSlice line g)

def writtenText? (line : List Char) (g : List Token) : Option String :=
  if g.isEmpty then none else some (writtenText line g)

/-- The texts that a group between commas gives: those of its own groups
if it starts with `[`. -/
def groupTexts? (line : List Char) (g : List Token) : Option (List String) :=
  if (g.head?.map Token.kind) == some .lbracket then
    (splitTopLevel (inner g)).mapM (writtenText? line)
  else [g].mapM (writtenText? line)

/-- `splitComponents?` for a body that stands in a line. -/
def bodyTexts? (line : List Char) (ts : List Token) : Option (List String) :=
  ((splitTopLevel (inner ts)).mapM (groupTexts? line)).map List.flatten

theorem splitComponents?_eq (body : List Char) :
    splitComponents? body = bodyTexts? body (tokenize body) := rfl

theorem mapM_map_congr {α β γ : Type} {f : α → β} {k : β → Option γ} {k' : α → Option γ}
    {as : List α} (h : ∀ a ∈ as, k (f a) = k' a) : (as.map f).mapM k = as.mapM k' := by
  induction as with
  | nil => rfl
  | cons a as ih =>
      obtain ⟨ha, has⟩ := List.forall_mem_cons.mp h
      rw [List.map_cons, List.mapM_cons, List.mapM_cons, ha, ih has]

section Moved

variable {a e b : List Char}

theorem writtenText?_moved (hg : g.Sublist (tokenize e)) :
    writtenText? (a ++ e ++ b) (g.map (Token.moved a.length)) = writtenText? e g := by
  rw [writtenText?, writtenText?, writtenText, writtenText, rawSlice_moved hg, List.isEmpty_map]

theorem groupTexts?_moved (hg : g.Sublist (tokenize e)) :
    groupTexts? (a ++ e ++ b) (g.map (Token.moved a.length)) = groupTexts? e g := by
  have hhead : ((g.map (Token.moved a.length)).head?.map Token.kind) = g.head?.map Token.kind := by
    rw [List.head?_map, Option.map_map]
    rfl
  rw [groupTexts?, groupTexts?, hhead]
  split
  · rw [inner_map, splitTopLevel, splitFrom_map (Token.moved_kind _)]
    exact mapM_map_congr fun cell hcell =>
      writtenText?_moved (((sublist_of_mem_splitTopLevel hcell).trans (inner_sublist g)).trans hg)
  · rw [List.mapM_cons, List.mapM_cons, writtenText?_moved hg, List.mapM_nil, List.mapM_nil]

/-- A body gives the same texts where it stands in a line. -/
theorem bodyTexts?_moved :
    bodyTexts? (a ++ e ++ b) ((tokenize e).map (Token.moved a.length)) = splitComponents? e := by
  rw [splitComponents?_eq, bodyTexts?, bodyTexts?, inner_map, splitTopLevel,
    splitFrom_map (Token.moved_kind _)]
  congr 1
  exact mapM_map_congr fun g hg =>
    groupTexts?_moved ((sublist_of_mem_splitTopLevel hg).trans (inner_sublist _))

end Moved

theorem PartOf.bodyTexts?_eq {e : List Char} {ts : List Token} (h : PartOf line e ts) :
    bodyTexts? line ts = splitComponents? e := by
  obtain ⟨a, b, rfl, rfl⟩ := h
  exact bodyTexts?_moved

/-! ## One text for each part -/

theorem writtenText?_of_ne_nil (hne : g ≠ []) : writtenText? line g = some (writtenText line g) := by
  rw [writtenText?, if_neg fun hempty => hne (List.isEmpty_iff.mp hempty)]

theorem mapM_writtenText? {gs : List (List Token)} (h : ∀ g ∈ gs, g ≠ []) :
    gs.mapM (writtenText? line) = some (gs.map (writtenText line)) := by
  induction gs with
  | nil => rfl
  | cons g gs ih =>
      obtain ⟨hg, hgs⟩ := List.forall_mem_cons.mp h
      rw [List.mapM_cons, writtenText?_of_ne_nil hg, ih hgs]
      rfl

/-- A run that is not divided is its only group. -/
theorem eq_of_splitTopLevel_single {ts : List Token} (h : splitTopLevel ts = [g]) : g = ts := by
  rw [splitTopLevel] at h
  generalize (0 : Int) = depth at h
  induction ts generalizing depth g with
  | nil => exact (List.cons.inj h).1.symm
  | cons t ts ih =>
      rw [splitFrom] at h
      split at h
      · exact absurd (List.cons.inj h).2 (splitFrom_ne_nil _ _ ts)
      · have hne := splitFrom_ne_nil .comma (depthAfter depth t) ts
        obtain ⟨first, rest, hsplit⟩ := List.exists_cons_of_ne_nil hne
        rw [hsplit, consFirst] at h
        obtain ⟨rfl, rfl⟩ := List.cons.inj h
        rw [ih _ hsplit]

theorem groupTexts?_ne_nil {texts : List String} (h : groupTexts? line g = some texts) :
    texts ≠ [] := by
  rw [groupTexts?] at h
  split at h <;> rw [← List.length_pos_iff, length_of_mapM_some h, List.length_pos_iff]
  · exact splitFrom_ne_nil _ _ _
  · exact List.cons_ne_nil _ _

/-- A group gives its own text exactly if it is not taken for a row: the
text of a part inside its brackets is shorter. -/
theorem groupTexts?_eq_self_iff (hg : g.Sublist (tokenize line)) (hne : g ≠ []) :
    groupTexts? line g = some [writtenText line g] ↔ g.head?.map Token.kind ≠ some .lbracket := by
  rw [groupTexts?]
  split
  · rename_i hopen
    refine ⟨fun h => absurd h fun h => ?_, fun h => absurd (eq_of_beq hopen) h⟩
    -- A single cell is all that stands between the brackets.
    obtain ⟨cell, hcell⟩ := List.length_eq_one_iff.mp (length_of_mapM_some h).symm
    have hinside : cell = inner g := eq_of_splitTopLevel_single hcell
    by_cases hempty : inner g = []
    · rw [hcell, hinside, hempty] at h
      cases h
    · rw [hcell, hinside, List.mapM_cons, writtenText?_of_ne_nil hempty, List.mapM_nil] at h
      have htext := String.ofList_injective (List.cons.inj (Option.some.inj h)).1
      exact absurd (congrArg List.length htext) (Nat.ne_of_lt (length_rawSlice_inner_lt hg hempty))
  · rename_i hopen
    rw [List.mapM_cons, writtenText?_of_ne_nil hne, List.mapM_nil]
    exact ⟨fun _ h => hopen (beq_iff_eq.mpr h), fun _ => rfl⟩

section Parts

variable {α β : Type} {k : α → Option (List β)} {v : α → β} {as : List α}

theorem length_le_of_mapM_some {bss : List (List β)}
    (hne : ∀ a ∈ as, ∀ bs, k a = some bs → bs ≠ []) (h : as.mapM k = some bss) :
    as.length ≤ bss.flatten.length := by
  induction as generalizing bss with
  | nil => exact Nat.zero_le _
  | cons a as ih =>
      obtain ⟨ha, has⟩ := List.forall_mem_cons.mp hne
      obtain ⟨bs, bss, hbs, hbss, rfl⟩ := mapM_cons_eq_some.mp h
      have hfirst := List.length_pos_iff.mpr (ha bs hbs)
      have hrest := ih has hbss
      rw [List.flatten_cons, List.length_append, List.length_cons]
      omega

/-- All parts give their own texts, one each, exactly if the whole does. -/
theorem flatten_mapM_eq_iff (hne : ∀ a ∈ as, ∀ bs, k a = some bs → bs ≠ []) :
    (as.mapM k).map List.flatten = some (as.map v) ↔ ∀ a ∈ as, k a = some [v a] := by
  induction as with
  | nil => exact ⟨fun _ => List.forall_mem_nil _, fun _ => rfl⟩
  | cons a as ih =>
      obtain ⟨ha, has⟩ := List.forall_mem_cons.mp hne
      rw [List.forall_mem_cons]
      constructor
      · intro h
        obtain ⟨all, hall, h⟩ := Option.map_eq_some_iff.mp h
        obtain ⟨bs, bss, hbs, hbss, rfl⟩ := mapM_cons_eq_some.mp hall
        -- No text is left for the first part but its own: the others need as many as they are.
        have hrest := length_le_of_mapM_some has hbss
        obtain ⟨b, bs, rfl⟩ := List.exists_cons_of_ne_nil (ha bs hbs)
        obtain ⟨rfl, htail⟩ : b = v a ∧ bs ++ bss.flatten = as.map v := List.cons.inj h
        have hshort := congrArg List.length htail
        rw [List.length_append, List.length_map] at hshort
        obtain rfl : bs = [] := List.length_eq_zero_iff.mp (by omega)
        exact ⟨hbs, (ih has).mp (by rw [hbss, Option.map_some, ← htail, List.nil_append])⟩
      · rintro ⟨hhead, htail⟩
        obtain ⟨bss, hbss, hflat⟩ := Option.map_eq_some_iff.mp ((ih has).mpr htail)
        rw [mapM_cons_eq_some.mpr ⟨_, _, hhead, hbss, rfl⟩]
        exact congrArg (fun ts => some (v a :: ts)) hflat

end Parts

/-! ## What the reader of a definition has checked -/

/-- The tokens from the first equals sign on. -/
def fromEquals (ts : List Token) : List Token := ts.dropWhile (·.kind != .equals)

theorem fromEquals_cons {t : Token} (h : t.kind ≠ .equals) (ts : List Token) :
    fromEquals (t :: ts) = fromEquals ts :=
  List.dropWhile_cons_of_pos (bne_iff_ne.mpr h)

namespace Statement

variable {l : LogicalLine} {ts rest : List Token}

/-- The tokens behind the equals sign of a definition. -/
def bodyTokens (l : LogicalLine) : List Token := (fromEquals (tokenize l.text)).drop 1

theorem fromEquals_expect {kind : Kind} {wanted : String} {t : Token} (hkind : kind ≠ .equals)
    (h : expect l kind wanted ts = .ok (t, rest)) : fromEquals rest = fromEquals ts := by
  obtain ⟨rfl, rfl⟩ := expect_eq_ok h
  exact (fromEquals_cons hkind rest).symm

theorem fromEquals_expectWord {words : List String} (h : expectWord l words ts = .ok rest) :
    fromEquals rest = fromEquals ts := by
  obtain ⟨t, rfl, ht⟩ := expectWord_eq_ok h
  refine (fromEquals_cons (fun hkind => ?_) _).symm
  have hword : (t.kind == .ident) = true := (Bool.and_eq_true_iff.mp ht).1
  rw [hkind] at hword
  cases hword

theorem fromEquals_readParams {fuel : Nat} {ps : List String}
    (h : readParams l fuel ts = .ok (ps, rest)) : fromEquals rest = fromEquals ts := by
  induction fuel generalizing ts ps with
  | zero =>
      obtain ⟨-, rfl⟩ := Prod.mk.inj (Except.ok.inj h)
      rfl
  | succ fuel ih =>
      rw [readParams] at h
      obtain ⟨⟨p, behind⟩, hp, h⟩ := bind_eq_ok.mp h
      rw [← fromEquals_expect (by decide) hp]
      dsimp only at h
      split at h
      · rename_i t more
        split at h
        · obtain ⟨⟨ps', rest'⟩, hmore, h⟩ := bind_eq_ok.mp h
          obtain ⟨-, rfl⟩ := Prod.mk.inj (Except.ok.inj h)
          have hcomma : t.kind = .comma := eq_of_beq ‹_›
          rw [ih hmore, fromEquals_cons (by rw [hcomma]; decide)]
        · split at h
          · obtain ⟨-, rfl⟩ := Prod.mk.inj (Except.ok.inj h)
            have hclose : t.kind = .rparen := eq_of_beq ‹_›
            exact (fromEquals_cons (by rw [hclose]; decide) _).symm
          · cases h
      · cases h

theorem fromEquals_readParamList {ps : Option (List String)}
    (h : readParamList l ts = .ok (ps, rest)) : fromEquals rest = fromEquals ts := by
  have hparams : ∀ {fuel ts' ps}, (readParams l fuel ts').map (fun r => (some r.1, r.2)) =
      .ok (ps, rest) → fromEquals rest = fromEquals ts' := by
    intro fuel ts' ps h
    cases hread : readParams l fuel ts' with
    | error f =>
        rw [hread] at h
        cases h
    | ok r =>
        rw [hread] at h
        obtain ⟨-, rfl⟩ := Prod.mk.inj (Except.ok.inj h)
        exact fromEquals_readParams hread
  unfold readParamList at h
  split at h
  · rename_i t more
    split at h
    · have hopen : t.kind = .lparen := eq_of_beq ‹_›
      rw [fromEquals_cons (by rw [hopen]; decide)]
      split at h
      · rename_i u behind
        split at h
        · obtain ⟨-, rfl⟩ := Prod.mk.inj (Except.ok.inj h)
          have hclose : u.kind = .rparen := eq_of_beq ‹_›
          exact (fromEquals_cons (by rw [hclose]; decide) _).symm
        · exact hparams h
      · exact hparams h
    · obtain ⟨-, rfl⟩ := Prod.mk.inj (Except.ok.inj h)
      rfl
  · obtain ⟨-, rfl⟩ := Prod.mk.inj (Except.ok.inj h)
    rfl

/-- A body that has passed the check for its name. -/
structure CheckedFor (l : LogicalLine) (name : String) (ts : List Token) : Prop where
  vector : (upperName name).startsWith "VEC_" = true → checkVectorBody l ts = .ok ()
  tensor : (upperName name).startsWith "VEC_" = false →
    (upperName name).startsWith "TENSOR_" = true → checkTensorBody l ts = .ok ()

theorem checkedFor_of_ok {name : String} {b b' : StatementBody}
    (h : (if (upperName name).startsWith "VEC_" = true then do
        let _ ← checkVectorBody l ts
        pure b
      else if (upperName name).startsWith "TENSOR_" = true then do
        let _ ← checkTensorBody l ts
        pure b
      else if (!properlyNested ts) = true then do
        let _ ← fail (α := Unit) l (StatementFault.unbalanced name)
        pure b
      else pure b) = .ok b') : b = b' ∧ CheckedFor l name ts := by
  split at h
  · obtain ⟨_, hcheck, h⟩ := bind_eq_ok.mp h
    refine ⟨Except.ok.inj h, fun _ => hcheck, fun hvec => ?_⟩
    exact absurd (hvec.symm.trans ‹_›) Bool.false_ne_true
  · split at h
    · obtain ⟨_, hcheck, h⟩ := bind_eq_ok.mp h
      exact ⟨Except.ok.inj h, fun hvec => absurd hvec ‹_›, fun _ _ => hcheck⟩
    · obtain ⟨-, h⟩ := unless_eq_ok.mp h
      exact ⟨Except.ok.inj h, fun hvec => absurd hvec ‹_›, fun _ hten => absurd hten ‹_›⟩

/-- What a definition that was read says, and which check its body has
passed. -/
theorem define_of_readDefinition {name : String} {params : List String} {body : String}
    (h : readDefinition l ts = .ok (.define name params body)) :
    body = textOf l ((fromEquals ts).drop 1) ∧ CheckedFor l name ((fromEquals ts).drop 1) := by
  unfold readDefinition at h
  obtain ⟨behind, hword, h⟩ := bind_eq_ok.mp h
  obtain ⟨⟨token, behind'⟩, htoken, h⟩ := bind_eq_ok.mp h
  obtain ⟨⟨params?, behind''⟩, hparams, h⟩ := bind_eq_ok.mp h
  dsimp only at h
  split at h
  · cases h
  · obtain ⟨⟨equals, behind⟩, hequals, h⟩ := bind_eq_ok.mp h
    have htokens : (fromEquals ts).drop 1 = behind := by
      rw [← fromEquals_expectWord hword, ← fromEquals_expect (by decide) htoken,
        ← fromEquals_readParamList hparams]
      obtain ⟨rfl, hkind⟩ := expect_eq_ok hequals
      rw [fromEquals, List.dropWhile_cons_of_neg (by rw [hkind]; decide), List.drop_one, List.tail_cons]
    rw [htokens]
    dsimp only at h
    have hchecked : StatementBody.define token.value (params?.getD []) (textOf l behind) =
        .define name params body ∧ CheckedFor l token.value behind := by
      split at h
      · obtain ⟨-, h⟩ := unless_eq_ok.mp h
        obtain ⟨-, h⟩ := unless_eq_ok.mp h
        exact checkedFor_of_ok h
      · obtain ⟨-, h⟩ := unless_eq_ok.mp h
        obtain ⟨-, h⟩ := unless_eq_ok.mp h
        exact checkedFor_of_ok h
    obtain ⟨heq, hchecked⟩ := hchecked
    obtain ⟨rfl, -, rfl⟩ := StatementBody.define.inj heq
    exact ⟨rfl, hchecked⟩

/-! ## Components of what was read -/

/-- The components of a vector, in order. -/
def componentsOf (ts : List Token) : List (List Token) := splitTopLevel (inner ts)

/-- The cells of a tensor, row by row. -/
def cellsOf (ts : List Token) : List (List Token) :=
  (splitTopLevel (inner ts)).flatMap fun row => splitTopLevel (inner row)

theorem exists_append_bodyTokens (l : LogicalLine) : ∃ us, tokenize l.text = us ++ bodyTokens l := by
  refine ⟨(tokenize l.text).takeWhile (·.kind != .equals) ++ (fromEquals (tokenize l.text)).take 1, ?_⟩
  rw [List.append_assoc, bodyTokens, List.take_append_drop, fromEquals,
    List.takeWhile_append_dropWhile]

theorem bodyTokens_sublist (l : LogicalLine) : (bodyTokens l).Sublist (tokenize l.text) := by
  obtain ⟨us, h⟩ := exists_append_bodyTokens l
  rw [h]
  exact List.sublist_append_right us _

theorem splitComponents?_textOf (hne : bodyTokens l ≠ []) :
    splitComponents? (textOf l (bodyTokens l)).toList = bodyTexts? l.text (bodyTokens l) := by
  obtain ⟨us, h⟩ := exists_append_bodyTokens l
  rw [textOf, String.toList_ofList, (partOf_sliceText h hne).bodyTexts?_eq]

theorem ne_nil_of_isGroup {inside : List Token} (h : IsGroup ts inside) : ts ≠ [] := by
  obtain ⟨o, c, heq, -, -⟩ := h.brackets
  rw [heq]
  exact List.cons_ne_nil _ _

theorem bodyTexts?_of_vector {line : List Char} (hts : ts.Sublist (tokenize line))
    (h : VectorShape ts) :
    (componentsOf ts).length = 3 ∧
      (bodyTexts? line ts = some ((componentsOf ts).map (writtenText line)) ↔
        ∀ g ∈ componentsOf ts, g.head?.map Token.kind ≠ some .lbracket) := by
  obtain ⟨x, y, z, hrow⟩ := h
  have hparts : ∀ g ∈ componentsOf ts, g.Sublist (tokenize line) ∧ g ≠ [] := by
    intro g hg
    refine ⟨((sublist_of_mem_splitTopLevel hg).trans (inner_sublist ts)).trans hts, ?_⟩
    obtain ⟨_, -, -, hscalar⟩ := id hrow
    rw [componentsOf, hrow.splitTopLevel_inner] at hg
    exact (hscalar g hg).nonempty
  refine ⟨by rw [componentsOf, hrow.splitTopLevel_inner]; rfl, ?_⟩
  rw [bodyTexts?, ← componentsOf, flatten_mapM_eq_iff fun g _ _ => groupTexts?_ne_nil]
  exact forall₂_congr fun g hg => groupTexts?_eq_self_iff (hparts g hg).1 (hparts g hg).2

theorem groupTexts?_of_row {line : List Char} {parts : List (List Token)} (h : IsRow parts ts) :
    groupTexts? line ts = some (parts.map (writtenText line)) := by
  have hsplit := h.splitTopLevel_inner
  obtain ⟨inside, hgroup, -, hscalar⟩ := h
  obtain ⟨o, c, rfl, ho, -⟩ := hgroup.brackets
  rw [groupTexts?, if_pos (by rw [List.head?_cons, Option.map_some, ho]; rfl), hsplit]
  exact mapM_writtenText? fun g hg => (hscalar g hg).nonempty

theorem bodyTexts?_of_tensor {line : List Char} (h : TensorShape ts) :
    (cellsOf ts).length = 4 ∧
      bodyTexts? line ts = some ((cellsOf ts).map (writtenText line)) := by
  obtain ⟨inside, r, s, hgroup, hrows, ⟨a, b, hr⟩, ⟨c, d, hs⟩⟩ := h
  have hsplit : splitTopLevel (inner ts) = [r, s] := by
    rw [hgroup.inner_eq]
    refine splitTopLevel_of_commaSeparated hrows ?_
    obtain ⟨_, hgroup⟩ := hr.isGroup
    obtain ⟨_, hgroup'⟩ := hs.isGroup
    simp [hgroup.setApart, hgroup'.setApart]
  have hcells : cellsOf ts = [a, b, c, d] := by
    rw [cellsOf, hsplit, List.flatMap_cons, List.flatMap_cons, hr.splitTopLevel_inner,
      hs.splitTopLevel_inner]
    rfl
  refine ⟨by rw [hcells]; rfl, ?_⟩
  rw [bodyTexts?, hsplit, hcells, List.mapM_cons, List.mapM_cons, groupTexts?_of_row hr,
    groupTexts?_of_row hs]
  rfl

theorem startsWith_of_kind {f : NamedFunction} :
    (f.kind = .vector → (upperName f.name).startsWith "VEC_" = true) ∧
      (f.kind = .tensor → (upperName f.name).startsWith "VEC_" = false ∧
        (upperName f.name).startsWith "TENSOR_" = true) := by
  unfold NamedFunction.kind
  dsimp only
  split
  · exact ⟨fun _ => ‹_›, fun h => by cases h⟩
  · split
    · exact ⟨fun h => (by cases h), fun _ => ⟨Bool.eq_false_iff.mpr ‹_›, ‹_›⟩⟩
    · split <;> exact ⟨fun h => (by cases h), fun h => (by cases h)⟩

/-- Definitions on closed lines are read by evaluation. -/
theorem readDefinition_eq_ok {name : String} {params : List String} {body : String}
    (h : (match readDefinition l ts with
      | .ok (.define n ps b) => n == name && ps == params && b == body
      | _ => false) = true) : readDefinition l ts = .ok (.define name params body) := by
  split at h
  · rename_i hread
    simp only [Bool.and_eq_true, beq_iff_eq] at h
    obtain ⟨⟨rfl, rfl⟩, rfl⟩ := h
    exact hread
  · cases h

/-- The texts that are cut from the body of a definition that was read:
those of the four cells of a tensor, and those of the three components of
a vector exactly if none of them starts with `[`. -/
theorem componentTexts_define {name : String} {params : List String} {body : String}
    (h : readDefinition l (tokenize l.text) = .ok (.define name params body)) :
    ((NamedFunction.mk name params body l.line).kind = .vector →
      (componentsOf (bodyTokens l)).length = 3 ∧
        (splitComponents? body.toList =
            some ((componentsOf (bodyTokens l)).map (writtenText l.text)) ↔
          ∀ g ∈ componentsOf (bodyTokens l), g.head?.map Token.kind ≠ some .lbracket)) ∧
    ((NamedFunction.mk name params body l.line).kind = .tensor →
      (cellsOf (bodyTokens l)).length = 4 ∧
        splitComponents? body.toList =
          some ((cellsOf (bodyTokens l)).map (writtenText l.text))) := by
  obtain ⟨rfl, hchecked⟩ := define_of_readDefinition h
  rw [← bodyTokens] at hchecked ⊢
  refine ⟨fun hkind => ?_, fun hkind => ?_⟩
  · have hshape := vectorShape_of_checked (hchecked.vector (startsWith_of_kind.1 hkind))
    obtain ⟨x, y, z, hrow⟩ := id hshape
    obtain ⟨inside, hgroup⟩ := hrow.isGroup
    rw [splitComponents?_textOf (ne_nil_of_isGroup hgroup)]
    exact bodyTexts?_of_vector (bodyTokens_sublist l) hshape
  · obtain ⟨hvec, hten⟩ := startsWith_of_kind.2 hkind
    have hshape := tensorShape_of_checked (hchecked.tensor hvec hten)
    obtain ⟨inside, r, s, hgroup, -⟩ := id hshape
    rw [splitComponents?_textOf (ne_nil_of_isGroup hgroup)]
    exact bodyTexts?_of_tensor hshape

theorem componentTexts_define_rotated :
    (componentsOf (bodyTokens ⟨"DEF VEC_F(x, y) = [ -y, MAX(x, [1]), (x) ]".toList, 1⟩)).length = 3 ∧
      splitComponents? "[ -y, MAX(x, [1]), (x) ]".toList = some ["-y", "MAX(x, [1])", "(x)"] := by
  have hread : readDefinition ⟨"DEF VEC_F(x, y) = [ -y, MAX(x, [1]), (x) ]".toList, 1⟩
      (tokenize "DEF VEC_F(x, y) = [ -y, MAX(x, [1]), (x) ]".toList) =
        .ok (.define "VEC_F" ["x", "y"] "[ -y, MAX(x, [1]), (x) ]") :=
    readDefinition_eq_ok (by decide +kernel)
  obtain ⟨hlength, htexts⟩ := (componentTexts_define hread).1 (by decide +kernel)
  refine ⟨hlength, (htexts.mpr (by decide +kernel)).trans (by decide +kernel)⟩

/-- A component that starts with `[` and goes on behind the bracket that
closes it is let pass, and taken for a row of cells. -/
theorem not_componentTexts_define :
    readDefinition ⟨"DEF VEC_F(x)=[[,]+1,2,3]".toList, 1⟩
        (tokenize "DEF VEC_F(x)=[[,]+1,2,3]".toList) =
      .ok (.define "VEC_F" ["x"] "[[,]+1,2,3]") ∧
    splitComponents? "[[,]+1,2,3]".toList = none :=
  ⟨readDefinition_eq_ok (by decide +kernel), by decide +kernel⟩

end Statement
end FieldScript
