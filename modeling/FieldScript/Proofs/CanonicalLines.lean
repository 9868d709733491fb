import FieldScript.Proofs.FloatOrder
import FieldScript.Proofs.LineParts

/-!
# The lines of the grammar

A `GrammarLine` has the parts of a statement as they are written, and each
part keeps what makes it legal. `render` writes the line, and `node` is the
statement that it says. Reading the line gives the statement back
(`parse_render`), in every letter case of the words.

Where a reader divides a line at a word, the part in front of it must not
have this word outside its brackets: `TO` divides at its first use, `STEP`
at the first one behind that, and `AT` at its last.
-/

namespace FieldScript

/-! ## Lines and what they say -/

/-- The text has commas inside brackets only. -/
def NoCommaOutside (e : List Char) : Prop :=
  ∀ t, OutsideBrackets (tokenize e) t → t.kind ≠ .comma

/-- The expression of a position in a label. -/
structure PositionText extends ExprText where
  noAt : NoWordOutside "AT" text
  noComma : NoCommaOutside text

theorem PositionText.setApart_of_partOf (e : PositionText) {line : List Char} {ts : List Token}
    (h : PartOf line e.text ts) : SetApart ts := by
  obtain ⟨n, rfl⟩ := h.kinds
  exact SetApart.map (Token.moved_kind n) ⟨e.nested, e.noComma⟩

/-- The parts of a definition. A constant has no parameter list. -/
structure DefinitionLine where
  name : List Char
  params : Option (List (List Char))
  body : ExprText
  isName : IsName name
  areNames : ∀ p ∈ params.getD [], IsName p
  distinct : (params.getD []).Nodup
  legal : (Statement.definitionPrefixes.any fun p =>
    (upperName (String.ofList name)).startsWith p) = true
  vector : (upperName (String.ofList name)).startsWith "VEC_" = true →
    VectorShape (tokenize body.text)
  tensor : (upperName (String.ofList name)).startsWith "TENSOR_" = true →
    TensorShape (tokenize body.text)

/-- A statement in its parts. -/
inductive GrammarLine where
  | range (axis : Axis) (low high : Literal) (h : low.value < high.value)
  | colorMap (name : String) (h : name ∈ colorMapNames)
  | particles (count : Count) (h : 1 ≤ count.value ∧ count.value ≤ maxParticles)
  | contour (first : Literal) (others : List Literal)
  | label (text : ExprText) (x y z : PositionText)
  | define (d : DefinitionLine)
  | surface (expr : ExprText)
  | vectorField (name : List Char) (grid : Option Count) (hname : IsName name)
      (hbegin : (upperName (String.ofList name)).startsWith "VEC_" = true)
      (hgrid : ∀ n ∈ grid, 2 ≤ n.value ∧ n.value ≤ maxGridSize)
  | tensorField (name : List Char) (glyph : String) (hname : IsName name)
      (hbegin : (upperName (String.ofList name)).startsWith "TENSOR_" = true)
      (hglyph : glyph ∈ glyphKinds)
  | animate (parameter : List Char) (start stop step : ExprText) (hparameter : IsName parameter)
      (hstart : NoWordOutside "TO" start.text) (hstop : NoWordOutside "STEP" stop.text)

def Axis.word : Axis → String
  | .x => "X"
  | .y => "Y"
  | .z => "Z"

/-- The parts with single blanks between them. -/
def spaced : List (List Char) → List Char
  | [] => []
  | [e] => e
  | e :: es => e ++ ' ' :: spaced es

namespace DefinitionLine

variable (sp : Spelling) (d : DefinitionLine)

/-- The name and the parameter list. -/
def head : List Char :=
  match d.params with
  | none => d.name
  | some ps => d.name ++ '(' :: (listed sp.gap ps ++ [')'])

def render : List Char := spaced [sp.word "DEF", d.head sp, ['='], d.body.text]

def node : StatementBody :=
  .define (String.ofList d.name) ((d.params.getD []).map String.ofList) (String.ofList d.body.text)

end DefinitionLine

namespace GrammarLine

/-- The line as it is written. -/
def render (sp : Spelling) : GrammarLine → List Char
  | range axis low high _ =>
    spaced [sp.word "SET", sp.word "RANGE", sp.word axis.word, low.text, sp.word "TO", high.text]
  | colorMap name _ => spaced [sp.word "COLOR", sp.word "MAP", name.toList]
  | particles count _ => spaced [sp.word "PARTICLES", count.text]
  | contour first others =>
    spaced [sp.word "CONTOUR", sp.word "LEVELS", listed sp.gap ((first :: others).map Literal.text)]
  | label text x y z =>
    spaced [sp.word "LABEL", text.text, sp.word "AT", listed sp.gap [x.text, y.text, z.text]]
  | define d => d.render sp
  | surface expr => spaced [sp.word "PLOT3D", expr.text]
  | vectorField name grid _ _ _ =>
    match grid with
    | none => spaced [sp.word "PLOT_VECFIELD", name]
    | some n => spaced [sp.word "PLOT_VECFIELD", name, sp.word "GRID", n.text]
  | tensorField name glyph _ _ _ =>
    spaced [sp.word "PLOT_TENSOR", name, sp.word "AS", sp.word "GLYPH",
      '\'' :: (glyph.toList ++ ['\''])]
  | animate parameter start stop step _ _ _ =>
    spaced [sp.word "ANIMATE", parameter, sp.word "FROM", start.text, sp.word "TO", stop.text,
      sp.word "STEP", step.text]

/-- The statement that the line says. -/
def node : GrammarLine → StatementBody
  | range axis low high _ => .range axis low.value high.value
  | colorMap name _ => .colorMap name
  | particles count _ => .particles count.value
  | contour first others => .contour ((first :: others).map Literal.value)
  | label text x y z =>
    .label (String.ofList text.text)
      (String.ofList x.text, String.ofList y.text, String.ofList z.text)
  | define d => d.node
  | surface expr => .surface (String.ofList expr.text)
  | vectorField name grid _ _ _ =>
    .vectorField (String.ofList name) ((grid.map Count.value).getD defaultGridSize)
  | tensorField name glyph _ _ _ => .tensorField (String.ofList name) glyph
  | animate parameter start stop step _ _ _ =>
    .animate (String.ofList parameter) (String.ofList start.text) (String.ofList stop.text)
      (String.ofList step.text)

end GrammarLine

/-! ## Taking a line apart -/

namespace EndTokens

variable {line e : List Char} {es : List (List Char)} {ts : List Token}

theorem spaced_part (he : Scan.NoOpenQuote (tokenize e)) {e' : List Char}
    (h : EndTokens line (spaced (e :: e' :: es)) ts) :
    ∃ us vs, ts = us ++ vs ∧ PartOf line e us ∧ EndTokens line (spaced (e' :: es)) vs := by
  obtain ⟨us, vs, rfl, hpart, hend⟩ := h.part he (apart_cons (by decide +kernel) _)
  exact ⟨us, vs, rfl, hpart, hend.blank (by decide)⟩

theorem spaced_name (he : IsName e) {e' : List Char}
    (h : EndTokens line (spaced (e :: e' :: es)) ts) :
    ∃ t vs, ts = t :: vs ∧ t.kind = .ident ∧ t.value = String.ofList e ∧
      EndTokens line (spaced (e' :: es)) vs := by
  obtain ⟨t, vs, rfl, hkind, rfl, hend⟩ := h.name he (apart_cons (by decide +kernel) _)
  exact ⟨t, vs, rfl, hkind, rfl, hend.blank (by decide)⟩

theorem last_name (he : IsName e) (h : EndTokens line (spaced [e]) ts) :
    ∃ t, ts = [t] ∧ t.kind = .ident ∧ t.value = String.ofList e := by
  rw [spaced, ← List.append_nil e] at h
  obtain ⟨t, vs, rfl, hkind, rfl, hend⟩ := h.name he apart_nil
  rw [hend.eq_nil]
  exact ⟨t, rfl, hkind, rfl⟩

variable (sp : Spelling) {w : String}

theorem spaced_word (hw : w ∈ grammarWords) {e' : List Char}
    (h : EndTokens line (spaced (sp.word w :: e' :: es)) ts) :
    ∃ t vs, ts = t :: vs ∧ t.isWord [w] = true ∧ EndTokens line (spaced (e' :: es)) vs := by
  obtain ⟨t, vs, rfl, hkind, hvalue, hend⟩ := h.spaced_name (sp.isName_word hw)
  refine ⟨t, vs, rfl, Statement.isWord_singleton.mpr ⟨hkind, ?_⟩, hend⟩
  rw [hvalue, sp.upperName_word w hw]

end EndTokens

namespace Statement

variable {l : LogicalLine}

theorem ok_bind {α β : Type} (a : α) (k : α → Except Failure β) : (Except.ok a >>= k) = k a := rfl

theorem expect_cons {kind : Kind} {wanted : String} {t : Token} {rest : List Token}
    (h : t.kind = kind) : expect l kind wanted (t :: rest) = .ok (t, rest) := by
  rw [expect, if_pos (beq_iff_eq.mpr h)]

/-- The first word hands a line to its reader. -/
theorem parse_of_isWord {w : String} {t : Token} {rest : List Token}
    {read : LogicalLine → List Token → Except Failure StatementBody} {body : StatementBody}
    (htokens : tokenize l.text = t :: rest) (ht : t.isWord [w] = true)
    (hreader : reader? w = some read) (h : read l (t :: rest) = .ok body) :
    parse l = .ok ⟨l.line, body⟩ := by
  obtain ⟨hkind, hword⟩ := isWord_singleton.mp ht
  rw [parse, htokens, List.head?_cons, Option.bind_some, hkind, hword, hreader]
  show (read l (t :: rest)).map _ = _
  rw [h]
  rfl

/-! ## One statement after the other -/

section Readers

variable (sp : Spelling)

theorem depthOver_of_forall {ts : List Token} (h : ∀ t ∈ ts, t.kind.isOpener = false ∧
    t.kind.isCloser = false) : depthOver 0 ts = 0 := by
  induction ts with
  | nil => rfl
  | cons t ts ih =>
      obtain ⟨⟨hopen, hclose⟩, hts⟩ := List.forall_mem_cons.mp h
      rw [depthOver, List.foldl_cons, depthAfter, hopen, hclose]
      exact ih hts

theorem not_bracket_of_ident {t : Token} (h : t.kind = .ident) :
    t.kind.isOpener = false ∧ t.kind.isCloser = false := by
  rw [h]
  exact ⟨rfl, rfl⟩

theorem between_append (before mid rest : List Token) :
    between (before ++ (mid ++ rest)) before.length (before.length + mid.length) = mid := by
  rw [between, ← List.append_assoc, ← List.length_append, List.take_left, List.drop_left]

theorem drop_append_cons (before mid after : List Token) (t : Token) :
    (before ++ (mid ++ t :: after)).drop (before.length + mid.length + 1) = after := by
  rw [← List.append_assoc, ← List.length_append, List.append_cons,
    ← List.length_singleton (a := t), ← List.length_append, List.drop_left]

/-- Nested tokens in front of a word that does not stand among them: the word
is found behind them, and it divides them from what follows. -/
theorem divided_at_word {word : String} (before mid : List Token) {ts after : List Token}
    {t : Token} {n : Nat} (hts : ts = before ++ (mid ++ t :: after)) (hn : before.length = n)
    (hbefore : depthOver 0 before = 0) (hmid : properlyNested mid = true)
    (hnone : ∀ u, OutsideBrackets mid u → u.isWord [word] = false) (ht : t.isWord [word] = true) :
    findTopLevel ts word n = some (n + mid.length) ∧ between ts n (n + mid.length) = mid ∧
      ts.drop (n + mid.length + 1) = after := by
  subst hts hn
  exact ⟨findTopLevel_eq_some before mid hbefore hmid hnone ht, between_append before mid _,
    drop_append_cons before mid after t⟩

theorem parse_range {axis : Axis} {low high : Literal} (h : low.value < high.value)
    (hl : l.text = (GrammarLine.range axis low high h).render sp) :
    parse l = .ok ⟨l.line, .range axis low.value high.value⟩ := by
  have haxis : axis.word ∈ grammarWords := by cases axis <;> decide
  have hline := endTokens_tokenize hl
  obtain ⟨set, ts, htokens, hset, hline⟩ := hline.spaced_word sp (by decide)
  obtain ⟨range, ts, rfl, hrange, hline⟩ := hline.spaced_word sp (by decide)
  obtain ⟨letter, ts, rfl, hletter, hline⟩ := hline.spaced_word sp haxis
  obtain ⟨lows, ts, rfl, hlow, hline⟩ := hline.spaced_part low.closed
  obtain ⟨divider, highs, rfl, hto, hline⟩ := hline.spaced_word sp (by decide)
  have hhigh : PartOf _ high.text highs := hline.last
  have hbefore : depthOver 0 [set, range, letter] = 0 :=
    depthOver_of_forall (by simp [not_bracket_of_isWord hset, not_bracket_of_isWord hrange,
      not_bracket_of_isWord hletter])
  obtain ⟨hfound, hlows, hhighs⟩ := divided_at_word (n := 3) [set, range, letter] lows
    (rfl : set :: range :: letter :: (lows ++ divider :: highs) = _) rfl hbefore
    (Literal.setApart_of_partOf hlow).nested (fun u ⟨before, after, hsplit, _⟩ =>
      Literal.isWord_of_partOf hlow (hsplit ▸ List.mem_append_right _ List.mem_cons_self)) hto
  have hless : ¬ low.value ≥ high.value := by
    rw [ge_iff_le, Binary64.le_iff (Binary64.isNumber_of_isFinite high.finite)
      (Binary64.isNumber_of_isFinite low.finite)]
    rw [Binary64.lt_iff (Binary64.isNumber_of_isFinite low.finite)
      (Binary64.isNumber_of_isFinite high.finite)] at h
    exact not_le.mpr h
  refine parse_of_isWord htokens hset rfl ?_
  obtain ⟨hkind, hword⟩ := isWord_singleton.mp hletter
  rw [readRange, expectWord_cons hset, ok_bind, expectWord_cons hrange, ok_bind,
    expect_cons hkind, ok_bind]
  dsimp only
  rw [hword, hfound]
  dsimp only
  rw [hlows, hhighs, Literal.number_of_partOf hlow, Literal.number_of_partOf hhigh]
  cases axis <;> exact if_neg hless

theorem parse_colorMap {name : String} (h : name ∈ colorMapNames)
    (hl : l.text = (GrammarLine.colorMap name h).render sp) :
    parse l = .ok ⟨l.line, .colorMap name⟩ := by
  have hname : ∀ n ∈ colorMapNames, lowerName n = n ∧ colorMapNames.contains n = true ∧
      (n.toList.head?.any Scan.isNameStart && n.toList.all Scan.isNameChar) = true := by
    decide +kernel
  obtain ⟨hlower, hcontains, hisName⟩ := hname name h
  have hline := endTokens_tokenize hl
  obtain ⟨color, ts, htokens, hcolor, hline⟩ := hline.spaced_word sp (by decide)
  obtain ⟨map, ts, rfl, hmap, hline⟩ := hline.spaced_word sp (by decide)
  obtain ⟨t, rfl, hkind, hvalue⟩ := hline.last_name (isName_of_all hisName)
  refine parse_of_isWord htokens hcolor rfl ?_
  rw [readColorMap, expectWord_cons hcolor, ok_bind, expectWord_cons hmap, ok_bind,
    expect_cons hkind, ok_bind]
  dsimp only
  rw [hvalue, String.ofList_toList, hlower, expectEnd, ok_bind, hcontains]
  rfl

theorem parse_particles {count : Count} (h : 1 ≤ count.value ∧ count.value ≤ maxParticles)
    (hl : l.text = (GrammarLine.particles count h).render sp) :
    parse l = .ok ⟨l.line, .particles count.value⟩ := by
  have hline := endTokens_tokenize hl
  obtain ⟨particles, ts, htokens, hparticles, hline⟩ := hline.spaced_word sp (by decide)
  refine parse_of_isWord htokens hparticles rfl ?_
  have hzero : ¬ (count.value == 0) = true := by
    rw [beq_iff_eq]
    omega
  rw [readParticles, expectWord_cons hparticles, ok_bind,
    Count.wholeNumber_of_partOf (n := count) hline.last, ok_bind]
  dsimp only
  rw [if_neg hzero, if_neg (Nat.not_lt_of_le h.2)]
  rfl

theorem parse_surface {expr : ExprText} (hl : l.text = (GrammarLine.surface expr).render sp) :
    parse l = .ok ⟨l.line, .surface (String.ofList expr.text)⟩ := by
  have hline := endTokens_tokenize hl
  obtain ⟨plot, ts, htokens, hplot, hline⟩ := hline.spaced_word sp (by decide)
  have hexpr : PartOf l.text expr.text ts := hline.last
  refine parse_of_isWord htokens hplot rfl ?_
  rw [readSurface, expectWord_cons hplot, ok_bind, hexpr.textOf_eq]
  dsimp only
  rw [expr.isEmpty_ofList, if_neg Bool.false_ne_true]
  rfl

theorem parse_contour {first : Literal} {others : List Literal}
    (hl : l.text = (GrammarLine.contour first others).render sp) :
    parse l = .ok ⟨l.line, .contour ((first :: others).map Literal.value)⟩ := by
  have hline := endTokens_tokenize hl
  obtain ⟨contour, ts, htokens, hcontour, hline⟩ := hline.spaced_word sp (by decide)
  obtain ⟨levels, ts, rfl, hlevels, hline⟩ := hline.spaced_word sp (by decide)
  obtain ⟨groups, hgroups, hparts⟩ := EndTokens.literals sp.gap_blank (List.cons_ne_nil _ _) hline
  have happly := setApart_of_literals hparts
  have hfilter : (splitTopLevel ts).filter (!·.isEmpty) = groups := by
    rw [splitTopLevel_of_commaSeparated hgroups fun g hg => (happly g hg).1, List.filter_eq_self]
    intro g hg
    simpa using (happly g hg).2
  have hne : groups.isEmpty = false := by
    cases hparts
    rfl
  refine parse_of_isWord htokens hcontour rfl ?_
  rw [readContour, expectWord_cons hcontour, ok_bind, expectWord_cons hlevels, ok_bind]
  dsimp only
  rw [hfilter, hne, if_neg Bool.false_ne_true, mapM_number_of_literals hparts]
  rfl

theorem parse_label {text : ExprText} {x y z : PositionText}
    (hl : l.text = (GrammarLine.label text x y z).render sp) :
    parse l = .ok ⟨l.line, .label (String.ofList text.text)
      (String.ofList x.text, String.ofList y.text, String.ofList z.text)⟩ := by
  have hline := endTokens_tokenize hl
  obtain ⟨label, ts, htokens, hlabel, hline⟩ := hline.spaced_word sp (by decide)
  obtain ⟨texts, ts, rfl, htext, hline⟩ := hline.spaced_part text.closed
  obtain ⟨divider, ts, rfl, hat, hline⟩ := hline.spaced_word sp (by decide)
  rw [spaced] at hline
  obtain ⟨groups, hgroups, hparts⟩ := hline.listed sp.gap_blank (List.cons_ne_nil _ _)
    (by simp [x.closed, y.closed, z.closed])
  rcases hparts with _ | ⟨hx, _ | ⟨hy, _ | ⟨hz, _ | _⟩⟩⟩
  rename_i xs ys zs
  have hapart : ∀ g ∈ [xs, ys, zs], SetApart g := by
    simp [x.setApart_of_partOf hx, y.setApart_of_partOf hy, z.setApart_of_partOf hz]
  have hsplit : splitTopLevel ts = [xs, ys, zs] := by
    exact splitTopLevel_of_commaSeparated hgroups hapart
  have hafter : ∀ u, OutsideBrackets ts u → u.isWord ["AT"] = false := by
    intro u hu
    rcases hgroups.outsideBrackets hapart hu with hcomma | ⟨g, hg, hu⟩
    · rw [Token.isWord, hcomma]
      rfl
    · simp only [List.mem_cons, List.not_mem_nil, or_false] at hg
      rcases hg with rfl | rfl | rfl
      · exact hx.isWord_eq_false x.noAt hu
      · exact hy.isWord_eq_false y.noAt hu
      · exact hz.isWord_eq_false z.noAt hu
  have hdepth : depthOver 0 (label :: texts) = 0 := by
    have hfirst : depthOver 0 [label] = 0 :=
      depthOver_of_forall (by simp [not_bracket_of_isWord hlabel])
    rw [← List.singleton_append, depthOver_append, hfirst, depthOver_of_nested htext.properlyNested]
  have hfound : findLastTopLevel (label :: (texts ++ divider :: ts)) "AT" 1 =
      some (1 + texts.length) := by
    rw [Nat.add_comm]
    exact findLastTopLevel_eq_some (label :: texts) (by simp) hdepth hat hafter
  have htexts := between_append [label] texts (divider :: ts)
  have hrest := drop_append_cons [label] texts ts divider
  refine parse_of_isWord htokens hlabel rfl ?_
  have hone : ¬ (1 + texts.length == 1) = true := by
    have := List.length_pos_iff.mpr htext.ne_nil
    rw [beq_iff_eq]
    omega
  have hempty : ¬ (xs.isEmpty || ys.isEmpty || zs.isEmpty) = true := by
    simp [hx.ne_nil (e := x.toExprText), hy.ne_nil (e := y.toExprText),
      hz.ne_nil (e := z.toExprText)]
  rw [readLabel, expectWord_cons hlabel, ok_bind, hfound]
  dsimp only
  rw [if_neg hone, show (label :: (texts ++ divider :: ts)).drop (1 + texts.length + 1) = ts
      from hrest, hsplit]
  dsimp only
  rw [if_neg hempty, show between (label :: (texts ++ divider :: ts)) 1 (1 + texts.length) = texts
      from htexts, htext.textOf_eq, PartOf.textOf_eq (e := x.toExprText) hx,
    PartOf.textOf_eq (e := y.toExprText) hy, PartOf.textOf_eq (e := z.toExprText) hz]
  rfl

theorem parse_animate {parameter : List Char} {start stop step : ExprText}
    (hparameter : IsName parameter) (hstart : NoWordOutside "TO" start.text)
    (hstop : NoWordOutside "STEP" stop.text)
    (hl : l.text =
      (GrammarLine.animate parameter start stop step hparameter hstart hstop).render sp) :
    parse l = .ok ⟨l.line, .animate (String.ofList parameter) (String.ofList start.text)
      (String.ofList stop.text) (String.ofList step.text)⟩ := by
  have hline := endTokens_tokenize hl
  obtain ⟨animate, ts, htokens, hanimate, hline⟩ := hline.spaced_word sp (by decide)
  obtain ⟨name, ts, rfl, hname, hvalue, hline⟩ := hline.spaced_name hparameter
  obtain ⟨first, ts, rfl, hfirst, hline⟩ := hline.spaced_word sp (by decide)
  obtain ⟨starts, ts, rfl, hstarts, hline⟩ := hline.spaced_part start.closed
  obtain ⟨second, ts, rfl, hsecond, hline⟩ := hline.spaced_word sp (by decide)
  obtain ⟨stops, ts, rfl, hstops, hline⟩ := hline.spaced_part stop.closed
  obtain ⟨third, steps, rfl, hthird, hline⟩ := hline.spaced_word sp (by decide)
  have hsteps : PartOf l.text step.text steps := hline.last
  -- The same tokens, divided at `TO` and at `STEP`.
  generalize hall : animate :: name :: first :: (starts ++ second :: (stops ++ third :: steps)) = ts
    at htokens
  have hatTo : ts = [animate, name, first] ++ (starts ++ second :: (stops ++ third :: steps)) :=
    hall.symm
  have hatStep : ts = ([animate, name, first] ++ (starts ++ [second])) ++
      (stops ++ third :: steps) := by
    rw [hatTo]
    simp
  have hlen : ([animate, name, first] ++ (starts ++ [second])).length = 3 + starts.length + 1 := by
    simp
    omega
  have hnameBracket := not_bracket_of_ident hname
  have hhead : depthOver 0 [animate, name, first] = 0 :=
    depthOver_of_forall (by simp [not_bracket_of_isWord hanimate, hnameBracket,
      not_bracket_of_isWord hfirst])
  have hbefore : depthOver 0 ([animate, name, first] ++ (starts ++ [second])) = 0 := by
    rw [depthOver_append, depthOver_append, hhead, depthOver_of_nested hstarts.properlyNested]
    exact depthOver_of_forall (by simp [not_bracket_of_isWord hsecond])
  have hfrom : findTopLevel ts "FROM" 2 = some 2 := by
    rw [hatTo]
    exact findTopLevel_eq_some [animate, name] []
      (depthOver_of_forall (by simp [not_bracket_of_isWord hanimate, hnameBracket])) rfl
      (fun u hu => absurd hu (not_outsideFrom_nil 0 u)) hfirst
  obtain ⟨hto, hstartTokens, -⟩ := divided_at_word (n := 3) _ _ hatTo rfl hhead
    hstarts.properlyNested (fun u hu => hstarts.isWord_eq_false hstart hu) hsecond
  obtain ⟨hstep, hstopTokens, hstepTokens⟩ := divided_at_word _ _ hatStep hlen hbefore
    hstops.properlyNested (fun u hu => hstops.isWord_eq_false hstop hu) hthird
  obtain ⟨rest, hrest⟩ : ∃ rest, ts = animate :: name :: rest := ⟨_, hall.symm⟩
  have hword : expectWord l ["ANIMATE"] ts = .ok (name :: rest) := by
    rw [hrest, expectWord_cons hanimate]
  refine parse_of_isWord (htokens.trans hrest) hanimate rfl ?_
  rw [← hrest, readAnimation, hword, ok_bind, expect_cons hname, ok_bind]
  dsimp only
  rw [hfrom, Option.getD_some, hto, Option.getD_some, hstep]
  show (if _ then _ else _) = _
  rw [hstartTokens, hstopTokens, hstepTokens, hstarts.textOf_eq, hstops.textOf_eq,
    hsteps.textOf_eq, start.isEmpty_ofList, stop.isEmpty_ofList, step.isEmpty_ofList, hvalue]
  rfl

theorem parse_vectorField {name : List Char} {grid : Option Count} (hname : IsName name)
    (hbegin : (upperName (String.ofList name)).startsWith "VEC_" = true)
    (hgrid : ∀ n ∈ grid, 2 ≤ n.value ∧ n.value ≤ maxGridSize)
    (hl : l.text = (GrammarLine.vectorField name grid hname hbegin hgrid).render sp) :
    parse l = .ok ⟨l.line,
      .vectorField (String.ofList name) ((grid.map Count.value).getD defaultGridSize)⟩ := by
  have hline := endTokens_tokenize hl
  cases grid with
  | none =>
      obtain ⟨plot, ts, htokens, hplot, hline⟩ := hline.spaced_word sp (by decide)
      obtain ⟨t, rfl, hkind, hvalue⟩ := hline.last_name hname
      refine parse_of_isWord htokens hplot rfl ?_
      rw [readVectorField, expectWord_cons hplot, ok_bind, expect_cons hkind, ok_bind]
      dsimp only
      rw [hvalue, hbegin]
      rfl
  | some n =>
      obtain ⟨plot, ts, htokens, hplot, hline⟩ := hline.spaced_word sp (by decide)
      obtain ⟨t, ts, rfl, hkind, hvalue, hline⟩ := hline.spaced_name hname
      obtain ⟨g, ts, rfl, hg, hline⟩ := hline.spaced_word sp (by decide)
      refine parse_of_isWord htokens hplot rfl ?_
      rw [readVectorField, expectWord_cons hplot, ok_bind, expect_cons hkind, ok_bind]
      dsimp only
      rw [hvalue, hbegin, if_neg (by decide), hg, if_pos rfl,
        Count.wholeNumber_of_partOf (n := n) hline.last, ok_bind]
      obtain ⟨hmin, hmax⟩ := hgrid n rfl
      dsimp only
      rw [if_neg]
      · rfl
      · simp only [Bool.or_eq_true, decide_eq_true_eq]
        omega

theorem parse_tensorField {name : List Char} {glyph : String} (hname : IsName name)
    (hbegin : (upperName (String.ofList name)).startsWith "TENSOR_" = true)
    (hglyph : glyph ∈ glyphKinds)
    (hl : l.text = (GrammarLine.tensorField name glyph hname hbegin hglyph).render sp) :
    parse l = .ok ⟨l.line, .tensorField (String.ofList name) glyph⟩ := by
  obtain rfl := List.mem_singleton.mp hglyph
  have hline := endTokens_tokenize hl
  obtain ⟨plot, ts, htokens, hplot, hline⟩ := hline.spaced_word sp (by decide)
  obtain ⟨t, ts, rfl, hkind, hvalue, hline⟩ := hline.spaced_name hname
  obtain ⟨as, ts, rfl, has, hline⟩ := hline.spaced_word sp (by decide)
  obtain ⟨glyph, ts, rfl, hglyphWord, hline⟩ := hline.spaced_word sp (by decide)
  have hquoted : tokenize ('\'' :: ("ELLIPSOID".toList ++ ['\''])) =
      [⟨.string, "'ELLIPSOID'".toList, 0⟩] := by
    decide +kernel
  have hupper : String.ofList (upper (trim (("'ELLIPSOID'".toList.drop 1).dropLast))) =
      "ELLIPSOID" := by
    decide +kernel
  obtain ⟨n, rfl⟩ := hline.last.kinds
  rw [spaced, hquoted] at htokens hline
  have hstring : (Token.moved n ⟨.string, "'ELLIPSOID'".toList, 0⟩).kind = .string := rfl
  refine parse_of_isWord htokens hplot rfl ?_
  rw [readTensorField, expectWord_cons hplot, ok_bind, expect_cons hkind, ok_bind]
  dsimp only
  rw [hvalue, hbegin, if_neg (by decide), expectWord_cons has, ok_bind,
    expectWord_cons hglyphWord, ok_bind, List.map_cons, List.map_nil, expect_cons hstring, ok_bind,
    expectEnd, ok_bind, Token.moved_text, hupper]
  rfl

end Readers

/-! ## Definitions -/

section Definitions

variable {gap s : List Char} {ts : List Token}

theorem readParams_of_listed (hgap : ∀ c ∈ gap, isBlank c = true) {ps : List (List Char)}
    (hne : ps ≠ []) (hps : ∀ p ∈ ps, IsName p)
    (h : EndTokens l.text (listed gap ps ++ ')' :: s) ts) :
    ∃ vs, EndTokens l.text s vs ∧ ts.head?.map Token.kind = some .ident ∧
      ∀ fuel, ts.length ≤ fuel → readParams l fuel ts = .ok (ps.map String.ofList, vs) := by
  induction ps generalizing ts with
  | nil => exact absurd rfl hne
  | cons p ps ih =>
      obtain ⟨hp, hps⟩ := List.forall_mem_cons.mp hps
      cases ps with
      | nil =>
          obtain ⟨t, ts, rfl, hkind, htext, h⟩ :=
            EndTokens.name hp (apart_cons (by decide +kernel) s) h
          obtain ⟨u, vs, rfl, hclose, h⟩ := h.symbol (by decide) rfl
          refine ⟨vs, h, congrArg some hkind, fun fuel hfuel => ?_⟩
          cases fuel with
          | zero => cases hfuel
          | succ fuel =>
              rw [readParams, expect_cons hkind, ok_bind]
              dsimp only
              rw [hclose, Token.value, htext]
              rfl
      | cons p' ps =>
          rw [listed_cons_cons, List.append_assoc, List.cons_append, List.append_assoc] at h
          obtain ⟨t, ts, rfl, hkind, htext, h⟩ := h.name hp (apart_cons (by decide +kernel) _)
          obtain ⟨u, ts, rfl, hcomma, h⟩ := h.comma hgap
          obtain ⟨vs, hend, -, hread⟩ := ih (List.cons_ne_nil _ _) hps h
          refine ⟨vs, hend, congrArg some hkind, fun fuel hfuel => ?_⟩
          cases fuel with
          | zero => cases hfuel
          | succ fuel =>
              rw [readParams, expect_cons hkind, ok_bind]
              dsimp only
              rw [hcomma, hread fuel (by simp at hfuel; omega), Token.value, htext]
              rfl

theorem readParamList_of_listed (hgap : ∀ c ∈ gap, isBlank c = true) {ps : List (List Char)}
    (hps : ∀ p ∈ ps, IsName p) (h : EndTokens l.text ('(' :: (listed gap ps ++ ')' :: s)) ts) :
    ∃ vs, EndTokens l.text s vs ∧ readParamList l ts = .ok (some (ps.map String.ofList), vs) := by
  obtain ⟨t, ts, rfl, hopen, h⟩ := h.symbol (by decide) rfl
  cases ps with
  | nil =>
      obtain ⟨u, vs, rfl, hclose, h⟩ := h.symbol (by decide) rfl
      refine ⟨vs, h, ?_⟩
      rw [readParamList, hopen, hclose]
      rfl
  | cons p ps =>
      obtain ⟨vs, hend, hhead, hread⟩ := readParams_of_listed hgap (List.cons_ne_nil _ _) hps h
      refine ⟨vs, hend, ?_⟩
      cases ts with
      | nil => cases hhead
      | cons u ts =>
          have hident : u.kind = .ident := Option.some.inj hhead
          rw [readParamList, hopen, hident, hread _ (Nat.le_refl _)]
          rfl

/-- The name of a definition and its parameter list, in front of the
equals sign. -/
theorem readParamList_of_head (sp : Spelling) (d : DefinitionLine)
    (h : EndTokens l.text (d.head sp ++ ' ' :: '=' :: ' ' :: s) ts) :
    ∃ t rest u vs, ts = t :: rest ∧ t.kind = .ident ∧ t.value = String.ofList d.name ∧
      readParamList l rest = .ok (d.params.map (List.map String.ofList), u :: vs) ∧
      u.kind = .equals ∧ EndTokens l.text s vs := by
  have hequals : ∀ {rest : List Token}, EndTokens l.text (' ' :: '=' :: ' ' :: s) rest →
      ∃ u vs, rest = u :: vs ∧ u.kind = .equals ∧ EndTokens l.text s vs := by
    intro rest hrest
    obtain ⟨u, vs, rfl, hkind, hend⟩ := (hrest.blank (by decide)).symbol (by decide) rfl
    exact ⟨u, vs, rfl, hkind, hend.blank (by decide)⟩
  have hareNames := d.areNames
  rw [DefinitionLine.head] at h
  cases hparams : d.params with
  | none =>
      rw [hparams] at h
      obtain ⟨t, rest, rfl, hkind, htext, h⟩ := h.name d.isName (apart_cons (by decide +kernel) _)
      obtain ⟨u, vs, rfl, hu, hend⟩ := hequals h
      refine ⟨t, u :: vs, u, vs, rfl, hkind, by rw [Token.value, htext], ?_, hu, hend⟩
      rw [readParamList.eq_def]
      dsimp only
      rw [hu]
      rfl
  | some ps =>
      rw [hparams] at h hareNames
      dsimp only at h
      rw [List.append_assoc, List.cons_append, List.append_assoc, List.singleton_append] at h
      obtain ⟨t, rest, rfl, hkind, htext, h⟩ := h.name d.isName (apart_cons (by decide +kernel) _)
      obtain ⟨rest', hrest, hread⟩ := readParamList_of_listed sp.gap_blank hareNames h
      obtain ⟨u, vs, rfl, hu, hend⟩ := hequals hrest
      exact ⟨t, rest, u, vs, rfl, hkind, by rw [Token.value, htext], hread, hu, hend⟩

theorem repeated_eq_nil {ps : List (List Char)} (h : ps.Nodup) :
    ((ps.map String.ofList).filter fun p => (ps.map String.ofList).count p > 1).mergeSort
      (· ≤ ·) = [] := by
  have hnodup : (ps.map String.ofList).Nodup :=
    h.map fun a b hab => by simpa using congrArg String.toList hab
  have hnil : (ps.map String.ofList).filter (fun p => (ps.map String.ofList).count p > 1) = [] := by
    rw [List.filter_eq_nil_iff]
    intro p hp
    have := List.nodup_iff_count_le_one.mp hnodup p
    simpa using this
  rw [hnil, List.mergeSort_nil]

theorem parse_define (sp : Spelling) {d : DefinitionLine}
    (hl : l.text = (GrammarLine.define d).render sp) : parse l = .ok ⟨l.line, d.node⟩ := by
  have hline := endTokens_tokenize hl
  obtain ⟨head, ts, htokens, hdef, hline⟩ := hline.spaced_word sp (by decide)
  obtain ⟨t, rest, u, body, rfl, hkind, hvalue, hparams, hu, hline⟩ :=
    readParamList_of_head sp d hline
  have hbody : PartOf l.text d.body.text body := hline.last
  refine parse_of_isWord htokens hdef rfl ?_
  rw [readDefinition, expectWord_cons hdef, ok_bind, expect_cons hkind, ok_bind]
  dsimp only
  rw [hparams, ok_bind]
  dsimp only
  have hgetD : (d.params.map (List.map String.ofList)).getD [] =
      (d.params.getD []).map String.ofList := by
    cases d.params <;> rfl
  rw [hgetD, repeated_eq_nil d.distinct]
  dsimp only
  rw [expect_cons hu, ok_bind]
  dsimp only
  rw [hbody.textOf_eq, hvalue, d.legal, d.body.isEmpty_ofList]
  simp only [Bool.not_true, Bool.false_eq_true, if_false, ite_self]
  obtain ⟨n, hkinds⟩ := hbody.kinds
  have hvector := fun h => hkinds ▸ (d.vector h).map (Token.moved_kind n)
  have htensor := fun h => hkinds ▸ (d.tensor h).map (Token.moved_kind n)
  split
  · rw [checkVectorBody_of_shape (hvector ‹_›)]
    rfl
  · split
    · rw [checkTensorBody_of_shape (htensor ‹_›)]
      rfl
    · rw [hbody.properlyNested]
      rfl

end Definitions

end Statement

/-! ## All lines -/

/-- Reading undoes writing: the line of a statement says this statement. -/
theorem GrammarLine.parse_render (g : GrammarLine) (sp : Spelling) (n : Nat) :
    Statement.parse ⟨g.render sp, n⟩ = .ok ⟨n, g.node⟩ := by
  cases g with
  | range axis low high h => exact Statement.parse_range sp h rfl
  | colorMap name h => exact Statement.parse_colorMap sp h rfl
  | particles count h => exact Statement.parse_particles sp h rfl
  | contour first others => exact Statement.parse_contour sp rfl
  | label text x y z => exact Statement.parse_label sp rfl
  | define d => exact Statement.parse_define sp rfl
  | surface expr => exact Statement.parse_surface sp rfl
  | vectorField name grid hname hbegin hgrid => exact Statement.parse_vectorField sp hname hbegin hgrid rfl
  | tensorField name glyph hname hbegin hglyph => exact Statement.parse_tensorField sp hname hbegin hglyph rfl
  | animate parameter start stop step hparameter hstart hstop =>
      exact Statement.parse_animate sp hparameter hstart hstop rfl

/-- Capitals, and one blank behind each comma. -/
def Spelling.capitals : Spelling where
  word := String.toList
  upperName_word w hw := by
    have hall : (grammarWords.all fun w => upperName w == w) = true := by decide +kernel
    rw [String.ofList_toList]
    exact eq_of_beq (List.all_eq_true.mp hall w hw)
  gap := [' ']
  gap_blank := List.forall_mem_singleton.mpr (by decide +kernel)

example : (GrammarLine.particles (.ofNat 500 (by decide +kernel)) (by decide)).render .capitals =
    "PARTICLES 500".toList := by
  decide

/-- A name in the place of an expression. -/
def ExprText.ofName (s : List Char) (h : IsName s) : ExprText where
  text := s
  nonempty := by
    obtain ⟨c, rest, rfl, -, -⟩ := h
    exact List.cons_ne_nil c rest
  trimmed := by
    have hvisible : ∀ {t : List Char}, t ≠ [] → (∀ c ∈ t, c ∈ s) → StartsVisibly t := by
      intro t ht hts
      obtain ⟨c, rest, rfl⟩ := List.exists_cons_of_ne_nil ht
      exact ⟨c, rest, rfl,
        Scan.isBlank_of_isNameChar (h.forall_isNameChar c (hts c List.mem_cons_self))⟩
    have hne : s ≠ [] := by
      obtain ⟨c, rest, rfl, -, -⟩ := h
      exact List.cons_ne_nil c rest
    exact trim_eq_self (hvisible hne fun _ hc => hc)
      (hvisible (List.reverse_ne_nil_iff.mpr hne) fun _ hc => List.mem_reverse.mp hc)
  nested := by
    rw [tokenize, Scan.tokensFrom_name h]
    rfl
  closed := by
    rw [tokenize, Scan.tokensFrom_name h]
    exact List.forall_mem_singleton.mpr fun hkind => by cases hkind

/-- A name in the place of a position. -/
def PositionText.ofName (s : List Char) (h : IsName s) (hat : upperName (String.ofList s) ≠ "AT") :
    PositionText where
  toExprText := .ofName s h
  noAt := by
    show ∀ t, OutsideBrackets (tokenize s) t → _
    rw [tokenize, Scan.tokensFrom_name h]
    rintro t ⟨before, after, hsplit, -⟩
    have hmem : t ∈ [(⟨.ident, s, 0⟩ : Token)] := hsplit ▸ List.mem_append_right _ List.mem_cons_self
    obtain rfl := List.mem_singleton.mp hmem
    exact Bool.eq_false_iff.mpr fun hword => hat (Statement.isWord_singleton.mp hword).2
  noComma := by
    show ∀ t, OutsideBrackets (tokenize s) t → _
    rw [tokenize, Scan.tokensFrom_name h]
    rintro t ⟨before, after, hsplit, -⟩
    have hmem : t ∈ [(⟨.ident, s, 0⟩ : Token)] := hsplit ▸ List.mem_append_right _ List.mem_cons_self
    obtain rfl := List.mem_singleton.mp hmem
    exact Kind.noConfusion

/-- A text with the word that divides a label. -/
def textWithAt : ExprText where
  text := "n AT t".toList
  nonempty := by decide
  trimmed := by decide +kernel
  nested := by decide +kernel
  closed := by
    unfold Scan.NoOpenQuote
    decide +kernel

theorem parse_label_at : Statement.parse ⟨"LABEL n AT t AT x, y, x".toList, 1⟩ =
    .ok ⟨1, .label "n AT t" ("x", "y", "x")⟩ := by
  have hx : IsName ['x'] := isName_of_all (by decide +kernel)
  have hy : IsName ['y'] := isName_of_all (by decide +kernel)
  let x := PositionText.ofName ['x'] hx (by decide +kernel)
  let y := PositionText.ofName ['y'] hy (by decide +kernel)
  exact GrammarLine.parse_render (.label textWithAt x y x) .capitals 1

end FieldScript
