import FieldScript.Proofs.Outcome
import FieldScript.Statement

/-!
# What lines are read as

What a reader of statements returns, if it returns one: a statement of
its kind, with the numbers that were read from its tokens. The lemma for
each reader says this for every property, and `body_of_parse` puts them
together for the lines that are read.
-/

namespace FieldScript
namespace Statement

/-! ## Results that have a property -/

section Yields

variable {α β : Type} {l : LogicalLine} {Q : α → Prop}

/-- A value, if there is one, has the property. -/
def Yields (Q : α → Prop) (r : Except Failure α) : Prop := ∀ a, r = .ok a → Q a

theorem yields_pure {a : α} (h : Q a) : Yields Q (pure a) := by
  intro b hb
  cases hb
  exact h

theorem yields_fail (fault : StatementFault) : Yields Q (fail l fault) := by
  intro b hb
  cases hb

theorem yields_bind {r : Except Failure β} {k : β → Except Failure α}
    (h : ∀ b, r = .ok b → Yields Q (k b)) : Yields Q (r >>= k) := by
  intro a ha
  obtain ⟨b, hr, hb⟩ := bind_eq_ok.mp ha
  exact h b hr a hb

theorem yields_fail_bind (fault : StatementFault) (k : β → Except Failure α) :
    Yields Q (fail l fault >>= k) := by
  intro a ha
  cases ha

theorem yields_unless {c : Prop} [Decidable c] {fault : StatementFault}
    {k : Unit → Except Failure α} (h : ¬ c → Yields Q (k ())) :
    Yields Q (if c then fail l fault >>= k else k ()) := by
  split
  · exact yields_fail_bind fault k
  · exact h ‹_›

end Yields

/-! ## Tokens that are read -/

section Tokens

variable {l : LogicalLine} {ts rest : List Token}

theorem expect_eq_ok {kind : Kind} {wanted : String} {t : Token}
    (h : expect l kind wanted ts = .ok (t, rest)) : ts = t :: rest ∧ t.kind = kind := by
  cases ts with
  | nil => cases h
  | cons u ts =>
      rw [expect] at h
      split at h
      · obtain ⟨rfl, rfl⟩ := Prod.mk.inj (Except.ok.inj h)
        exact ⟨rfl, eq_of_beq ‹_›⟩
      · cases h

theorem expectWord_eq_ok {words : List String} (h : expectWord l words ts = .ok rest) :
    ∃ t, ts = t :: rest ∧ t.isWord words = true := by
  cases ts with
  | nil => cases h
  | cons t ts =>
      rw [expectWord] at h
      split at h
      · obtain rfl := Except.ok.inj h
        exact ⟨t, rfl, ‹_›⟩
      · cases h

end Tokens

/-! ## The readers -/

section Readers

variable {l : LogicalLine} {ts : List Token} {Q : StatementBody → Prop}

theorem yields_readRange
    (h : ∀ axis i low high, findTopLevel ts "TO" 3 = some i →
      number l "RANGE" (between ts 3 i) = .ok low →
      number l "RANGE" (ts.drop (i + 1)) = .ok high → Q (.range axis low high)) :
    Yields Q (readRange l ts) := by
  unfold readRange
  refine yields_bind fun _ _ => yields_bind fun _ _ => yields_bind fun _ _ => ?_
  dsimp only
  split
  case h_4 => exact yields_fail_bind _ _
  -- Whatever the axis, the bounds are read in the same way.
  all_goals
    refine yields_bind fun axis _ => ?_
    split
    · exact yields_fail _
    · rename_i i hto
      refine yields_bind fun low hlow => yields_bind fun high hhigh => ?_
      exact yields_unless fun _ => yields_pure (h axis i low high hto hlow hhigh)

theorem yields_readColorMap (h : ∀ name, Q (.colorMap name)) : Yields Q (readColorMap l ts) := by
  unfold readColorMap
  refine yields_bind fun _ _ => yields_bind fun _ _ => yields_bind fun _ _ => ?_
  exact yields_bind fun _ _ => yields_unless fun _ => yields_pure (h _)

theorem yields_readParticles
    (h : ∀ n, wholeNumber (ts.drop 1) = .ok (some n) → Q (.particles n)) :
    Yields Q (readParticles l ts) := by
  unfold readParticles
  refine yields_bind fun rest hword => yields_bind fun n? hcount => ?_
  obtain ⟨t, rfl, -⟩ := expectWord_eq_ok hword
  cases n? with
  | none => exact yields_fail _
  | some n => exact yields_unless fun _ => yields_unless fun _ => yields_pure (h n hcount)

theorem yields_readContour
    (h : ∀ levels, ((splitTopLevel (ts.drop 2)).filter (!·.isEmpty)).mapM
      (number l "CONTOUR LEVELS") = .ok levels → Q (.contour levels)) :
    Yields Q (readContour l ts) := by
  unfold readContour
  refine yields_bind fun rest hword => yields_bind fun rest' hword' => ?_
  obtain ⟨t, rfl, -⟩ := expectWord_eq_ok hword
  obtain ⟨u, rfl, -⟩ := expectWord_eq_ok hword'
  exact yields_unless fun _ => yields_bind fun levels hlevels => yields_pure (h levels hlevels)

theorem yields_readLabel (h : ∀ text position, Q (.label text position)) :
    Yields Q (readLabel l ts) := by
  unfold readLabel
  refine yields_bind fun _ _ => ?_
  split
  · exact yields_fail _
  · refine yields_unless fun _ => ?_
    split
    · exact yields_unless fun _ => yields_pure (h _ _)
    · exact yields_fail _

theorem yields_readDefinition
    (h : ∀ name params body,
      (definitionPrefixes.any fun p => (upperName name).startsWith p) = true →
      Q (.define name params body)) :
    Yields Q (readDefinition l ts) := by
  unfold readDefinition
  refine yields_bind fun _ _ => yields_bind fun ⟨token, _⟩ _ => yields_bind fun ⟨params?, _⟩ _ => ?_
  dsimp only
  split
  · exact yields_fail_bind _ _
  · refine yields_bind fun ⟨_, bodyTokens⟩ _ => ?_
    have hbody : ∀ params body, Q (.define token.value params body) → Yields Q (
        if (upperName token.value).startsWith "VEC_" = true then do
          let _ ← checkVectorBody l bodyTokens
          pure (.define token.value params body)
        else if (upperName token.value).startsWith "TENSOR_" = true then do
          let _ ← checkTensorBody l bodyTokens
          pure (.define token.value params body)
        else if (!properlyNested bodyTokens) = true then do
          let _ ← fail (α := Unit) l (StatementFault.unbalanced token.value)
          pure (.define token.value params body)
        else pure (.define token.value params body)) := by
      intro params body hdefine
      split
      · exact yields_bind fun _ _ => yields_pure hdefine
      · split
        · exact yields_bind fun _ _ => yields_pure hdefine
        · exact yields_unless fun _ => yields_pure hdefine
    dsimp only
    split <;> refine yields_unless fun hlegal => yields_unless fun _ => hbody _ _ (h _ _ _ ?_) <;>
      simpa using hlegal

theorem yields_readSurface (h : ∀ expr, Q (.surface expr)) : Yields Q (readSurface l ts) := by
  unfold readSurface
  exact yields_bind fun _ _ => yields_unless fun _ => yields_pure (h _)

theorem yields_readVectorField
    (hdefault : ∀ name, ts.length ≤ 2 → Q (.vectorField name defaultGridSize))
    (hgrid : ∀ name n, 2 < ts.length → wholeNumber (ts.drop 3) = .ok (some n) →
      Q (.vectorField name n)) :
    Yields Q (readVectorField l ts) := by
  unfold readVectorField
  refine yields_bind fun rest hword => yields_bind fun ⟨token, rest'⟩ hname => ?_
  obtain ⟨t, rfl, -⟩ := expectWord_eq_ok hword
  obtain ⟨rfl, -⟩ := expect_eq_ok hname
  refine yields_unless fun _ => ?_
  cases rest' with
  | nil => exact yields_pure (hdefault _ (Nat.le_refl 2))
  | cons g more =>
      dsimp only
      split
      · refine yields_bind fun n? hsize => ?_
        cases n? with
        | none => exact yields_fail _
        | some n => exact yields_unless fun _ => yields_pure (hgrid _ n (by simp) hsize)
      · exact yields_fail _

theorem yields_readTensorField (h : ∀ name glyph, Q (.tensorField name glyph)) :
    Yields Q (readTensorField l ts) := by
  unfold readTensorField
  refine yields_bind fun _ _ => yields_bind fun _ _ => yields_unless fun _ => ?_
  refine yields_bind fun _ _ => yields_bind fun _ _ => yields_bind fun _ _ => ?_
  exact yields_bind fun _ _ => yields_unless fun _ => yields_pure (h _ _)

theorem yields_readAnimation
    (h : ∀ parameter start stop step, Q (.animate parameter start stop step)) :
    Yields Q (readAnimation l ts) := by
  unfold readAnimation
  refine yields_bind fun _ _ => yields_bind fun _ _ => ?_
  dsimp only
  split
  · exact yields_unless fun _ => yields_pure (h _ _ _ _)
  · exact yields_fail _

/-- What every reader yields holds of the lines that are read. -/
theorem body_of_parse {s : Statement} (h : parse l = .ok s)
    (hread : ∀ word read, reader? word = some read → Yields Q (read l (tokenize l.text))) :
    Q s.body := by
  unfold parse at h
  dsimp only at h
  split at h
  · rename_i read hreader
    obtain ⟨t, -, hreader⟩ := Option.bind_eq_some_iff.mp hreader
    split at hreader
    · cases hbody : read l (tokenize l.text) with
      | error f =>
          rw [hbody] at h
          cases h
      | ok body =>
          rw [hbody] at h
          obtain rfl := Except.ok.inj h
          exact hread _ read hreader body hbody
    · cases hreader
  · cases h

end Readers

end Statement
end FieldScript
