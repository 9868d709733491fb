import FieldScript.Proofs.TermReadings

/-!
# Readings of sums

A sum of lexemes that are read as sums themselves has their addends one after
the other, whatever pluses stand in front of them
(`Term.SumOf.addends_ofLexemes?`). In a product that begins with a plus, the
plus is a sign of its first factor; `Term.unsigned` leaves such pluses out.
-/

namespace FieldScript
namespace Term

variable {suffix : List Lexeme}

/-! ## Addends -/

/-- Whether the operator joins the operands of a product. -/
def isFactorOp : BinaryOp → Bool
  | .mul | .div | .floorDiv | .mod => true
  | _ => false

/-- The term without the pluses in front of it or of its first factor. -/
def unsigned : Term → Term
  | unary .plus a => unsigned a
  | binary op a b => if isFactorOp op then binary op (unsigned a) b else binary op a b
  | t => t

/-- The addends of a sum, and whether they are subtracted. -/
def addends : Term → List (Bool × Term)
  | unary .plus a => addends a
  | binary .add a b => addends a ++ addends b
  | binary .sub a b => addends a ++ [(true, b)]
  | t => [(false, unsigned t)]

/-- The terms differ in pluses in front of them only. -/
structure SameUnsigned (t t' : Term) : Prop where
  unsigned : t.unsigned = t'.unsigned
  addends : t.addends = t'.addends

theorem sameUnsigned_plus (t : Term) : SameUnsigned t (unary .plus t) := ⟨rfl, rfl⟩

theorem addends_factor {op : BinaryOp} (hop : isFactorOp op = true) (a b : Term) :
    (binary op a b).addends = [(false, binary op a.unsigned b)] := by
  cases op <;> first | rfl | cases hop

theorem SameUnsigned.factor {op : BinaryOp} {t t' : Term} (h : SameUnsigned t t') (hop : isFactorOp op = true)
    (b : Term) : SameUnsigned (binary op t b) (binary op t' b) := by
  refine ⟨?_, ?_⟩
  · rw [Term.unsigned, Term.unsigned, if_pos hop, if_pos hop, h.unsigned]
  · rw [addends_factor hop, addends_factor hop, h.unsigned]

theorem isFactorOp_of_product {s : String} {op : BinaryOp} (h : Level.operator? .product s = some op) :
    isFactorOp op = true := by
  unfold Level.operator? at h
  split at h <;> cases h <;> first | rfl | cases ‹Level.product = _›

theorem add_or_sub_of_sum {s : String} {op : BinaryOp} (h : Level.operator? .sum s = some op) :
    op = .add ∨ op = .sub := by
  unfold Level.operator? at h
  split at h <;> cases h <;> first | exact .inl rfl | exact .inr rfl | cases ‹Level.sum = _›

section Sums

variable {ls rest : List Lexeme} {a a' b t : Term}

/-- Pluses in front of a product stay in front of it. -/
theorem Chains.product_congr (h : Chains .product a ls t rest) :
    ∀ a', SameUnsigned a a' → ∃ t', Chains .product a' ls t' rest ∧ SameUnsigned t t' := by
  refine h.induction (P := fun a ls =>
    ∀ a', SameUnsigned a a' → ∃ t', Chains .product a' ls t' rest ∧ SameUnsigned t t')
    (fun hstop a' ha => ⟨a', .stop hstop, ha⟩) fun hop hb ih a' ha => ?_
  obtain ⟨t', ht', hsame⟩ := ih _ (ha.factor (isFactorOp_of_product hop) _)
  exact ⟨t', .cons hop hb ht', hsame⟩

theorem Reads.plus_sign (h : Reads .sign ls t rest) : Reads .sign (.op "+" :: ls) (.unary .plus t) rest := by
  obtain ⟨n, hn⟩ := h
  refine ⟨n + 1, ?_⟩
  rw [expr?.eq_def]
  exact Option.bind_eq_some_iff.mpr ⟨_, hn, rfl⟩

theorem Reads.plus_product (h : Reads .product ls t rest) :
    ∃ t', Reads .product (.op "+" :: ls) t' rest ∧ SameUnsigned t t' := by
  obtain ⟨a, rest₁, ha, hchain⟩ := (reads_chain rfl).mp h
  obtain ⟨t', ht', hsame⟩ := hchain.product_congr _ (sameUnsigned_plus a)
  exact ⟨t', (reads_chain rfl).mpr ⟨_, rest₁, Reads.plus_sign ha, ht'⟩, hsame⟩

/-- What follows the first operand of a sum adds the same addends to any. -/
theorem Chains.addends (h : Chains .sum a ls t rest) :
    ∃ more, ∀ a', ∃ t', Chains .sum a' ls t' rest ∧ t'.addends = a'.addends ++ more := by
  refine h.induction (P := fun _ ls =>
    ∃ more, ∀ a', ∃ t', Chains .sum a' ls t' rest ∧ t'.addends = a'.addends ++ more)
    (fun hstop => ⟨[], fun a' => ⟨a', .stop hstop, (List.append_nil _).symm⟩⟩) ?_
  rintro - s op b ls rest₁ hop hb ⟨more, hmore⟩
  have hsigned : ∃ first, ∀ a', (binary op a' b).addends = a'.addends ++ first := by
    rcases add_or_sub_of_sum hop with rfl | rfl
    · exact ⟨b.addends, fun a' => by rw [Term.addends]⟩
    · exact ⟨[(true, b)], fun a' => by rw [Term.addends]⟩
  obtain ⟨first, hfirst⟩ := hsigned
  refine ⟨first ++ more, fun a' => ?_⟩
  obtain ⟨t', ht', haddends⟩ := hmore (binary op a' b)
  exact ⟨t', .cons hop hb ht', by rw [haddends, hfirst, List.append_assoc]⟩

/-- The addends of a sum are those of what it begins with, and of what
follows. -/
theorem Chains.addends_eq (h : Chains .sum a ls t rest) :
    ∃ more, t.addends = a.addends ++ more ∧
      ∀ a', ∃ t', Chains .sum a' ls t' rest ∧ t'.addends = a'.addends ++ more := by
  obtain ⟨more, hmore⟩ := h.addends
  obtain ⟨t', ⟨n', ht'⟩, haddends⟩ := hmore a
  obtain ⟨n, h⟩ := h
  have heq := (chain?_mono h (Nat.le_max_left n n')).symm.trans (chain?_mono ht' (Nat.le_max_right n n'))
  obtain ⟨rfl, -⟩ := Prod.mk.inj (Option.some.inj heq)
  exact ⟨more, haddends, hmore⟩

/-- A sum goes on with what follows it. -/
theorem Chains.trans (h : Chains .sum a ls t []) (hfollows : Follows .product suffix)
    (hnext : Chains .sum t suffix b rest) : Chains .sum a (ls ++ suffix) b rest := by
  refine h.induction (P := fun a ls => Chains .sum a (ls ++ suffix) b rest) (fun _ => hnext)
    fun hop hb ih => .cons hop (hb.append fun _ => hfollows) ih

end Sums

/-! ## Sums of lexemes -/

/-- The lexemes are those of these operands with a plus before each but the
first; more pluses may stand in front of each. -/
inductive SumOf : List (List Lexeme) → List Lexeme → Prop
  | last (ls : List Lexeme) : SumOf [ls] ls
  | plus {os : List (List Lexeme)} {ls : List Lexeme} (h : SumOf os ls) : SumOf os (.op "+" :: ls)
  | cons (o : List Lexeme) {os : List (List Lexeme)} {ls : List Lexeme} (h : SumOf os ls) :
      SumOf (o :: os) (o ++ .op "+" :: ls)

theorem SumOf.ne_nil {os : List (List Lexeme)} {ls : List Lexeme} (h : SumOf os ls) : os ≠ [] := by
  induction h with
  | last | cons => exact List.cons_ne_nil _ _
  | plus _ ih => exact ih

/-- Operands that are read as sums make up a sum with their addends. -/
theorem SumOf.reads {os : List (List Lexeme)} {ls : List Lexeme} {ts : List Term} (h : SumOf os ls)
    (hos : List.Forall₂ (fun o t => Reads .sum o t []) os ts) (hsuffix : Follows .sum suffix) :
    ∃ t, Reads .sum (ls ++ suffix) t suffix ∧ t.addends = ts.flatMap addends := by
  induction h generalizing ts with
  | last ls =>
      obtain ⟨t, ts, ht, hnil, rfl⟩ := List.forall₂_cons_left_iff.mp hos
      cases hnil
      exact ⟨t, ht.append fun _ => hsuffix, (List.append_nil _).symm⟩
  | plus _ ih =>
      obtain ⟨t, ht, haddends⟩ := ih hos
      obtain ⟨a, rest₁, ha, hchain⟩ := (reads_chain rfl).mp ht
      obtain ⟨a', ha', hsame⟩ := Reads.plus_product ha
      obtain ⟨more, hmore, hagain⟩ := hchain.addends_eq
      obtain ⟨t', ht', haddends'⟩ := hagain a'
      refine ⟨t', (reads_chain rfl).mpr ⟨a', rest₁, ha', ht'⟩, ?_⟩
      rw [haddends', ← hsame.addends, ← hmore, haddends]
  | @cons o os ls _ ih =>
      obtain ⟨t, ts, ht, hts, rfl⟩ := List.forall₂_cons_left_iff.mp hos
      obtain ⟨u, hu, haddends⟩ := ih hts
      -- the sum of the other operands goes on from the first one
      obtain ⟨b, rest₁, hb, hchain⟩ := (reads_chain rfl).mp hu
      obtain ⟨more, hmore, hagain⟩ := hchain.addends_eq
      obtain ⟨t', ht', haddends'⟩ := hagain (.binary .add t b)
      obtain ⟨a, rest₂, ha, hfirst⟩ := (reads_chain rfl).mp ht
      have hfollows : Follows .product (.op "+" :: (ls ++ suffix)) := .plus rfl _
      have hnext : Chains .sum t (.op "+" :: (ls ++ suffix)) t' suffix := .cons rfl hb ht'
      refine ⟨t', ?_, ?_⟩
      · rw [List.append_assoc, List.cons_append]
        exact (reads_chain rfl).mpr ⟨a, _, ha.append fun _ => hfollows, hfirst.trans hfollows hnext⟩
      · show t'.addends = t.addends ++ ts.flatMap addends
        rw [haddends', ← haddends, hmore, ← List.append_assoc]
        rfl

/-! ## Whole texts -/

section Whole

variable {level : Level} {ls rest os : List Lexeme} {t u : Term} {fuel : Nat}

/-- A negation is no operand of a comparison. -/
theorem expr?_not (hlevel : level.isSummand = true ∨ level = .sum) :
    expr? fuel level (.name "not" :: ls) = none := by
  induction fuel generalizing level with
  | zero => rw [expr?]
  | succ fuel ih =>
      rcases hlevel with hlevel | rfl
      · cases level with
        | operand =>
            have hatom : atom? fuel (.name "not" :: ls) = none := by
              cases fuel <;> rw [atom?]
              rfl
            rw [expr?, hatom]
            rfl
        | product =>
            rw [expr?, show Level.product.tighter = .sign from rfl, @ih .sign (.inl rfl)]
            · rfl
            all_goals simp
        | sign =>
            rw [expr?, @ih .power (.inl rfl)]
            simp
        | power =>
            rw [expr?, @ih .operand (.inl rfl)]
            rfl
        | _ => cases hlevel
      · rw [expr?, show Level.sum.tighter = .product from rfl, @ih .product (.inl rfl)]
        · rfl
        all_goals simp

/-- What ends before a closing bracket is an expression of all looser levels
as well. -/
theorem Reads.loosen (h : Reads level.tighter ls t (.op ")" :: rest)) (hlevel : level.isSummand = false)
    (hnot : ls.head? ≠ some (.name "not")) : Reads level ls t (.op ")" :: rest) := by
  obtain ⟨n, h⟩ := h
  cases level with
  | join | meet | shift | sum =>
      refine (reads_chain rfl).mpr ⟨t, _, ⟨n, h⟩, .stop fun s ls' heq => ?_⟩
      cases heq
      rfl
  | choice =>
      refine ⟨n + 1, ?_⟩
      rw [expr?]
      exact Option.bind_eq_some_iff.mpr ⟨_, h, rfl⟩
  | either =>
      refine ⟨n + 1, ?_⟩
      rw [expr?_either]
      exact Option.bind_eq_some_iff.mpr ⟨_, h, rfl⟩
  | both =>
      refine ⟨n + 1, ?_⟩
      rw [expr?_both]
      exact Option.bind_eq_some_iff.mpr ⟨_, h, rfl⟩
  | negation =>
      refine ⟨n + 1, ?_⟩
      rw [expr?.eq_def]
      dsimp only
      split
      · exact absurd rfl hnot
      · exact h
  | comparison =>
      refine ⟨n + 2, ?_⟩
      rw [expr?]
      refine Option.bind_eq_some_iff.mpr ⟨_, expr?_mono h (Nat.le_succ n), ?_⟩
      show comparisons? (n + 1) (.op ")" :: rest) >>= _ = _
      rw [comparisons?.eq_def]
      rfl
  | _ => cases hlevel

theorem Reads.choice_of_sum (h : Reads .sum ls t (.op ")" :: rest)) : Reads .choice ls t (.op ")" :: rest) := by
  have hnot : ls.head? ≠ some (.name "not") := by
    intro hhead
    obtain ⟨ls', rfl⟩ := List.head?_eq_some_iff.mp hhead
    obtain ⟨n, h⟩ := h
    rw [expr?_not (.inr rfl)] at h
    cases h
  have hshift : Reads .shift ls t (.op ")" :: rest) := Reads.loosen h rfl hnot
  have hmeet : Reads .meet ls t (.op ")" :: rest) := Reads.loosen hshift rfl hnot
  have hjoin : Reads .join ls t (.op ")" :: rest) := Reads.loosen hmeet rfl hnot
  have hcomparison : Reads .comparison ls t (.op ")" :: rest) := Reads.loosen hjoin rfl hnot
  have hnegation : Reads .negation ls t (.op ")" :: rest) := Reads.loosen hcomparison rfl hnot
  have hboth : Reads .both ls t (.op ")" :: rest) := Reads.loosen hnegation rfl hnot
  have heither : Reads .either ls t (.op ")" :: rest) := Reads.loosen hboth rfl hnot
  exact Reads.loosen heither rfl hnot

/-- The term of all lexemes, if they are read as a sum. -/
theorem ofLexemes?_unique (h : Reads .sum (ls ++ [.op ")"]) t [.op ")"]) (hu : ofLexemes? ls = some u) : u = t := by
  obtain ⟨⟨items, comma, rest⟩, hitems, hu⟩ := Option.bind_eq_some_iff.mp hu
  rw [fuelFor, show 20 * (ls.length + 2) = 20 * (ls.length + 2) - 1 + 1 by omega, itemsFrom?] at hitems
  obtain ⟨⟨a, rest₁⟩, ha, hitems⟩ := Option.bind_eq_some_iff.mp hitems
  obtain ⟨rfl, rfl⟩ := Reads.unique ⟨_, ha⟩ h.choice_of_sum
  cases hitems
  cases hu
  rfl

/-- The term of a sum of lexemes, each of which is read as a sum, has their
addends one after the other. -/
theorem SumOf.addends_ofLexemes? {os : List (List Lexeme)} {ts : List Term} (h : SumOf os ls)
    (hos : List.Forall₂ (fun o t => Reads .sum o t []) os ts) (ht : ofLexemes? ls = some t) :
    t.addends = ts.flatMap addends := by
  obtain ⟨u, hu, haddends⟩ := h.reads hos (.bracket _ [])
  rw [ofLexemes?_unique hu ht, haddends]

theorem Reads.eq_of_ofLexemes? (h : Reads .sum ls t []) (hu : ofLexemes? ls = some u) : u = t :=
  ofLexemes?_unique (h.append fun _ => .bracket _ []) hu

end Whole

end Term
end FieldScript
