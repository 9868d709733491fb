import FieldScript.Proofs.BracketDepth
import FieldScript.Proofs.Outcome

/-!
# The grammar of bodies

The bodies of vectors and tensors are told by a grammar: a run is `Nested`
if every bracket is closed by one of its kind, with a nested run between
the two, and `[a, b, c]` or `[[a, b], [c, d]]` are made of such runs
(`VectorBody`, `TensorBody`). The checks accept exactly these
(`Statement.checkBody_iff`).

A check uses three scans: one keeps the brackets that are due, one counts
their depth and divides at commas, one looks for the bracket that closes
the first. On a nested run they tell the same: where the depth is zero,
the run in front nests by itself (`outsideBrackets_iff`), so dividing at
commas gives nested groups (`splitTopLevel_divides`).
-/

namespace FieldScript

variable {ts : List Token}

/-! ## Nested runs -/

/-- Each bracket is closed by one of its kind, and the runs inside and
behind the two are nested again. -/
inductive Nested : List Token → Prop
  | nil : Nested []
  | plain {t : Token} {rest : List Token} (hopen : t.kind.closer? = none)
      (hclose : t.kind.isCloser = false) (hrest : Nested rest) : Nested (t :: rest)
  | group {o c : Token} {inside rest : List Token} (hmatch : o.kind.closer? = some c.kind)
      (hinside : Nested inside) (hrest : Nested rest) : Nested (o :: (inside ++ c :: rest))

theorem Kind.isCloser_of_closer? {k c : Kind} (h : k.closer? = some c) : c.isCloser = true := by
  cases k <;> cases h <;> rfl

theorem Nested.append {before after : List Token} (h : Nested before) (hafter : Nested after) :
    Nested (before ++ after) := by
  induction h with
  | nil => exact hafter
  | plain hopen hclose _ ih => exact .plain hopen hclose ih
  | group hmatch hinside _ _ ih =>
      rw [List.cons_append, List.append_assoc, List.cons_append]
      exact .group hmatch hinside ih

theorem Nested.properlyNested (h : Nested ts) : properlyNested ts = true := by
  induction h with
  | nil => rfl
  | plain hopen hclose _ ih => exact nestsWith_cons.mpr ⟨[], .neither [] hopen hclose, ih⟩
  | @group o c inside rest hmatch _ _ hinside hrest =>
      have hclose : nestsWith [c.kind] (c :: rest) = true :=
        nestsWith_cons.mpr ⟨[], .closes [] (Kind.isCloser_of_closer? hmatch), hrest⟩
      have hgroup : nestsWith ([] ++ [c.kind]) (inside ++ c :: rest) = true :=
        nestsWith_append hinside hclose
      exact nestsWith_cons.mpr ⟨_, .opens [] hmatch, hgroup⟩

/-- The run closes the brackets that are due, with nested runs in front of
each of them and behind the last. -/
inductive Closes : List Kind → List Token → Prop
  | done {ts : List Token} (h : Nested ts) : Closes [] ts
  | close {due : List Kind} {inside rest : List Token} (c : Token) (hinside : Nested inside)
      (hrest : Closes due rest) : Closes (c.kind :: due) (inside ++ c :: rest)

theorem Closes.prepend {due : List Kind} {before : List Token} (h : Closes due ts)
    (hbefore : Nested before) : Closes due (before ++ ts) := by
  cases h with
  | done h => exact .done (hbefore.append h)
  | close c hinside hrest =>
      rw [← List.append_assoc]
      exact .close c (hbefore.append hinside) hrest

theorem closes_of_nestsWith {due : List Kind} (h : nestsWith due ts = true) : Closes due ts := by
  induction ts generalizing due with
  | nil =>
      obtain rfl := List.isEmpty_iff.mp h
      exact .done .nil
  | cons t ts ih =>
      obtain ⟨due', hpass, h⟩ := nestsWith_cons.mp h
      have hrest := ih h
      cases hpass with
      | neither _ hopen hclose => exact hrest.prepend (.plain hopen hclose .nil)
      | closes _ _ => exact .close t .nil hrest
      | opens _ hmatch =>
          -- The bracket is closed where the rest closes the first that is due.
          cases hrest with
          | @close _ inside rest c hinside hrest =>
              have hgroup := hrest.prepend (.group hmatch hinside .nil)
              rwa [List.cons_append, List.append_assoc, List.singleton_append] at hgroup

theorem properlyNested_iff : properlyNested ts = true ↔ Nested ts := by
  refine ⟨fun h => ?_, Nested.properlyNested⟩
  cases closes_of_nestsWith h with
  | done h => exact h

/-! ## Outside all brackets -/

/-- Where the depth has come down to zero, nothing is due any more. -/
theorem nestsWith_of_depthOver {due : List Kind} {before after : List Token}
    (h : nestsWith due (before ++ after) = true) (hdepth : depthOver due.length before = 0) :
    nestsWith due before = true := by
  induction before generalizing due with
  | nil =>
      obtain rfl : due = [] := List.length_eq_zero_iff.mp (Int.ofNat_eq_zero.mp hdepth)
      rfl
  | cons t before ih =>
      obtain ⟨due', hpass, h⟩ := nestsWith_cons.mp h
      have hstep : depthAfter due.length t = due'.length := by
        rw [hpass.depthAfter_eq]
        omega
      rw [depthOver, List.foldl_cons, hstep] at hdepth
      exact nestsWith_cons.mpr ⟨due', hpass, ih h hdepth⟩

/-- The depth is zero where what stands in front nests by itself. -/
theorem Nested.depthOver_eq_zero_iff {before after : List Token} (h : Nested (before ++ after)) :
    depthOver 0 before = 0 ↔ Nested before :=
  ⟨fun hdepth => properlyNested_iff.mp (nestsWith_of_depthOver h.properlyNested hdepth),
    fun hbefore => depthOver_of_nested hbefore.properlyNested 0⟩

theorem outsideBrackets_iff (h : Nested ts) {t : Token} :
    OutsideBrackets ts t ↔ ∃ before after, ts = before ++ t :: after ∧ Nested before := by
  constructor
  · rintro ⟨before, after, rfl, hdepth⟩
    exact ⟨before, after, rfl, h.depthOver_eq_zero_iff.mp hdepth⟩
  · rintro ⟨before, after, rfl, hbefore⟩
    exact ⟨before, after, rfl, h.depthOver_eq_zero_iff.mpr hbefore⟩

/-! ## Dividing -/

section Dividing

variable {separator : Kind} (hopen : separator.isOpener = false)
  (hclose : separator.isCloser = false)
include hopen hclose

theorem depthAfter_separator {t : Token} (ht : t.kind = separator) (depth : Int) :
    depthAfter depth t = depth := by
  rw [depthAfter, ht, hopen, hclose]
  rfl

/-- One token: it ends a group if a separator stands there outside all
brackets, and goes to the first group if not. -/
theorem splitFrom_cons (depth : Int) (t : Token) (ts : List Token) :
    splitFrom separator depth (t :: ts) =
      if t.kind = separator ∧ depth = 0 then [] :: splitFrom separator 0 ts
      else consFirst t (splitFrom separator (depthAfter depth t) ts) := by
  have hcut : (t.kind == separator && depthAfter depth t == 0) = true ↔
      t.kind = separator ∧ depth = 0 := by
    rw [Bool.and_eq_true_iff, beq_iff_eq, beq_iff_eq]
    refine and_congr_right fun ht => ?_
    rw [depthAfter_separator hopen hclose ht]
  rw [splitFrom]
  by_cases h : t.kind = separator ∧ depth = 0
  · rw [if_pos (hcut.mpr h), if_pos h, depthAfter_separator hopen hclose h.1, h.2]
  · rw [if_neg (mt hcut.mp h), if_neg h]

/-- The first group of a run closes what is due; separators stand only
where the depth is not zero. -/
theorem splitFrom_divides {due : List Kind} (h : nestsWith due ts = true) :
    ∃ g gs, splitFrom separator due.length ts = g :: gs ∧ nestsWith due g = true ∧
      (∀ t, OutsideFrom due.length g t → t.kind ≠ separator) ∧
      ∀ g' ∈ gs, properlyNested g' = true ∧ ∀ t, OutsideBrackets g' t → t.kind ≠ separator := by
  induction ts generalizing due with
  | nil =>
      exact ⟨[], [], rfl, h, fun t ht => absurd ht (not_outsideFrom_nil _ t),
        List.forall_mem_nil _⟩
  | cons t ts ih =>
      obtain ⟨due', hpass, h⟩ := nestsWith_cons.mp h
      obtain ⟨g, gs, hsplit, hnested, houtside, hrest⟩ := ih h
      have hstep : depthAfter due.length t = due'.length := by
        rw [hpass.depthAfter_eq]
        omega
      rw [splitFrom_cons hopen hclose]
      split
      · rename_i hcut
        obtain ⟨hkind, hzero⟩ := hcut
        rw [depthAfter_separator hopen hclose hkind, hzero] at hstep
        obtain rfl : due = [] := List.eq_nil_of_length_eq_zero (by omega)
        obtain rfl : due' = [] := List.eq_nil_of_length_eq_zero (by omega)
        exact ⟨[], g :: gs, congrArg _ hsplit, rfl,
          fun u hu => absurd hu (not_outsideFrom_nil _ u),
          List.forall_mem_cons.mpr ⟨⟨hnested, houtside⟩, hrest⟩⟩
      · rename_i hkeep
        rw [hstep, hsplit]
        refine ⟨t :: g, gs, rfl, nestsWith_cons.mpr ⟨due', hpass, hnested⟩, ?_, hrest⟩
        rintro u ⟨before, after, heq, hdepth⟩ hkind
        cases before with
        | nil =>
            obtain ⟨rfl, -⟩ := List.cons.inj heq
            exact hkeep ⟨hkind, hdepth⟩
        | cons t' before =>
            obtain ⟨rfl, rfl⟩ := List.cons.inj heq
            rw [depthOver, List.foldl_cons, hstep] at hdepth
            exact houtside u ⟨before, after, rfl, hdepth⟩ hkind

end Dividing

/-! ## Dividing at commas -/

theorem CommaSeparated.consFirst {g : List Token} {gs : List (List Token)}
    (h : CommaSeparated (g :: gs) ts) (t : Token) : CommaSeparated ((t :: g) :: gs) (t :: ts) := by
  cases h with
  | single => exact .single _
  | cons _ hcomma h => exact .cons (t :: g) hcomma h

theorem commaSeparated_splitFrom (depth : Int) (ts : List Token) :
    CommaSeparated (splitFrom .comma depth ts) ts := by
  induction ts generalizing depth with
  | nil => exact .single []
  | cons t ts ih =>
      rw [splitFrom_cons rfl rfl]
      split
      · rename_i hcut
        exact .cons [] hcut.1 (ih 0)
      · have hrest := ih (depthAfter depth t)
        obtain ⟨g, gs, hsplit⟩ := List.exists_cons_of_ne_nil
          (splitFrom_ne_nil .comma (depthAfter depth t) ts)
        rw [hsplit] at hrest ⊢
        exact hrest.consFirst t

/-- Dividing a nested run at its outer commas gives nested groups without
such commas, and these with the commas make the run. -/
theorem splitTopLevel_divides (h : properlyNested ts = true) :
    CommaSeparated (splitTopLevel ts) ts ∧ ∀ g ∈ splitTopLevel ts, SetApart g := by
  have hdue : nestsWith [] ts = true := h
  obtain ⟨g, gs, hsplit, hnested, houtside, hrest⟩ := @splitFrom_divides ts .comma rfl rfl [] hdue
  have heq : splitTopLevel ts = g :: gs := hsplit
  refine ⟨commaSeparated_splitFrom 0 ts, heq ▸ List.forall_mem_cons.mpr ⟨⟨hnested, houtside⟩, ?_⟩⟩
  exact fun g' hg' => ⟨(hrest g' hg').1, (hrest g' hg').2⟩

/-! ## Bodies -/

/-- The run is one pair of square brackets around another run. -/
def InBrackets (inside ts : List Token) : Prop :=
  ∃ o c, ts = o :: (inside ++ [c]) ∧ o.kind = .lbracket ∧ c.kind = .rbracket

/-- A component of a vector or a cell of a tensor: not empty, nested, with
commas inside its brackets only, and not itself one `[...]`. -/
structure BodyCell (ts : List Token) : Prop where
  nonempty : ts ≠ []
  nested : Nested ts
  noComma : ∀ before t after, ts = before ++ t :: after → Nested before → t.kind ≠ .comma
  notGroup : ∀ inside, Nested inside → ¬ InBrackets inside ts

/-- The run is a list of these cells in square brackets. -/
def CellRow (cells : List (List Token)) (ts : List Token) : Prop :=
  ∃ inside, InBrackets inside ts ∧ CommaSeparated cells inside ∧ ∀ g ∈ cells, BodyCell g

/-- `[x, y, z]` -/
def VectorBody (ts : List Token) : Prop := ∃ x y z, CellRow [x, y, z] ts

/-- `[[a, b], [c, d]]` -/
def TensorBody (ts : List Token) : Prop :=
  ∃ inside r s, InBrackets inside ts ∧ CommaSeparated [r, s] inside ∧
    (∃ a b, CellRow [a, b] r) ∧ ∃ c d, CellRow [c, d] s

theorem isGroup_iff {inside : List Token} : IsGroup ts inside ↔ InBrackets inside ts ∧ Nested inside :=
  ⟨fun h => ⟨h.brackets, properlyNested_iff.mp h.nested⟩, fun h => ⟨h.1, h.2.properlyNested⟩⟩

theorem scalarPart_iff : ScalarPart ts ↔ BodyCell ts := by
  constructor
  · intro h
    have hnested := properlyNested_iff.mp h.nested
    refine ⟨h.nonempty, hnested, fun before t after hsplit hbefore => ?_, fun inside hinside hin => ?_⟩
    · exact h.noComma t ((outsideBrackets_iff hnested).mpr ⟨before, after, hsplit, hbefore⟩)
    · exact h.scalar inside (isGroup_iff.mpr ⟨hin, hinside⟩)
  · intro h
    refine ⟨⟨h.nested.properlyNested, fun t ht => ?_⟩, h.nonempty, fun inside hgroup => ?_⟩
    · obtain ⟨before, after, hsplit, hbefore⟩ := (outsideBrackets_iff h.nested).mp ht
      exact h.noComma before t after hsplit hbefore
    · obtain ⟨hin, hinside⟩ := isGroup_iff.mp hgroup
      exact h.notGroup inside hinside hin

/-- Nested groups with commas between them nest together. -/
theorem nested_of_commaSeparated {groups : List (List Token)} (h : CommaSeparated groups ts)
    (hgroups : ∀ g ∈ groups, Nested g) : Nested ts := by
  induction h with
  | single g => exact hgroups g (List.mem_singleton_self g)
  | cons g hcomma _ ih =>
      obtain ⟨hg, hgs⟩ := List.forall_mem_cons.mp hgroups
      have hplain := ih hgs
      refine hg.append (.plain ?_ ?_ hplain) <;> rw [hcomma] <;> rfl

theorem isRow_iff {parts : List (List Token)} : IsRow parts ts ↔ CellRow parts ts := by
  constructor
  · rintro ⟨inside, hgroup, hparts, hscalar⟩
    exact ⟨inside, (isGroup_iff.mp hgroup).1, hparts, fun g hg => scalarPart_iff.mp (hscalar g hg)⟩
  · rintro ⟨inside, hin, hparts, hcells⟩
    have hnested := nested_of_commaSeparated hparts fun g hg => (hcells g hg).nested
    exact ⟨inside, isGroup_iff.mpr ⟨hin, hnested⟩, hparts, fun g hg => scalarPart_iff.mpr (hcells g hg)⟩

theorem vectorShape_iff : VectorShape ts ↔ VectorBody ts := by
  simp only [VectorShape, VectorBody, isRow_iff]

theorem tensorShape_iff : TensorShape ts ↔ TensorBody ts := by
  simp only [TensorShape, TensorBody, isRow_iff]
  constructor
  · rintro ⟨inside, r, s, hgroup, hrows, hr, hs⟩
    exact ⟨inside, r, s, (isGroup_iff.mp hgroup).1, hrows, hr, hs⟩
  · rintro ⟨inside, r, s, hin, hrows, ⟨a, b, hr⟩, ⟨c, d, hs⟩⟩
    refine ⟨inside, r, s, isGroup_iff.mpr ⟨hin, ?_⟩, hrows, ⟨a, b, hr⟩, ⟨c, d, hs⟩⟩
    obtain ⟨_, hgroup⟩ := (isRow_iff.mpr hr).isGroup
    obtain ⟨_, hgroup'⟩ := (isRow_iff.mpr hs).isGroup
    refine nested_of_commaSeparated hrows ?_
    simp [properlyNested_iff.mp hgroup.setApart.nested, properlyNested_iff.mp hgroup'.setApart.nested]

/-! ## The checks -/

/-- A group in square brackets is divided into scalar parts unless one of
them is empty or a group itself. -/
theorem isRow_of_split (hgroup : isBracketed ts = true)
    (hnonempty : (splitTopLevel (inner ts)).any (·.isEmpty) = false)
    (hscalar : (splitTopLevel (inner ts)).any isBracketed = false) :
    IsRow (splitTopLevel (inner ts)) ts := by
  obtain ⟨inside, hgroup⟩ := isBracketed_iff.mp hgroup
  rw [hgroup.inner_eq] at hnonempty hscalar ⊢
  obtain ⟨hdivided, hapart⟩ := splitTopLevel_divides hgroup.nested
  refine ⟨inside, hgroup, hdivided, fun g hg => ⟨hapart g hg, ?_, fun inside' hgroup' => ?_⟩⟩
  · exact fun hnil => List.any_eq_false.mp hnonempty g hg (List.isEmpty_iff.mpr hnil)
  · exact List.any_eq_false.mp hscalar g hg (isBracketed_iff.mpr ⟨inside', hgroup'⟩)

namespace Statement

variable {l : LogicalLine}

/-- A check that ends the reader when it fails. -/
theorem unless_eq_ok {α : Type} {c : Prop} [Decidable c] {fault : StatementFault}
    {k : Unit → Except Failure α} {a : α} :
    (if c then fail l fault >>= k else k ()) = .ok a ↔ ¬ c ∧ k () = .ok a := by
  split
  · exact ⟨fun h => (by cases h), fun h => absurd ‹c› h.1⟩
  · exact ⟨fun h => ⟨‹¬ c›, h⟩, fun h => h.2⟩

/-- A loop of such checks. -/
theorem forIn_unless_eq_ok {α : Type} {c : α → Prop} [DecidablePred c] {fault : StatementFault}
    {as : List α}
    (h : (forIn as PUnit.unit fun a _ =>
      if c a then do
        fail l fault
        pure (ForInStep.yield PUnit.unit)
      else pure (ForInStep.yield PUnit.unit)) = .ok PUnit.unit) : ∀ a ∈ as, ¬ c a := by
  induction as with
  | nil => exact List.forall_mem_nil _
  | cons a as ih =>
      rw [List.forIn_cons] at h
      by_cases ha : c a
      · rw [if_pos ha] at h
        cases h
      · rw [if_neg ha] at h
        exact List.forall_mem_cons.mpr ⟨ha, ih h⟩

theorem vectorShape_of_checked (h : checkVectorBody l ts = .ok ()) : VectorShape ts := by
  unfold checkVectorBody at h
  obtain ⟨hgroup, h⟩ := unless_eq_ok.mp h
  obtain ⟨hparts, h⟩ := unless_eq_ok.mp h
  have hscalar : (splitTopLevel (inner ts)).any isBracketed = false := by
    rw [Bool.eq_false_iff]
    intro htrue
    rw [if_pos htrue] at h
    cases h
  simp only [Bool.not_eq_true, Bool.not_eq_false', Bool.or_eq_false_iff, bne_eq_false_iff_eq]
    at hgroup hparts
  obtain ⟨hlength, hnonempty⟩ := hparts
  have hrow := isRow_of_split hgroup hnonempty hscalar
  obtain ⟨x, y, z, hxyz⟩ := List.length_eq_three.mp hlength
  exact ⟨x, y, z, hxyz ▸ hrow⟩

theorem tensorShape_of_checked (h : checkTensorBody l ts = .ok ()) : TensorShape ts := by
  unfold checkTensorBody at h
  obtain ⟨hgroup, h⟩ := unless_eq_ok.mp h
  obtain ⟨hrows, h⟩ := unless_eq_ok.mp h
  obtain ⟨_, hloop, -⟩ := bind_eq_ok.mp h
  have hcells := forIn_unless_eq_ok hloop
  simp only [Bool.not_eq_true, Bool.not_eq_false', Bool.or_eq_false_iff, Bool.and_eq_true,
    bne_eq_false_iff_eq] at hgroup hrows hcells
  obtain ⟨inside, hinside⟩ := isBracketed_iff.mp hgroup.1.1
  obtain ⟨hlength, hall⟩ := hrows
  have hrow : ∀ row ∈ splitTopLevel (inner ts), ∃ a b, IsRow [a, b] row := by
    intro row hmem
    obtain ⟨⟨htwo, hnonempty⟩, hscalar⟩ := hcells row hmem
    have hbracketed := List.all_eq_true.mp hall row hmem
    obtain ⟨a, b, hab⟩ := List.length_eq_two.mp htwo
    exact ⟨a, b, hab ▸ isRow_of_split hbracketed hnonempty hscalar⟩
  obtain ⟨r, s, hrs⟩ := List.length_eq_two.mp hlength
  have hdivided := (splitTopLevel_divides hinside.nested).1
  rw [hinside.inner_eq] at hrs hrow
  rw [hrs] at hdivided hrow
  exact ⟨inside, r, s, hinside, hdivided, hrow r (by simp), hrow s (by simp)⟩

/-- The checks accept the bodies of the grammar and nothing else. -/
theorem checkBody_iff (l : LogicalLine) (ts : List Token) :
    (checkVectorBody l ts = .ok () ↔ VectorBody ts) ∧
      (checkTensorBody l ts = .ok () ↔ TensorBody ts) := by
  rw [← vectorShape_iff, ← tensorShape_iff]
  exact ⟨⟨vectorShape_of_checked, fun h => checkVectorBody_of_shape h l⟩,
    ⟨tensorShape_of_checked, fun h => checkTensorBody_of_shape h l⟩⟩

end Statement
end FieldScript
