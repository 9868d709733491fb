import FieldScript.Proofs.StatementReaders

/-!
# Brackets in runs of tokens

The readers of statements count brackets: a word or a comma divides a run
of tokens only where the depth is zero. In a run whose brackets nest, the
depth never falls below the depth it starts with and ends there again
(`depthOver_of_nested`), so that what stands behind the run is read as if
the run were not there.

`TokenPass` says once what a token does to the brackets that are due;
everything about nested runs is an induction over it.
-/

namespace FieldScript

/-! ## One token -/

/-- What the token does to the closing brackets that are due. -/
inductive TokenPass (t : Token) : List Kind → List Kind → Prop
  | opens {k : Kind} (due : List Kind) (h : t.kind.closer? = some k) : TokenPass t due (k :: due)
  | closes (due : List Kind) (h : t.kind.isCloser = true) : TokenPass t (t.kind :: due) due
  | neither (due : List Kind) (hopen : t.kind.closer? = none) (hclose : t.kind.isCloser = false) :
      TokenPass t due due

namespace Kind

theorem isOpener_eq (k : Kind) : k.isOpener = k.closer?.isSome := by
  cases k <;> rfl

theorem closer?_of_isCloser {k : Kind} (h : k.isCloser = true) : k.closer? = none := by
  cases k <;> first | rfl | cases h

end Kind

/-- A run nests when its first token passes and the others nest. -/
theorem nestsWith_cons {due : List Kind} {t : Token} {rest : List Token} :
    nestsWith due (t :: rest) = true ↔ ∃ due', TokenPass t due due' ∧ nestsWith due' rest = true := by
  rw [nestsWith.eq_def]
  dsimp only
  constructor
  · intro h
    split at h
    · rename_i k hk
      exact ⟨_, .opens due hk, h⟩
    · rename_i hk
      split at h
      · rename_i hclose
        split at h
        · rename_i k due'
          obtain ⟨heq, hrest⟩ := Bool.and_eq_true_iff.mp h
          obtain rfl := eq_of_beq heq
          exact ⟨_, .closes due' hclose, hrest⟩
        · cases h
      · rename_i hclose
        exact ⟨_, .neither due hk (Bool.eq_false_iff.mpr hclose), h⟩
  · rintro ⟨due', hpass, h⟩
    cases hpass with
    | opens _ hk => rwa [hk]
    | closes _ hclose =>
        rw [Kind.closer?_of_isCloser hclose, hclose]
        exact Bool.and_eq_true_iff.mpr ⟨beq_self_eq_true _, h⟩
    | neither _ hk hclose => rwa [hk, hclose]

theorem TokenPass.append {t : Token} {due due' : List Kind} (h : TokenPass t due due')
    (more : List Kind) : TokenPass t (due ++ more) (due' ++ more) := by
  cases h with
  | opens _ hk => exact .opens _ hk
  | closes _ hclose => exact .closes _ hclose
  | neither _ hk hclose => exact .neither _ hk hclose

theorem TokenPass.depthAfter_eq {t : Token} {due due' : List Kind} (h : TokenPass t due due')
    (depth : Int) : depthAfter depth t = depth + due'.length - due.length := by
  rw [depthAfter, Kind.isOpener_eq]
  cases h with
  | opens _ hk =>
      rw [hk, List.length_cons]
      simp only [Option.isSome_some, if_true]
      omega
  | closes _ hclose =>
      rw [Kind.closer?_of_isCloser hclose, hclose, List.length_cons]
      simp only [Option.isSome_none, Bool.false_eq_true, if_true, if_false]
      omega
  | neither _ hk hclose =>
      rw [hk, hclose]
      simp only [Option.isSome_none, Bool.false_eq_true, if_false]
      omega

/-! ## The depth over a run -/

/-- The depth behind a run of tokens. -/
def depthOver (depth : Int) (ts : List Token) : Int := ts.foldl depthAfter depth

theorem depthOver_append (depth : Int) (ts rest : List Token) :
    depthOver depth (ts ++ rest) = depthOver (depthOver depth ts) rest :=
  List.foldl_append

theorem nestsWith_append {due more : List Kind} {ts rest : List Token}
    (h : nestsWith due ts = true) (hrest : nestsWith more rest = true) :
    nestsWith (due ++ more) (ts ++ rest) = true := by
  induction ts generalizing due with
  | nil =>
      obtain rfl := List.isEmpty_iff.mp h
      exact hrest
  | cons t ts ih =>
      obtain ⟨due', hpass, h⟩ := nestsWith_cons.mp h
      exact nestsWith_cons.mpr ⟨_, hpass.append more, ih h⟩

/-- The brackets that are due bound how far the depth falls. -/
theorem le_depthOver_of_nestsWith {due : List Kind} {before after : List Token}
    (h : nestsWith due (before ++ after) = true) (depth : Int) :
    depth - due.length ≤ depthOver depth before := by
  induction before generalizing due depth with
  | nil =>
      rw [depthOver, List.foldl_nil]
      omega
  | cons t before ih =>
      obtain ⟨due', hpass, h⟩ := nestsWith_cons.mp h
      have hle := ih h (depthAfter depth t)
      rw [hpass.depthAfter_eq] at hle
      rw [depthOver, List.foldl_cons, hpass.depthAfter_eq]
      rw [depthOver] at hle
      omega

theorem depthOver_of_nestsWith {due : List Kind} {ts : List Token} (h : nestsWith due ts = true)
    (depth : Int) : depthOver depth ts = depth - due.length := by
  induction ts generalizing due depth with
  | nil =>
      obtain rfl := List.isEmpty_iff.mp h
      exact (Int.sub_zero depth).symm
  | cons t ts ih =>
      obtain ⟨due', hpass, h⟩ := nestsWith_cons.mp h
      rw [depthOver, List.foldl_cons, ← depthOver, ih h, hpass.depthAfter_eq]
      omega

theorem depthOver_of_nested {ts : List Token} (h : properlyNested ts = true) (depth : Int) :
    depthOver depth ts = depth := by
  rw [depthOver_of_nestsWith h]
  exact Int.sub_zero depth

/-! ## Tokens outside all brackets -/

/-- The token stands in the run where the depth, counted from the given
one, is zero. -/
def OutsideFrom (depth : Int) (ts : List Token) (t : Token) : Prop :=
  ∃ before after, ts = before ++ t :: after ∧ depthOver depth before = 0

/-- The token stands outside all brackets of the run. -/
def OutsideBrackets (ts : List Token) (t : Token) : Prop := OutsideFrom 0 ts t

theorem outsideFrom_cons_self (t : Token) (rest : List Token) : OutsideFrom 0 (t :: rest) t :=
  ⟨[], rest, rfl, rfl⟩

theorem not_outsideFrom_nil (depth : Int) (t : Token) : ¬ OutsideFrom depth [] t := by
  rintro ⟨before, after, hnil, -⟩
  cases before <;> cases hnil

theorem OutsideFrom.cons {depth : Int} {t u : Token} {rest : List Token}
    (h : OutsideFrom (depthAfter depth t) rest u) : OutsideFrom depth (t :: rest) u := by
  obtain ⟨before, after, rfl, hdepth⟩ := h
  exact ⟨t :: before, after, rfl, hdepth⟩

theorem OutsideFrom.of_append {depth : Int} {ts rest : List Token} {u : Token}
    (h : OutsideFrom depth (ts ++ rest) u) :
    OutsideFrom depth ts u ∨ OutsideFrom (depthOver depth ts) rest u := by
  obtain ⟨before, after, hsplit, hdepth⟩ := h
  rcases List.append_eq_append_iff.mp hsplit with ⟨tail, rfl, hrest⟩ | ⟨tail, rfl, htail⟩
  · rw [depthOver_append] at hdepth
    exact Or.inr ⟨tail, after, hrest, hdepth⟩
  · cases tail with
    | nil => exact Or.inr ⟨[], after, htail.symm, by rwa [List.append_nil]⟩
    | cons t tail =>
        obtain ⟨rfl, -⟩ := List.cons.inj htail
        exact Or.inl ⟨before, tail, rfl, hdepth⟩

/-! ## Finding a word -/

theorem findFrom_append (word : String) (start index : Nat) (depth : Int) (ts rest : List Token) :
    findFrom word start index depth (ts ++ rest) =
      (findFrom word start index depth ts).or
        (findFrom word start (index + ts.length) (depthOver depth ts) rest) := by
  induction ts generalizing index depth with
  | nil => rfl
  | cons t ts ih =>
      rw [List.cons_append, findFrom, findFrom]
      split
      · rfl
      · rw [ih, List.length_cons, Nat.add_right_comm, Nat.add_assoc]
        rfl

/-- Nothing is found where the word stands inside brackets only. -/
theorem findFrom_eq_none {word : String} {start index : Nat} {depth : Int} {ts : List Token}
    (h : ∀ t, OutsideFrom depth ts t → t.isWord [word] = false) :
    findFrom word start index depth ts = none := by
  induction ts generalizing index depth with
  | nil => rfl
  | cons t ts ih =>
      rw [findFrom, if_neg, ih fun u hu => h u hu.cons]
      simp only [Bool.and_eq_true, beq_iff_eq, not_and, and_imp]
      rintro - - - rfl
      exact Bool.eq_false_iff.mp (h t (outsideFrom_cons_self t ts))

/-- Nothing is found in front of the start. -/
theorem findFrom_of_le {word : String} {start index : Nat} {depth : Int} {ts : List Token}
    (h : index + ts.length ≤ start) : findFrom word start index depth ts = none := by
  induction ts generalizing index depth with
  | nil => rfl
  | cons t ts ih =>
      rw [List.length_cons] at h
      rw [findFrom, if_neg, ih (by omega)]
      simp only [Bool.and_eq_true, decide_eq_true_eq, not_and, and_imp]
      intro _ _ hle
      omega

theorem not_bracket_of_isWord {t : Token} {words : List String} (h : t.isWord words = true) :
    t.kind.isOpener = false ∧ t.kind.isCloser = false := by
  obtain ⟨hkind, -⟩ := Bool.and_eq_true_iff.mp h
  rw [eq_of_beq hkind]
  exact ⟨rfl, rfl⟩

theorem findFrom_cons_self {word : String} {start index : Nat} {t : Token} {rest : List Token}
    (hle : start ≤ index) (ht : t.isWord [word] = true) :
    findFrom word start index 0 (t :: rest) = some index := by
  obtain ⟨hopen, hclose⟩ := not_bracket_of_isWord ht
  rw [findFrom, if_pos]
  simp [hopen, hclose, hle, ht]

/-- The first word behind the start, when the run between them holds it
inside brackets only. -/
theorem findTopLevel_eq_some {word : String} (before between : List Token) {after : List Token}
    {t : Token} (hbefore : depthOver 0 before = 0) (hnested : properlyNested between = true)
    (hbetween : ∀ u, OutsideBrackets between u → u.isWord [word] = false)
    (ht : t.isWord [word] = true) :
    findTopLevel (before ++ (between ++ t :: after)) word before.length =
      some (before.length + between.length) := by
  have hdepth := depthOver_of_nested hnested 0
  rw [findTopLevel, findFrom_append, findFrom_of_le (Nat.zero_add _).le, Option.none_or, hbefore,
    findFrom_append, findFrom_eq_none hbetween, Option.none_or, hdepth, Nat.zero_add,
    findFrom_cons_self (Nat.le_add_right _ _) ht]

/-! ## The last word -/

theorem foldl_last {p : Nat → Bool} {n i : Nat} (hi : i < n) (hp : p i = true)
    (hlast : ∀ j, i < j → j < n → p j = false) :
    (List.range n).foldl (fun last j => if p j then some j else last) none = some i := by
  induction n with
  | zero => cases hi
  | succ n ih =>
      rw [List.range_succ, List.foldl_append, List.foldl_cons, List.foldl_nil]
      rcases Nat.lt_succ_iff_lt_or_eq.mp hi with hlt | rfl
      · rw [hlast n hlt (Nat.lt_succ_self n)]
        exact ih hlt fun j hj hjn => hlast j hj (Nat.lt_succ_of_lt hjn)
      · rw [hp]
        rfl

theorem findLastTopLevel_eq_some {word : String} {start : Nat} (before : List Token)
    {after : List Token} {t : Token} (hstart : start ≤ before.length) (hbefore : depthOver 0 before = 0)
    (ht : t.isWord [word] = true)
    (hafter : ∀ u, OutsideBrackets after u → u.isWord [word] = false) :
    Statement.findLastTopLevel (before ++ t :: after) word start = some before.length := by
  have hdepth : depthAfter 0 t = 0 := by
    obtain ⟨hopen, hclose⟩ := not_bracket_of_isWord ht
    rw [depthAfter, hopen, hclose]
    rfl
  rw [Statement.findLastTopLevel]
  refine foldl_last (p := fun i => start ≤ i && findTopLevel (before ++ t :: after) word i == some i)
    ?_ ?_ ?_
  · simp
  · have hfound : findTopLevel (before ++ t :: after) word before.length = some before.length :=
      findTopLevel_eq_some before [] hbefore rfl
        (fun u hu => absurd hu (not_outsideFrom_nil 0 u)) ht
    simp [hstart, hfound]
  · intro j hj _
    have hnone : findTopLevel (before ++ t :: after) word j = none := by
      rw [List.append_cons, findTopLevel, findFrom_append,
        findFrom_of_le (by simp; omega), Option.none_or, depthOver_append, hbefore]
      exact findFrom_eq_none fun u hu => hafter u (by rwa [depthOver, List.foldl_cons, hdepth] at hu)
    simp [hnone]

/-! ## Runs divided by commas -/

/-- The groups, with a comma between each two of them. -/
inductive CommaSeparated : List (List Token) → List Token → Prop
  | single (g : List Token) : CommaSeparated [g] g
  | cons (g : List Token) {comma : Token} {gs : List (List Token)} {ts : List Token}
      (hcomma : comma.kind = .comma) (h : CommaSeparated gs ts) :
      CommaSeparated (g :: gs) (g ++ comma :: ts)

/-- A run that a comma in front of it or behind it sets apart: its
brackets nest, and its own commas stand inside them. -/
structure SetApart (ts : List Token) : Prop where
  nested : properlyNested ts = true
  noComma : ∀ t, OutsideBrackets ts t → t.kind ≠ .comma

theorem splitFrom_ne_nil (separator : Kind) (depth : Int) (ts : List Token) :
    splitFrom separator depth ts ≠ [] := by
  cases ts with
  | nil => exact List.cons_ne_nil _ _
  | cons t ts =>
      rw [splitFrom]
      split
      · exact List.cons_ne_nil _ _
      · cases splitFrom separator (depthAfter depth t) ts <;> exact List.cons_ne_nil _ _

theorem splitFrom_append {depth : Int} {ts rest : List Token} {g : List Token}
    {gs : List (List Token)} (h : ∀ t, OutsideFrom depth ts t → t.kind ≠ .comma)
    (hrest : splitFrom .comma (depthOver depth ts) rest = g :: gs) :
    splitFrom .comma depth (ts ++ rest) = (ts ++ g) :: gs := by
  induction ts generalizing depth with
  | nil => exact hrest
  | cons t ts ih =>
      rw [List.cons_append, splitFrom, if_neg, ih (fun u hu => h u hu.cons) hrest]
      · rfl
      · intro hcut
        obtain ⟨hkind, hdepth⟩ := Bool.and_eq_true_iff.mp hcut
        have hkind := eq_of_beq hkind
        have hdepth := eq_of_beq hdepth
        rw [depthAfter, hkind] at hdepth
        obtain rfl : depth = 0 := hdepth
        exact h t (outsideFrom_cons_self t ts) hkind

theorem splitTopLevel_of_commaSeparated {groups : List (List Token)} {ts : List Token}
    (h : CommaSeparated groups ts) (hgroups : ∀ g ∈ groups, SetApart g) :
    splitTopLevel ts = groups := by
  induction h with
  | single g =>
      have hg := hgroups g (List.mem_singleton_self g)
      have hsplit : splitFrom .comma 0 (g ++ []) = [g ++ []] := splitFrom_append hg.noComma rfl
      rwa [List.append_nil] at hsplit
  | cons g hcomma _ ih =>
      rename_i comma gs ts _
      obtain ⟨hg, hgs⟩ := List.forall_mem_cons.mp hgroups
      have hcut : splitFrom .comma (depthOver 0 g) (comma :: ts) = [] :: gs := by
        rw [depthOver_of_nested hg.nested, splitFrom]
        have hdepth : depthAfter 0 comma = 0 := by
          rw [depthAfter, hcomma]
          rfl
        rw [hdepth, hcomma]
        exact congrArg _ (ih hgs)
      have hsplit := splitFrom_append hg.noComma hcut
      rwa [List.append_nil] at hsplit

/-- Outside the brackets of a divided run stand its commas and what
stands outside the brackets of a group. -/
theorem CommaSeparated.outsideBrackets {groups : List (List Token)} {ts : List Token}
    (h : CommaSeparated groups ts) (hgroups : ∀ g ∈ groups, SetApart g) {u : Token}
    (hu : OutsideBrackets ts u) : u.kind = .comma ∨ ∃ g ∈ groups, OutsideBrackets g u := by
  induction h with
  | single g => exact Or.inr ⟨g, List.mem_singleton_self g, hu⟩
  | cons g hcomma _ ih =>
      rename_i comma gs ts _
      obtain ⟨hg, hgs⟩ := List.forall_mem_cons.mp hgroups
      rcases OutsideFrom.of_append hu with hu | hu
      · exact Or.inr ⟨g, List.mem_cons_self, hu⟩
      · rw [depthOver_of_nested hg.nested, ← List.singleton_append] at hu
        have hdepth : depthOver 0 [comma] = 0 := by
          rw [depthOver, List.foldl_cons, depthAfter, hcomma]
          rfl
        rcases hu.of_append with ⟨before, after, hsplit, -⟩ | hu
        · obtain ⟨-, hu⟩ := List.singleton_eq_append_iff.mp hsplit |>.resolve_right (by simp)
          obtain ⟨rfl, -⟩ := List.cons.inj hu
          exact Or.inl hcomma
        · rw [hdepth] at hu
          exact (ih hgs hu).imp_right fun ⟨g', hg', hu⟩ => ⟨g', List.mem_cons_of_mem _ hg', hu⟩

/-! ## Groups in square brackets -/

/-- The run is one group in square brackets, with these tokens inside. -/
structure IsGroup (ts inside : List Token) : Prop where
  brackets : ∃ o c, ts = o :: (inside ++ [c]) ∧ o.kind = .lbracket ∧ c.kind = .rbracket
  nested : properlyNested inside = true

theorem IsGroup.inner_eq {ts inside : List Token} (h : IsGroup ts inside) : inner ts = inside := by
  obtain ⟨o, c, rfl, -, -⟩ := h.brackets
  rw [inner, List.drop_one, List.tail_cons, List.dropLast_concat]

theorem IsGroup.setApart {ts inside : List Token} (h : IsGroup ts inside) : SetApart ts := by
  obtain ⟨o, c, rfl, ho, hc⟩ := h.brackets
  have hopen : TokenPass o [] [.rbracket] := .opens [] (by rw [ho]; rfl)
  have hclose : nestsWith [.rbracket] [c] = true := by
    rw [← hc]
    exact nestsWith_cons.mpr ⟨[], .closes [] (by rw [hc]; rfl), rfl⟩
  have hinside : nestsWith ([] ++ [.rbracket]) (inside ++ [c]) = true :=
    nestsWith_append h.nested hclose
  refine ⟨nestsWith_cons.mpr ⟨_, hopen, hinside⟩, ?_⟩
  rintro t ⟨before, after, hsplit, hdepth⟩ hcomma
  cases before with
  | nil =>
      obtain ⟨rfl, -⟩ := List.cons.inj hsplit
      rw [ho] at hcomma
      cases hcomma
  | cons u before =>
      obtain ⟨rfl, htail⟩ := List.cons.inj hsplit
      rcases List.append_eq_append_iff.mp htail with ⟨tail, rfl, hlast⟩ | ⟨tail, rfl, -⟩
      · cases tail with
        | nil =>
            obtain ⟨rfl, -⟩ := List.cons.inj hlast
            rw [hc] at hcomma
            cases hcomma
        | cons _ tail => cases tail <;> cases hlast
      · have hle := le_depthOver_of_nestsWith h.nested (depthAfter 0 o)
        have hone : depthAfter 0 o = 1 := hopen.depthAfter_eq 0
        rw [depthOver, List.foldl_cons, ← depthOver] at hdepth
        rw [hdepth, hone] at hle
        exact absurd hle (by decide)

/-- Behind the bracket that opens the run, only the last token brings the
depth back to zero. -/
theorem closesOnlyAtEnd_of_nestsWith (due : List Kind) {inside : List Token} {c : Token}
    (h : nestsWith due inside = true) : closesOnlyAtEnd (due.length + 1) (inside ++ [c]) = true := by
  induction inside generalizing due with
  | nil =>
      simp [closesOnlyAtEnd]
  | cons t inside ih =>
      obtain ⟨due', hpass, h⟩ := nestsWith_cons.mp h
      have hdepth : depthAfter (due.length + 1) t = due'.length + 1 := by
        rw [hpass.depthAfter_eq]
        omega
      rw [List.cons_append, closesOnlyAtEnd, hdepth, ih due' h, Bool.and_true]
      have hne : ((due'.length + 1 : Int) == 0) = false := beq_eq_false_iff_ne.mpr (by omega)
      rw [hne]
      simp

/-- The converse: where only the last token brings the depth back to zero,
the tokens in front of it nest among themselves. -/
theorem nestsWith_of_closesOnlyAtEnd (due : List Kind) {k : Kind} {inside : List Token} {c : Token}
    (h : nestsWith (due ++ [k]) (inside ++ [c]) = true)
    (hend : closesOnlyAtEnd (due.length + 1) (inside ++ [c]) = true) :
    nestsWith due inside = true := by
  induction inside generalizing due with
  | nil =>
      obtain ⟨due', hpass, hnil⟩ := nestsWith_cons.mp h
      obtain rfl := List.isEmpty_iff.mp hnil
      cases due with
      | nil => rfl
      | cons k' due => cases due <;> cases hpass
  | cons t inside ih =>
      obtain ⟨due', hpass, hrest⟩ := nestsWith_cons.mp h
      rw [List.cons_append, closesOnlyAtEnd] at hend
      obtain ⟨hlast, hend⟩ := Bool.and_eq_true_iff.mp hend
      have hdepth : depthAfter (due.length + 1) t = due'.length := by
        rw [hpass.depthAfter_eq, List.length_append, List.length_singleton]
        omega
      rw [hdepth] at hlast hend
      -- The bracket that opened the run stays due.
      have hpass' : ∃ due'', due' = due'' ++ [k] ∧ TokenPass t due due'' := by
        cases due with
        | nil =>
            rw [List.nil_append] at hpass
            cases hpass with
            | opens _ hk => exact ⟨_, rfl, .opens [] hk⟩
            | closes _ hclose => simp [hclose] at hlast
            | neither _ hk hclose => exact ⟨[], rfl, .neither [] hk hclose⟩
        | cons k' due =>
            rw [List.cons_append] at hpass
            cases hpass with
            | opens _ hk => exact ⟨_, rfl, .opens _ hk⟩
            | closes _ hclose => exact ⟨due, rfl, .closes due hclose⟩
            | neither _ hk hclose => exact ⟨_, rfl, .neither _ hk hclose⟩
      obtain ⟨due'', rfl, hpass'⟩ := hpass'
      refine nestsWith_cons.mpr ⟨due'', hpass', ih due'' hrest ?_⟩
      simpa using hend

theorem getLast?_cons_concat (o c : Token) (inside : List Token) :
    (o :: (inside ++ [c])).getLast? = some c := by
  rw [← List.cons_append, List.getLast?_concat]

theorem isBracketed_iff {ts : List Token} :
    isBracketed ts = true ↔ ∃ inside, IsGroup ts inside := by
  rw [isBracketed]
  constructor
  · intro h
    simp only [Bool.and_eq_true, decide_eq_true_eq, beq_iff_eq] at h
    obtain ⟨⟨⟨⟨hlen, hhead⟩, hlast⟩, hnested⟩, hend⟩ := h
    obtain ⟨o, rest, rfl⟩ := List.exists_cons_of_length_pos (Nat.lt_of_lt_of_le Nat.two_pos hlen)
    rcases List.eq_nil_or_concat rest with rfl | ⟨inside, c, rfl⟩
    · exact absurd hlen (by simp)
    · rw [List.concat_eq_append] at hlast hnested hend
      rw [getLast?_cons_concat] at hlast
      have ho : o.kind = .lbracket := by simpa using hhead
      have hc : c.kind = .rbracket := by simpa using hlast
      have hopen : o.kind.closer? = some .rbracket := by
        rw [ho]
        rfl
      have hdepth : depthAfter 0 o = 1 := (TokenPass.opens [] hopen).depthAfter_eq 0
      rw [properlyNested, nestsWith, hopen] at hnested
      rw [closesOnlyAtEnd, hdepth] at hend
      exact ⟨inside, ⟨o, c, by rw [List.concat_eq_append], ho, hc⟩,
        nestsWith_of_closesOnlyAtEnd [] hnested (Bool.and_eq_true_iff.mp hend).2⟩
  · rintro ⟨inside, h⟩
    obtain ⟨o, c, rfl, ho, hc⟩ := h.brackets
    have hdepth : depthAfter 0 o = 1 := by
      rw [depthAfter, ho]
      rfl
    have hend : closesOnlyAtEnd 0 (o :: (inside ++ [c])) = true := by
      rw [closesOnlyAtEnd, hdepth, ho]
      exact closesOnlyAtEnd_of_nestsWith [] h.nested
    simp [ho, hc, getLast?_cons_concat, h.setApart.nested, hend]


/-! ## Bodies of vectors and tensors -/

/-- A scalar part of a vector or a tensor. -/
structure ScalarPart (ts : List Token) : Prop extends SetApart ts where
  nonempty : ts ≠ []
  scalar : ∀ inside, ¬ IsGroup ts inside

/-- One group with these parts, all of them scalars. -/
def IsRow (parts : List (List Token)) (ts : List Token) : Prop :=
  ∃ inside, IsGroup ts inside ∧ CommaSeparated parts inside ∧ ∀ g ∈ parts, ScalarPart g

/-- `[x, y, z]` -/
def VectorShape (ts : List Token) : Prop :=
  ∃ x y z, IsRow [x, y, z] ts

/-- `[[a, b], [c, d]]` -/
def TensorShape (ts : List Token) : Prop :=
  ∃ inside r s, IsGroup ts inside ∧ CommaSeparated [r, s] inside ∧
    (∃ a b, IsRow [a, b] r) ∧ ∃ c d, IsRow [c, d] s

section Rows

variable {parts : List (List Token)} {ts : List Token} (h : IsRow parts ts)
include h

theorem IsRow.isGroup : ∃ inside, IsGroup ts inside :=
  let ⟨inside, hgroup, _⟩ := h
  ⟨inside, hgroup⟩

theorem IsRow.isBracketed : isBracketed ts = true := isBracketed_iff.mpr h.isGroup

theorem IsRow.splitTopLevel_inner : splitTopLevel (inner ts) = parts := by
  obtain ⟨inside, hgroup, hparts, hscalar⟩ := h
  rw [hgroup.inner_eq]
  exact splitTopLevel_of_commaSeparated hparts fun g hg => (hscalar g hg).toSetApart

theorem IsRow.any_isEmpty : parts.any (·.isEmpty) = false := by
  obtain ⟨inside, -, -, hscalar⟩ := h
  rw [List.any_eq_false]
  exact fun g hg hempty => (hscalar g hg).nonempty (List.isEmpty_iff.mp hempty)

theorem IsRow.any_isBracketed : parts.any FieldScript.isBracketed = false := by
  obtain ⟨inside, -, -, hscalar⟩ := h
  rw [List.any_eq_false]
  intro g hg hbracketed
  obtain ⟨inside, hgroup⟩ := isBracketed_iff.mp hbracketed
  exact (hscalar g hg).scalar inside hgroup

end Rows

/-! ## Brackets depend on kinds only -/

section Map

variable {f : Token → Token} (hf : ∀ t, (f t).kind = t.kind)
include hf

theorem depthOver_map (depth : Int) (ts : List Token) :
    depthOver depth (ts.map f) = depthOver depth ts := by
  rw [depthOver, List.foldl_map]
  simp only [depthAfter, hf]
  rfl

theorem nestsWith_map (due : List Kind) (ts : List Token) :
    nestsWith due (ts.map f) = nestsWith due ts := by
  induction ts generalizing due with
  | nil => rfl
  | cons t ts ih =>
      rw [List.map_cons, nestsWith.eq_def, nestsWith.eq_def due (t :: ts)]
      simp only [hf, ih]

theorem properlyNested_map {ts : List Token} (h : properlyNested ts = true) :
    properlyNested (ts.map f) = true :=
  (nestsWith_map hf [] ts).trans h

theorem exists_outsideBrackets_of_map {ts : List Token} {u : Token}
    (h : OutsideBrackets (ts.map f) u) : ∃ t, OutsideBrackets ts t ∧ f t = u := by
  obtain ⟨before, after, hsplit, hdepth⟩ := h
  obtain ⟨before, tail, rfl, rfl, htail⟩ := List.map_eq_append_iff.mp hsplit
  obtain ⟨t, after, rfl, ht, rfl⟩ := List.map_eq_cons_iff.mp htail
  rw [depthOver_map hf] at hdepth
  exact ⟨t, ⟨before, after, rfl, hdepth⟩, ht⟩

theorem SetApart.map {ts : List Token} (h : SetApart ts) : SetApart (ts.map f) := by
  refine ⟨properlyNested_map hf h.nested, fun u hu => ?_⟩
  obtain ⟨t, ht, rfl⟩ := exists_outsideBrackets_of_map hf hu
  rw [hf]
  exact h.noComma t ht

theorem CommaSeparated.map {groups : List (List Token)} {ts : List Token}
    (h : CommaSeparated groups ts) : CommaSeparated (groups.map (List.map f)) (ts.map f) := by
  induction h with
  | single g => exact .single _
  | cons g hcomma _ ih =>
      rw [List.map_append, List.map_cons]
      exact .cons _ ((hf _).trans hcomma) ih

theorem isGroup_map {ts inside : List Token} (h : IsGroup ts inside) :
    IsGroup (ts.map f) (inside.map f) := by
  obtain ⟨o, c, rfl, ho, hc⟩ := h.brackets
  refine ⟨⟨f o, f c, by simp, (hf o).trans ho, (hf c).trans hc⟩, properlyNested_map hf h.nested⟩

theorem exists_isGroup_of_map {ts inside : List Token} (h : IsGroup (ts.map f) inside) :
    ∃ inside', IsGroup ts inside' := by
  obtain ⟨o, c, hsplit, ho, hc⟩ := h.brackets
  obtain ⟨o', rest, rfl, rfl, hrest⟩ := List.map_eq_cons_iff.mp hsplit
  obtain ⟨inside', last, rfl, rfl, hlast⟩ := List.map_eq_append_iff.mp hrest
  obtain ⟨c', tail, rfl, rfl, htail⟩ := List.map_eq_cons_iff.mp hlast
  obtain rfl := List.map_eq_nil_iff.mp htail
  exact ⟨inside', ⟨o', c', rfl, (hf o').symm.trans ho, (hf c').symm.trans hc⟩,
    (nestsWith_map hf [] inside').symm.trans h.nested⟩

theorem ScalarPart.map {ts : List Token} (h : ScalarPart ts) : ScalarPart (ts.map f) where
  toSetApart := h.toSetApart.map hf
  nonempty := mt List.map_eq_nil_iff.mp h.nonempty
  scalar _ hgroup :=
    let ⟨inside', hgroup'⟩ := exists_isGroup_of_map hf hgroup
    h.scalar inside' hgroup'

theorem IsRow.map {parts : List (List Token)} {ts : List Token} (h : IsRow parts ts) :
    IsRow (parts.map (List.map f)) (ts.map f) := by
  obtain ⟨inside, hgroup, hparts, hscalar⟩ := h
  refine ⟨_, isGroup_map hf hgroup, hparts.map hf, ?_⟩
  rintro _ hmem
  obtain ⟨g, hg, rfl⟩ := List.mem_map.mp hmem
  exact (hscalar g hg).map hf

theorem VectorShape.map {ts : List Token} (h : VectorShape ts) : VectorShape (ts.map f) :=
  let ⟨_, _, _, hrow⟩ := h
  ⟨_, _, _, hrow.map hf⟩

theorem TensorShape.map {ts : List Token} (h : TensorShape ts) : TensorShape (ts.map f) := by
  obtain ⟨inside, r, s, hgroup, hrows, ⟨a, b, hr⟩, ⟨c, d, hs⟩⟩ := h
  exact ⟨_, _, _, isGroup_map hf hgroup, hrows.map hf, ⟨_, _, hr.map hf⟩, ⟨_, _, hs.map hf⟩⟩

end Map

namespace Statement

theorem checkVectorBody_of_shape {ts : List Token} (h : VectorShape ts) (l : LogicalLine) :
    checkVectorBody l ts = .ok () := by
  obtain ⟨x, y, z, hrow⟩ := h
  rw [checkVectorBody, hrow.isBracketed, hrow.splitTopLevel_inner]
  dsimp only
  rw [hrow.any_isEmpty, hrow.any_isBracketed]
  rfl

theorem checkTensorBody_of_shape {ts : List Token} (h : TensorShape ts) (l : LogicalLine) :
    checkTensorBody l ts = .ok () := by
  obtain ⟨inside, r, s, hgroup, hrows, ⟨a, b, hr⟩, ⟨c, d, hs⟩⟩ := h
  have hsplit : splitTopLevel (inner ts) = [r, s] := by
    rw [hgroup.inner_eq]
    refine splitTopLevel_of_commaSeparated hrows ?_
    obtain ⟨_, hr⟩ := hr.isGroup
    obtain ⟨_, hs⟩ := hs.isGroup
    simp [hr.setApart, hs.setApart]
  have hfirst : isBracketed ts = true := isBracketed_iff.mpr ⟨inside, hgroup⟩
  have hsecond : (ts.length > 2 && (ts[1]?.map (·.kind)) == some .lbracket) = true := by
    obtain ⟨_, hr⟩ := hr.isGroup
    obtain ⟨o, c, rfl, -, -⟩ := hgroup.brackets
    obtain ⟨o', c', rfl, ho', -⟩ := hr.brackets
    cases hrows
    simp [ho']
  have hall : [r, s].all isBracketed = true := by
    rw [List.all_cons, List.all_cons, hr.isBracketed, hs.isBracketed]
    rfl
  rw [checkTensorBody, hfirst, Bool.true_and, hsecond, hsplit]
  dsimp only
  rw [hall, if_neg (by simp), if_neg (by simp)]
  simp only [List.forIn_cons, List.forIn_nil, hr.splitTopLevel_inner, hs.splitTopLevel_inner,
    hr.any_isEmpty, hr.any_isBracketed, hs.any_isEmpty, hs.any_isBracketed]
  rfl

end Statement
end FieldScript
