import FieldScript.Proofs.BodyGrammar

/-!
# Groups outside brackets

What divides a run of tokens counts how deep each of them stands and does
not tell the kinds of brackets apart; what accepts a run keeps the brackets
that are due. In a run that is accepted both mean the same: the depth is
zero at a token exactly if no pair of brackets stands around it
(`not_enclosed_iff`).

With the separators put back, the groups are the run (`regroup_splitFrom`),
whether its brackets nest or not. So they nest in the run exactly if they
nest in every group (`splitTopLevel_regroups`).
-/

namespace FieldScript

/-! ## Pairs of brackets -/

/-- A pair of brackets stands around the token, and what the pair holds is
nested. -/
def Enclosed (before : List Token) (t : Token) (after : List Token) : Prop :=
  ∃ a o b c d e, before = a ++ o :: b ∧ after = c ++ d :: e ∧
    o.kind.closer? = some d.kind ∧ Nested (b ++ t :: c)

theorem Enclosed.cons {before after : List Token} {t : Token} (u : Token)
    (h : Enclosed before t after) : Enclosed (u :: before) t after := by
  obtain ⟨a, o, b, c, d, e, rfl, hafter, hinside⟩ := h
  exact ⟨u :: a, o, b, c, d, e, rfl, hafter, hinside⟩

theorem Enclosed.prepend {before after : List Token} {t : Token} (front : List Token)
    (h : Enclosed before t after) : Enclosed (front ++ before) t after := by
  induction front with
  | nil => exact h
  | cons u front ih => exact ih.cons u

/-- A bracket that is not closed in front of the token stands there. -/
theorem Enclosed.not_nested {before after : List Token} {t : Token} (h : Enclosed before t after) :
    ¬ Nested before := by
  obtain ⟨a, o, b, c, d, e, rfl, -, hpair, hinside⟩ := h
  intro hbefore
  have hzero := depthOver_of_nested hbefore.properlyNested 0
  have hfront := le_depthOver_of_nestsWith hbefore.properlyNested 0
  have hinner := le_depthOver_of_nestsWith hinside.properlyNested (depthOver 0 a + 1)
  have hopen : depthAfter (depthOver 0 a) o = depthOver 0 a + 1 := by
    rw [depthAfter, Kind.isOpener_eq, hpair]
    rfl
  rw [depthOver_append, depthOver, List.foldl_cons, hopen, ← depthOver] at hzero
  simp only [List.length_nil] at hfront hinner
  omega

/-- Around a token of a nested run stands a pair of brackets, or what
stands in front of it is nested. -/
theorem Nested.nested_or_enclosed {ts before after : List Token} {t : Token} (h : Nested ts)
    (hsplit : ts = before ++ t :: after) (hclose : t.kind.isCloser = false) :
    Nested before ∨ Enclosed before t after := by
  induction h generalizing before after with
  | nil => cases before <;> cases hsplit
  | @plain u rest hu hu' _ ih =>
      cases before with
      | nil => exact Or.inl .nil
      | cons v before =>
          obtain ⟨rfl, hrest⟩ := List.cons.inj hsplit
          exact (ih hrest).imp (.plain hu hu') (.cons u)
  | @group o c inside rest hpair hinside _ _ ih =>
      cases before with
      | nil => exact Or.inl .nil
      | cons v before =>
          obtain ⟨rfl, htail⟩ := List.cons.inj hsplit
          rcases List.append_eq_append_iff.mp htail with ⟨more, rfl, hrest⟩ | ⟨more, rfl, hrest⟩
          · cases more with
            | nil =>
                obtain ⟨rfl, -⟩ := List.cons.inj hrest
                rw [Kind.isCloser_of_closer? hpair] at hclose
                cases hclose
            | cons d more =>
                -- The pair is closed in front of the token.
                obtain ⟨rfl, hbehind⟩ := List.cons.inj hrest
                refine (ih hbehind).imp (.group hpair hinside) fun henclosed => ?_
                have := henclosed.prepend (o :: (inside ++ [c]))
                simpa using this
          · cases more with
            | nil =>
                obtain ⟨rfl, -⟩ := List.cons.inj hrest
                rw [Kind.isCloser_of_closer? hpair] at hclose
                cases hclose
            | cons d more =>
                obtain ⟨rfl, rfl⟩ := List.cons.inj hrest
                exact Or.inr ⟨[], o, before, more, c, rest, rfl, rfl, hpair, hinside⟩

/-- In a nested run the depth at a token is zero exactly if no pair of
brackets stands around it. -/
theorem not_enclosed_iff {before after : List Token} {t : Token}
    (h : Nested (before ++ t :: after)) (hclose : t.kind.isCloser = false) :
    ¬ Enclosed before t after ↔ depthOver 0 before = 0 := by
  rw [h.depthOver_eq_zero_iff]
  exact ⟨(h.nested_or_enclosed rfl hclose).resolve_right,
    fun hbefore henclosed => henclosed.not_nested hbefore⟩

/-! ## Groups and separators -/

/-- The groups one behind the other, with a token between each two. -/
def regroup : List (List Token) → List Token → List Token
  | g :: gs, t :: ts => g ++ t :: regroup gs ts
  | g :: gs, [] => g ++ regroup gs []
  | [], _ => []

theorem regroup_consFirst (t : Token) {gs : List (List Token)} (hgs : gs ≠ []) (ts : List Token) :
    regroup (consFirst t gs) ts = t :: regroup gs ts := by
  obtain ⟨g, gs, rfl⟩ := List.exists_cons_of_ne_nil hgs
  cases ts <;> rfl

theorem nested_regroup {gs : List (List Token)} {ts : List Token} (hgs : ∀ g ∈ gs, Nested g)
    (hts : ∀ t ∈ ts, t.kind.closer? = none ∧ t.kind.isCloser = false) : Nested (regroup gs ts) := by
  induction gs generalizing ts with
  | nil => exact .nil
  | cons g gs ih =>
      obtain ⟨hg, hgs⟩ := List.forall_mem_cons.mp hgs
      cases ts with
      | nil => exact hg.append (ih hgs (List.forall_mem_nil _))
      | cons t ts =>
          obtain ⟨⟨hopen, hclose⟩, hts⟩ := List.forall_mem_cons.mp hts
          exact hg.append (.plain hopen hclose (ih hgs hts))

/-- A separator stands at this place of the run, where the depth, counted
from the given one, is zero. -/
def SeparatorAt (separator : Kind) (depth : Int) (ts : List Token) (i : Nat) : Prop :=
  ∃ before t after, ts = before ++ t :: after ∧ before.length = i ∧ t.kind = separator ∧
    depthOver depth before = 0

section Places

variable {separator : Kind} {depth : Int} {t : Token} {ts : List Token} {i : Nat}

theorem not_separatorAt_nil : ¬ SeparatorAt separator depth [] i := by
  rintro ⟨before, t, after, hnil, -⟩
  cases before <;> cases hnil

theorem separatorAt_zero :
    SeparatorAt separator depth (t :: ts) 0 ↔ t.kind = separator ∧ depth = 0 := by
  constructor
  · rintro ⟨before, u, after, hsplit, hlen, hu, hdepth⟩
    obtain rfl := List.eq_nil_of_length_eq_zero hlen
    obtain ⟨rfl, -⟩ := List.cons.inj hsplit
    exact ⟨hu, hdepth⟩
  · rintro ⟨hu, hdepth⟩
    exact ⟨[], t, ts, rfl, rfl, hu, hdepth⟩

theorem separatorAt_succ : SeparatorAt separator depth (t :: ts) (i + 1) ↔
    SeparatorAt separator (depthAfter depth t) ts i := by
  constructor
  · rintro ⟨before, u, after, hsplit, hlen, hu, hdepth⟩
    cases before with
    | nil => cases hlen
    | cons v before =>
        obtain ⟨rfl, rfl⟩ := List.cons.inj hsplit
        exact ⟨before, u, after, rfl, Nat.succ.inj hlen, hu, hdepth⟩
  · rintro ⟨before, u, after, rfl, rfl, hu, hdepth⟩
    exact ⟨t :: before, u, after, rfl, rfl, hu, hdepth⟩

end Places

/-! ## The groups of a run -/

section Groups

variable {separator : Kind} (hopen : separator.isOpener = false)
  (hclose : separator.isCloser = false)
include hopen hclose

/-- The groups and the separators between them are the run. -/
theorem regroup_splitFrom (depth : Int) (ts : List Token) :
    ∃ places : List Nat, places.Pairwise (· < ·) ∧
      (∀ i, i ∈ places ↔ SeparatorAt separator depth ts i) ∧
      (splitFrom separator depth ts).length = places.length + 1 ∧
      regroup (splitFrom separator depth ts) (places.filterMap (ts[·]?)) = ts := by
  induction ts generalizing depth with
  | nil => exact ⟨[], .nil, fun i => by simp [not_separatorAt_nil], rfl, rfl⟩
  | cons t ts ih =>
      rw [splitFrom_cons hopen hclose]
      -- Behind the first token every place is one further.
      have hshift : ∀ places : List Nat,
          (places.map (· + 1)).filterMap ((t :: ts)[·]?) = places.filterMap (ts[·]?) :=
        fun places => by rw [List.filterMap_map]; rfl
      have hsucc : ∀ {places : List Nat}, places.Pairwise (· < ·) →
          (places.map (· + 1)).Pairwise (· < ·) :=
        fun h => List.pairwise_map.mpr (h.imp Nat.succ_lt_succ)
      split
      · rename_i hcut
        obtain ⟨places, hsorted, hmem, hlength, hregroup⟩ := ih 0
        refine ⟨0 :: places.map (· + 1), .cons (by simp) (hsucc hsorted), fun i => ?_, ?_, ?_⟩
        · cases i with
          | zero => simp [separatorAt_zero, hcut]
          | succ i =>
              rw [separatorAt_succ, depthAfter_separator hopen hclose hcut.1, hcut.2, ← hmem]
              simp
        · rw [List.length_cons, List.length_cons, List.length_map, hlength]
        · rw [List.filterMap_cons, List.getElem?_cons_zero, hshift]
          exact congrArg _ hregroup
      · rename_i hkeep
        obtain ⟨places, hsorted, hmem, hlength, hregroup⟩ := ih (depthAfter depth t)
        refine ⟨places.map (· + 1), hsucc hsorted, fun i => ?_, ?_, ?_⟩
        · cases i with
          | zero => simp [separatorAt_zero, hkeep]
          | succ i =>
              rw [separatorAt_succ, ← hmem]
              simp
        · obtain ⟨g, gs, hsplit⟩ := List.exists_cons_of_ne_nil
            (splitFrom_ne_nil separator (depthAfter depth t) ts)
          rw [List.length_map, ← hlength, hsplit]
          rfl
        · rw [hshift, regroup_consFirst t (splitFrom_ne_nil _ _ ts), hregroup]

end Groups

/-! ## Dividing a run -/

/-- A separator stands at this place of the run, and no pair of brackets
around it. -/
def DividesAt (separator : Kind) (ts : List Token) (i : Nat) : Prop :=
  ∃ before t after, ts = before ++ t :: after ∧ before.length = i ∧ t.kind = separator ∧
    ¬ Enclosed before t after

section Divided

variable {separator : Kind} (hopen : separator.isOpener = false)
  (hclose : separator.isCloser = false)
include hopen hclose

omit hopen in
theorem dividesAt_iff {ts : List Token} (h : properlyNested ts = true) (i : Nat) :
    DividesAt separator ts i ↔ SeparatorAt separator 0 ts i := by
  have hplace : ∀ {before t after}, ts = before ++ t :: after → t.kind = separator →
      (¬ Enclosed before t after ↔ depthOver 0 before = 0) := by
    rintro before t after rfl rfl
    exact not_enclosed_iff (properlyNested_iff.mp h) hclose
  constructor
  · rintro ⟨before, t, after, hts, hlen, ht, henclosed⟩
    exact ⟨before, t, after, hts, hlen, ht, (hplace hts ht).mp henclosed⟩
  · rintro ⟨before, t, after, hts, hlen, ht, hdepth⟩
    exact ⟨before, t, after, hts, hlen, ht, (hplace hts ht).mpr hdepth⟩

theorem nested_of_mem_splitTopLevel {ts : List Token} (h : properlyNested ts = true) :
    ∀ g ∈ splitTopLevel ts separator, properlyNested g = true ∧ ∀ i, ¬ DividesAt separator g i := by
  have hdue : nestsWith [] ts = true := h
  obtain ⟨g, gs, hsplit, hg, houtside, hgs⟩ := splitFrom_divides hopen hclose hdue
  have heq : splitTopLevel ts separator = g :: gs := hsplit
  have hnone : ∀ {g}, properlyNested g = true →
      (∀ t, OutsideBrackets g t → t.kind ≠ separator) → ∀ i, ¬ DividesAt separator g i := by
    intro g hg houtside i
    rw [dividesAt_iff hclose hg]
    rintro ⟨before, t, after, hts, -, ht, hdepth⟩
    exact houtside t ⟨before, after, hts, hdepth⟩ ht
  rw [heq]
  refine List.forall_mem_cons.mpr ⟨⟨hg, hnone hg houtside⟩, fun g' hg' => ?_⟩
  obtain ⟨hnested, houtside'⟩ := hgs g' hg'
  exact ⟨hnested, hnone hnested houtside'⟩

/-- A run whose brackets nest is divided at the separators outside all
brackets and nowhere else, and its brackets nest exactly if they do in
every group. -/
theorem splitTopLevel_regroups (ts : List Token) :
    (properlyNested ts = true ↔ ∀ g ∈ splitTopLevel ts separator, properlyNested g = true) ∧
      (properlyNested ts = true →
        (∀ g ∈ splitTopLevel ts separator, ∀ i, ¬ DividesAt separator g i) ∧
        ∃ places : List Nat, places.Pairwise (· < ·) ∧
          (∀ i, i ∈ places ↔ DividesAt separator ts i) ∧
          (splitTopLevel ts separator).length = places.length + 1 ∧
          regroup (splitTopLevel ts separator) (places.filterMap (ts[·]?)) = ts) := by
  obtain ⟨places, hsorted, hmem, hlength, hregroup⟩ := regroup_splitFrom hopen hclose 0 ts
  refine ⟨⟨fun h g hg => (nested_of_mem_splitTopLevel hopen hclose h g hg).1, fun h => ?_⟩,
    fun h => ⟨fun g hg => (nested_of_mem_splitTopLevel hopen hclose h g hg).2,
      places, hsorted, fun i => ?_, hlength, hregroup⟩⟩
  · rw [← hregroup, properlyNested_iff]
    refine nested_regroup (fun g hg => properlyNested_iff.mp (h g hg)) fun t ht => ?_
    obtain ⟨i, hi, hget⟩ := List.mem_filterMap.mp ht
    obtain ⟨before, u, after, rfl, rfl, rfl, -⟩ := (hmem i).mp hi
    obtain rfl : u = t := by simpa using hget
    rw [Kind.isOpener_eq, Option.isSome_eq_false_iff, Option.isNone_iff_eq_none] at hopen
    exact ⟨hopen, hclose⟩
  · rw [hmem, dividesAt_iff hclose h]

end Divided

/-- A call, a vector and a number, with commas between them and inside. -/
def commaRun : List Token := tokenizeText "FNA(1, 2), [3, 4], 5"

theorem splitTopLevel_regroups_comma :
    Kind.comma.isOpener = false ∧ Kind.comma.isCloser = false ∧ properlyNested commaRun = true ∧
      ∃ places : List Nat, places.length = 2 ∧ (∀ i, i ∈ places ↔ DividesAt .comma commaRun i) ∧
        regroup (splitTopLevel commaRun) (places.filterMap (commaRun[·]?)) = commaRun := by
  have hnested : properlyNested commaRun = true := by decide +kernel
  have hlength : (splitTopLevel commaRun).length = 3 := by decide +kernel
  obtain ⟨-, hdivides⟩ := @splitTopLevel_regroups .comma rfl rfl commaRun
  obtain ⟨-, places, -, hmem, hcount, hregroup⟩ := hdivides hnested
  exact ⟨rfl, rfl, hnested, places, Nat.succ.inj (hcount.symm.trans hlength), hmem, hregroup⟩

end FieldScript
