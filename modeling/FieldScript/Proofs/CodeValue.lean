import FieldScript.Formula
import FieldScript.Proofs.ExprValue
import FieldScript.Proofs.Outcome

/-!
# The code of an expression computes its value

Where an expression has a value, its code gives the same value in exact
arithmetic (`eval_code`): putting sums and products in the order of
evaluation permutes their operands, and a product that is written as a
quotient has its negative powers in the denominator with the exponent
turned, which changes nothing because none of them is zero.

Truth values are one and zero in code.
-/

namespace FieldScript

/-- The value as a scalar. -/
noncomputable def Value.exact : Value → Exact
  | number x => .number x
  | truth b => Scalar.ofBool b

namespace Value

theorem exact_eq (v : Value) : v.exact = .number v.scalar := by
  cases v with
  | number x => rfl
  | truth b =>
      cases b with
      | true => exact congrArg Exact.number Int.cast_one
      | false => exact congrArg Exact.number Int.cast_zero

theorem truth_exact (v : Value) : Scalar.truth v.exact = v.holds := by
  cases v with
  | number x =>
      show (!decide (x = ((0 : ℤ) : ℝ))) = decide (x ≠ 0)
      rw [Int.cast_zero, decide_not]
  | truth b =>
      cases b with
      | true =>
          show (!decide (((1 : ℤ) : ℝ) = ((0 : ℤ) : ℝ))) = true
          simp
      | false =>
          show (!decide (((0 : ℤ) : ℝ) = ((0 : ℤ) : ℝ))) = false
          simp

end Value

/-! ## Permuted operands -/

theorem exists_mapM_perm {α β : Type} {f : α → Option β} {l l' : List α} (h : l.Perm l')
    {ys : List β} (hys : l.mapM f = some ys) : ∃ ys', l'.mapM f = some ys' ∧ ys.Perm ys' := by
  induction h generalizing ys with
  | nil => exact ⟨ys, hys, List.Perm.refl _⟩
  | cons a _ ih =>
      obtain ⟨b, bs, hb, hbs, rfl⟩ := mapM_cons_eq_some.mp hys
      obtain ⟨bs', hbs', hperm⟩ := ih hbs
      exact ⟨b :: bs', mapM_cons_eq_some.mpr ⟨b, bs', hb, hbs', rfl⟩, hperm.cons b⟩
  | swap a a' _ =>
      obtain ⟨b, _, hb, hmore, rfl⟩ := mapM_cons_eq_some.mp hys
      obtain ⟨b', bs, hb', hbs, rfl⟩ := mapM_cons_eq_some.mp hmore
      have htail := mapM_cons_eq_some.mpr ⟨b, bs, hb, hbs, rfl⟩
      exact ⟨b' :: b :: bs, mapM_cons_eq_some.mpr ⟨b', _, hb', htail, rfl⟩,
        List.Perm.swap b' b bs⟩
  | trans _ _ ih ih' =>
      obtain ⟨bs, hbs, hperm⟩ := ih hys
      obtain ⟨bs', hbs', hperm'⟩ := ih' hbs
      exact ⟨bs', hbs', hperm.trans hperm'⟩

namespace Expr

variable {σ : Valuation}

theorem values?_eq_mapM (es : List Expr) : values? σ es = es.mapM (value? σ) := by
  induction es with
  | nil => rfl
  | cons e es ih => rw [values?, ih, List.mapM_cons]

theorem values?_perm {es es' : List Expr} (h : es.Perm es') {vs : List Value}
    (hvs : values? σ es = some vs) : ∃ vs', values? σ es' = some vs' ∧ vs.Perm vs' := by
  rw [values?_eq_mapM] at hvs ⊢
  exact exists_mapM_perm h hvs

theorem sortByKey_perm (es : List Expr) : (sortByKey es).Perm es := by
  rw [sortByKey]
  refine ((List.mergeSort_perm _ _).map _).trans (List.Perm.of_eq ?_)
  rw [List.map_map]
  exact List.map_id es

theorem sortTerms_perm (ts : List Expr) : (sortTerms ts).Perm ts := by
  rw [sortTerms]
  refine ((List.mergeSort_perm _ _).map _).trans (List.Perm.of_eq ?_)
  rw [List.map_map]
  exact List.map_snd_zip (by rw [List.length_map])

theorem add_value?_perm {vs vs' : List Value} (h : vs.Perm vs') {v : Value}
    (hv : Head.add.value? vs = some v) : Head.add.value? vs' = some v := by
  cases vs with
  | nil => cases hv
  | cons w vs =>
      cases vs' with
      | nil => cases h.eq_nil
      | cons w' vs' =>
          obtain ⟨xs, hxs, rfl⟩ := Option.map_eq_some_iff.mp hv
          obtain ⟨xs', hxs', hperm⟩ := exists_mapM_perm h hxs
          exact Option.map_eq_some_iff.mpr ⟨xs', hxs', by rw [hperm.sum_eq]⟩

theorem mul_value?_perm {vs vs' : List Value} (h : vs.Perm vs') {v : Value}
    (hv : Head.mul.value? vs = some v) : Head.mul.value? vs' = some v := by
  cases vs with
  | nil => cases hv
  | cons w vs =>
      cases vs' with
      | nil => cases h.eq_nil
      | cons w' vs' =>
          obtain ⟨xs, hxs, rfl⟩ := Option.map_eq_some_iff.mp hv
          obtain ⟨xs', hxs', hperm⟩ := exists_mapM_perm h hxs
          exact Option.map_eq_some_iff.mpr ⟨xs', hxs', by rw [hperm.prod_eq]⟩

theorem arranged_eq_num {e : Expr} {n : Num} (h : e.arranged = num n) : e = num n := by
  cases e with
  | node k as => cases k <;> cases h
  | _ => exact h

theorem arrangedList_eq_map (es : List Expr) : arrangedList es = es.map arranged := by
  induction es with
  | nil => rfl
  | cons e es ih => rw [arrangedList, ih, List.map_cons]

theorem leavesLine_arrangedList {h : Head} {as : List Expr} (hline : leavesLine h as = false) :
    leavesLine h (arrangedList as) = false := by
  rw [← Bool.not_eq_true] at hline ⊢
  intro hleaves
  apply hline
  unfold leavesLine at hleaves
  split at hleaves
  · rename_i b x has
    rw [arrangedList_eq_map] at has
    obtain ⟨a, as', rfl, ha, has⟩ := List.map_eq_cons_iff.mp has
    obtain ⟨a', as', rfl, ha', has⟩ := List.map_eq_cons_iff.mp has
    obtain rfl := List.map_eq_nil_iff.mp has
    rw [arranged_eq_num ha, arranged_eq_num ha']
    exact hleaves
  · cases hleaves

/-- The order of evaluation does not change the value. -/
theorem value?_arranged {e : Expr} {v : Value} (h : e.value? σ = some v) :
    e.arranged.value? σ = some v := by
  induction e using nodeInduction generalizing v with
  | leaf e hleaf =>
      cases e with
      | node k as => exact absurd rfl (hleaf k as)
      | _ => exact h
  | node k as ih =>
      obtain ⟨vs, hvs, hline, hk⟩ := value?_node.mp h
      have hlist : ∀ (es : List Expr) (ws : List Value), (∀ e ∈ es, e ∈ as) →
          values? σ es = some ws → values? σ (arrangedList es) = some ws := by
        intro es
        induction es with
        | nil => exact fun _ _ h => h
        | cons e es ihes =>
            intro ws hmem hws
            obtain ⟨he, hes⟩ := List.forall_mem_cons.mp hmem
            obtain ⟨w, ws', hw, hws', rfl⟩ := values?_cons.mp hws
            exact values?_cons.mpr ⟨w, ws', ih e he hw, ihes ws' hes hws', rfl⟩
      replace hvs := hlist as vs (fun _ h => h) hvs
      cases k with
      | add =>
          obtain ⟨vs', hvs', hperm⟩ := values?_perm (sortTerms_perm _).symm hvs
          exact value?_node.mpr ⟨vs', hvs', rfl, add_value?_perm hperm hk⟩
      | mul =>
          obtain ⟨vs', hvs', hperm⟩ := values?_perm (sortByKey_perm _).symm hvs
          exact value?_node.mpr ⟨vs', hvs', rfl, mul_value?_perm hperm hk⟩
      | _ => exact value?_node.mpr ⟨vs, hvs, leavesLine_arrangedList hline, hk⟩

end Expr

/-! ## Code of operations -/

namespace Code

variable {inputs : List Exact}

theorem evalList_eq_map {α : Type} [Scalar α] (ins : List α) (cs : List (Code α)) :
    evalList ins cs = cs.map (eval ins) := by
  induction cs with
  | nil => rfl
  | cons c cs ih => rw [evalList, ih, List.map_cons]

theorem eval_foldl_binary {f : Exact → Exact → Exact} {g : ℝ → ℝ → ℝ}
    (hf : ∀ x y, f (.number x) (.number y) = .number (g x y)) {cs : List (Code Exact)}
    {c : Code Exact} {x : ℝ} {xs : List ℝ} (hc : c.eval inputs = .number x)
    (hcs : evalList inputs cs = xs.map Exact.number) :
    (cs.foldl (binary f) c).eval inputs = .number (xs.foldl g x) := by
  induction cs generalizing c x xs with
  | nil =>
      obtain rfl := List.map_eq_nil_iff.mp hcs.symm
      exact hc
  | cons d ds ih =>
      obtain ⟨y, ys, rfl, hd, hds⟩ := List.map_eq_cons_iff.mp hcs.symm
      have hjoin : (binary f c d).eval inputs = .number (g x y) := by
        rw [eval, hc, ← hd, hf]
      rw [List.foldl_cons, List.foldl_cons]
      exact ih hjoin hds.symm

/-- Joining numbers by an operation that stays on the real line. -/
theorem eval_joined {f : Exact → Exact → Exact} {g : ℝ → ℝ → ℝ}
    (hf : ∀ x y, f (.number x) (.number y) = .number (g x y)) {cs : List (Code Exact)} {x : ℝ}
    {xs : List ℝ} (h : evalList inputs cs = (x :: xs).map Exact.number) :
    (joined f cs).eval inputs = .number (xs.foldl g x) := by
  cases cs with
  | nil => cases h
  | cons c cs =>
      obtain ⟨hc, hcs⟩ := List.cons.inj h
      exact eval_foldl_binary hf hc hcs

theorem foldl_add (x : ℝ) (xs : List ℝ) : xs.foldl (· + ·) x = (x :: xs).sum := by
  induction xs generalizing x with
  | nil => simp
  | cons y ys ih =>
      rw [List.foldl_cons, ih, List.sum_cons, List.sum_cons, List.sum_cons, add_assoc]

theorem foldl_mul (x : ℝ) (xs : List ℝ) : xs.foldl (· * ·) x = (x :: xs).prod := by
  induction xs generalizing x with
  | nil => simp
  | cons y ys ih =>
      rw [List.foldl_cons, ih, List.prod_cons, List.prod_cons, List.prod_cons, mul_assoc]

theorem eval_product {cs : List (Code Exact)} {xs : List ℝ} (hne : xs ≠ [])
    (h : evalList inputs cs = xs.map Exact.number) :
    (joined (· * ·) cs).eval inputs = .number xs.prod := by
  cases xs with
  | nil => exact absurd rfl hne
  | cons x xs =>
      rw [← foldl_mul]
      exact eval_joined (fun _ _ => rfl) h

theorem selected_exact {vs : List Value} {v : Value} (h : Value.selected? vs = some v) :
    selected (vs.map Value.exact) = v.exact := by
  fun_induction Value.selected? vs with
  | case1 w c rest hc =>
      obtain rfl := Option.some.inj h
      show (if Scalar.truth c.exact then w.exact else _) = _
      rw [Value.truth_exact, if_pos hc]
  | case2 w c rest hc ih =>
      show (if Scalar.truth c.exact then w.exact else _) = _
      rw [Value.truth_exact, if_neg hc]
      exact ih h
  | case3 => cases h

theorem comparison_exact (r : Relation) (x y : ℝ) :
    comparison r (Exact.number x) (Exact.number y) = (Value.truth (r.real x y)).exact := by
  cases r with
  | notEqual =>
      show Scalar.ofBool (!decide (x = y)) = Scalar.ofBool (decide (x ≠ y))
      rw [decide_not]
  | _ => rfl

theorem all_truth_exact (vs : List Value) :
    (vs.map Value.exact).all Scalar.truth = vs.all Value.holds := by
  rw [List.all_map]
  exact congrArg vs.all (funext Value.truth_exact)

theorem any_truth_exact (vs : List Value) :
    (vs.map Value.exact).any Scalar.truth = vs.any Value.holds := by
  rw [List.any_map]
  exact congrArg vs.any (funext Value.truth_exact)

end Code

namespace Expr

section Product

variable {place : String → Nat} {plane : Float → Float → Exact} {inputs : List Exact}

theorem planePoint?_eq_none {b x : Expr} (h : leavesLine .pow [b, x] = false) :
    planePoint? (pow b x) = none := by
  unfold planePoint?
  split
  · rename_i n k heq
    obtain ⟨-, hargs⟩ := node.inj heq
    obtain ⟨rfl, hrest⟩ := List.cons.inj hargs
    obtain ⟨rfl, -⟩ := List.cons.inj hrest
    rw [← Bool.not_eq_true] at h
    exact if_neg h
  · rfl

/-- The three forms of the code of a power to an exact number. -/
theorem powerCode_cases {b : Expr} {r : Rat} (bCode xCode : Code Exact)
    (hline : leavesLine .pow [b, num (.exact r)] = false) :
    r = 1 / 2 ∧ powerCode bCode b (num (.exact r)) xCode plane = .unary Scalar.sqrt bCode ∨
    r = -(1 / 2) ∧ powerCode bCode b (num (.exact r)) xCode plane
        = .unary (fun v => Scalar.ofInt 1 / Scalar.sqrt v) bCode ∨
    powerCode bCode b (num (.exact r)) xCode plane = .binary Scalar.power bCode xCode := by
  unfold powerCode
  rw [planePoint?_eq_none hline]
  dsimp only
  split
  · rename_i hr
    refine Or.inl ⟨?_, rfl⟩
    rw [eq_of_beq hr]
    norm_num
  · split
    · rename_i hr
      refine Or.inr (Or.inl ⟨?_, rfl⟩)
      rw [eq_of_beq hr]
      norm_num
    · exact Or.inr (Or.inr rfl)

theorem eval_sqrt {c : Code Exact} {y z : ℝ} (hc : c.eval inputs = .number y)
    (hz : power? y (1 / 2) = some z) : (Code.unary Scalar.sqrt c).eval inputs = .number z := by
  rw [power?_half] at hz
  split at hz
  · rename_i hy
    obtain rfl := Option.some.inj hz
    rw [Code.eval, hc]
    exact congrArg Exact.ofOption (if_pos hy)
  · cases hz

theorem eval_power {c d : Code Exact} {y e z : ℝ} (hc : c.eval inputs = .number y)
    (hd : d.eval inputs = .number e) (hz : power? y e = some z) :
    (Code.binary Scalar.power c d).eval inputs = .number z := by
  rw [Code.eval, hc, hd]
  exact congrArg Exact.ofOption hz

theorem quotient_exact {x y : ℝ} (hy : y ≠ 0) :
    Exact.number x / Exact.number y = .number (x / y) :=
  congrArg Exact.ofOption (if_neg hy)

/-- The code of a power gives the power. -/
theorem eval_powerCode {b x : Expr} {bCode xCode : Code Exact} {y e z : ℝ}
    (hline : leavesLine .pow [b, x] = false) (hb : bCode.eval inputs = .number y)
    (hx : xCode.eval inputs = .number e) (hexact : ∀ r, x = num (.exact r) → e = r)
    (hz : power? y e = some z) :
    (powerCode bCode b x xCode plane).eval inputs = .number z := by
  by_cases hr : ∃ r, x = num (.exact r)
  · obtain ⟨r, rfl⟩ := hr
    obtain rfl := hexact r rfl
    rcases powerCode_cases bCode xCode hline with ⟨rfl, hcode⟩ | ⟨rfl, hcode⟩ | hcode
    · rw [hcode]
      refine eval_sqrt hb ?_
      rw [← hz]
      norm_num
    · have hneg : power? y (-(1 / 2)) = some z := by
        rw [← hz]
        norm_num
      obtain ⟨hy, hz0⟩ := ne_zero_of_power? hneg (by norm_num)
      have hroot := power?_neg hneg hy
      rw [neg_neg] at hroot
      have hsqrt := eval_sqrt hb hroot
      rw [Code.eval] at hsqrt
      rw [hcode, Code.eval]
      show Scalar.ofInt 1 / Scalar.sqrt (bCode.eval inputs) = _
      rw [hsqrt]
      refine (quotient_exact (inv_ne_zero hz0)).trans ?_
      rw [Int.cast_one, one_div, inv_inv]
    · rw [hcode]
      exact eval_power hb hx hz
  · have hcode : powerCode bCode b x xCode plane = .binary Scalar.power bCode xCode := by
      unfold powerCode
      rw [planePoint?_eq_none hline]
      split
      · rename_i heq
        cases heq
      · exact absurd ⟨_, rfl⟩ hr
      · rfl
    rw [hcode]
    exact eval_power hb hx hz

/-- A factor with its code and its value. A product looks into powers to
an exact number and at numeric coefficients. -/
inductive Factor (plane : Float → Float → Exact) (inputs : List Exact) : Expr × Code Exact → ℝ → Prop
  | power {b : Expr} {r : Rat} {bCode xCode : Code Exact} {y z : ℝ}
      (hline : leavesLine .pow [b, num (.exact r)] = false)
      (hb : bCode.eval inputs = .number y) (hx : xCode.eval inputs = .number (r : ℝ))
      (hz : power? y r = some z) :
      Factor plane inputs
        (pow b (num (.exact r)), powerCode bCode b (num (.exact r)) xCode plane) z
  | number (n : Num) : Factor plane inputs (num n, .literal (literalOf n)) n.shownValue
  | other {e : Expr} {c : Code Exact} {x : ℝ} (hc : c.eval inputs = .number x)
      (hpower : ∀ b r, e ≠ pow b (num (.exact r))) (hnumber : ∀ n, e ≠ num n) :
      Factor plane inputs (e, c) x

theorem Factor.eval {p : Expr × Code Exact} {x : ℝ} (h : Factor plane inputs p x) :
    p.2.eval inputs = .number x := by
  cases h with
  | power hline hb hx hz =>
      exact eval_powerCode hline hb hx (fun r hr => by cases hr; rfl) hz
  | number n => rfl
  | other hc _ _ => exact hc

/-- Codes of a numerator and of a denominator that is not zero, whose
quotient is the number. -/
def Quotient (inputs : List Exact) (p : List (Code Exact) × List (Code Exact)) (x : ℝ) : Prop :=
  ∃ us ws : List ℝ, Code.evalList inputs p.1 = us.map Exact.number ∧
    Code.evalList inputs p.2 = ws.map Exact.number ∧ ws.prod ≠ 0 ∧ us.prod = x * ws.prod

theorem Quotient.above {above below : List (Code Exact)} {c : Code Exact} {x u : ℝ}
    (h : Quotient inputs (above, below) x) (hc : c.eval inputs = .number u) :
    Quotient inputs (c :: above, below) (u * x) := by
  obtain ⟨us, ws, hus, hws, hne, hprod⟩ := h
  refine ⟨u :: us, ws, ?_, hws, hne, ?_⟩
  · rw [Code.evalList, hc, hus]
    rfl
  · rw [List.prod_cons, hprod, mul_assoc]

theorem Quotient.below {above below : List (Code Exact)} {c : Code Exact} {x w : ℝ}
    (h : Quotient inputs (above, below) x) (hc : c.eval inputs = .number w) (hw : w ≠ 0) :
    Quotient inputs (above, c :: below) (w⁻¹ * x) := by
  obtain ⟨us, ws, hus, hws, hne, hprod⟩ := h
  refine ⟨us, w :: ws, hus, ?_, ?_, ?_⟩
  · rw [Code.evalList, hc, hws]
    rfl
  · rw [List.prod_cons]
    exact mul_ne_zero hw hne
  · rw [List.prod_cons, hprod]
    field_simp

/-- The code of a negative power with the exponent turned. -/
theorem eval_turned {b : Expr} {r : Rat} {bCode : Code Exact} {y z : ℝ}
    (hline : leavesLine .pow [b, num (.exact r)] = false) (hb : bCode.eval inputs = .number y)
    (hz : power? y r = some z) (hr : r < 0) :
    (if (r == -1) = true then bCode
      else powerCode bCode b (ofRat (-r)) (.literal (Scalar.ofRat (-r))) plane).eval inputs
        = .number z⁻¹ := by
  have hneg : ((r : ℚ) : ℝ) < 0 := by exact_mod_cast hr
  obtain ⟨hy, -⟩ := ne_zero_of_power? hz hneg
  split
  · rename_i hone
    rw [eq_of_beq hone] at hz
    push_cast at hz
    rw [(power?_neg_one hz).2, inv_inv, hb]
  · have hline' : leavesLine .pow [b, ofRat (-r)] = false := by
      unfold leavesLine at hline ⊢
      split
      · rename_i n x hargs
        obtain ⟨rfl, hrest⟩ := List.cons.inj hargs
        obtain ⟨hx, -⟩ := List.cons.inj hrest
        cases hx
        exact hline
      · rfl
    refine eval_powerCode hline' hb rfl (fun s hs => by cases hs; rfl) ?_
    rw [Rat.cast_neg]
    exact power?_neg hz hy

/-- Every factor stands in the numerator or, if it is a negative power,
in the denominator. -/
theorem quotient_splitQuotient {fs : List (Expr × Code Exact)} {xs : List ℝ}
    (h : List.Forall₂ (Factor plane inputs) fs xs) :
    Quotient inputs (splitQuotient plane fs) xs.prod := by
  induction h with
  | nil => exact ⟨[], [], rfl, rfl, by simp, by simp⟩
  | @cons f x fs xs hf _ ih =>
      rw [List.prod_cons]
      have heval := hf.eval
      cases hf with
      | number n => exact ih.above heval
      | other hc hpower hnumber =>
          unfold splitQuotient
          dsimp only
          split
          · exact absurd rfl (hpower _ _)
          · exact absurd rfl (hpower _ _)
          · exact ih.above heval
      | @power b r bCode xCode y z hline hb hx hz =>
          rcases powerCode_cases bCode xCode hline with ⟨rfl, hcode⟩ | ⟨rfl, hcode⟩ | hcode <;>
            rw [hcode] at heval ⊢
          · rw [splitQuotient]
            dsimp only
            rw [if_neg (by norm_num)]
            exact ih.above heval
          · have hneg : power? y (-(1 / 2)) = some x := by
              rw [← hz]
              norm_num
            obtain ⟨hy, hx0⟩ := ne_zero_of_power? hneg (by norm_num)
            have hroot := power?_neg hneg hy
            rw [neg_neg] at hroot
            have hbelow := ih.below (eval_sqrt hb hroot) (inv_ne_zero hx0)
            rw [inv_inv] at hbelow
            rw [splitQuotient]
            dsimp only
            rw [if_pos (by norm_num)]
            exact hbelow
          · rw [splitQuotient]
            dsimp only
            split
            · rename_i hr
              have hneg : ((r : ℚ) : ℝ) < 0 := by exact_mod_cast hr
              have hturned := @eval_turned plane inputs b r bCode y x hline hb hz hr
              have hbelow := ih.below hturned (inv_ne_zero (ne_zero_of_power? hz hneg).2)
              rw [inv_inv] at hbelow
              exact hbelow
            · exact ih.above heval

/-- The numerator of a quotient: an empty one counts as one, and the sign
is that of the first factor. -/
theorem eval_numerator {above : List (Code Exact)} {us : List ℝ}
    (hus : Code.evalList inputs above = us.map .number) (negative : Bool) :
    (quotientCode negative above []).eval inputs = .number (if negative then -us.prod else us.prod) := by
  obtain ⟨a, as, u, us', hcodes, ha, has, hu⟩ : ∃ (a : Code Exact) (as : List (Code Exact))
      (u : ℝ) (us' : List ℝ), (if above.isEmpty then [.literal (Scalar.ofInt 1)] else above) = a :: as ∧
        a.eval inputs = .number u ∧ Code.evalList inputs as = us'.map Exact.number ∧
        u * us'.prod = us.prod := by
    cases above with
    | nil =>
        obtain rfl := List.map_eq_nil_iff.mp hus.symm
        exact ⟨_, [], _, [], rfl, rfl, rfl, by simp⟩
    | cons a as =>
        obtain ⟨u, us', rfl, ha, has⟩ := List.map_eq_cons_iff.mp hus.symm
        exact ⟨a, as, u, us', rfl, ha.symm, has.symm, List.prod_cons.symm⟩
  rw [quotientCode, hcodes]
  cases negative with
  | true =>
      have hlist : Code.evalList inputs (.unary (fun v => -v) a :: as)
          = (-u :: us').map Exact.number := by
        rw [Code.evalList, Code.eval, ha, has]
        rfl
      have heval := Code.eval_product (List.cons_ne_nil _ _) hlist
      rw [List.prod_cons, neg_mul, hu] at heval
      exact heval
  | false =>
      have hlist : Code.evalList inputs (a :: as) = (u :: us').map Exact.number := by
        rw [Code.evalList, ha, has]
        rfl
      have heval := Code.eval_product (List.cons_ne_nil _ _) hlist
      rw [List.prod_cons, hu] at heval
      exact heval

theorem eval_quotientCode {p : List (Code Exact) × List (Code Exact)} {x : ℝ}
    (h : Quotient inputs p x) (negative : Bool) :
    (quotientCode negative p.1 p.2).eval inputs = .number (if negative then -x else x) := by
  obtain ⟨us, ws, hus, hws, hne, hprod⟩ := h
  obtain ⟨above, below⟩ := p
  have htop := eval_numerator hus negative
  rw [hprod] at htop
  cases below with
  | nil =>
      obtain rfl := List.map_eq_nil_iff.mp hws.symm
      rw [List.prod_nil, mul_one] at htop
      exact htop
  | cons b bs =>
      have hws' : ws ≠ [] := by
        rintro rfl
        cases hws
      have hcode : quotientCode negative above (b :: bs)
          = .binary (· / ·) (quotientCode negative above []) (Code.joined (· * ·) (b :: bs)) := rfl
      rw [hcode, Code.eval, htop, Code.eval_product hws' hws]
      refine (quotient_exact hne).trans ?_
      cases negative
      · exact congrArg Exact.number (mul_div_cancel_right₀ x hne)
      · exact congrArg Exact.number (by
          rw [if_pos rfl, if_pos rfl, neg_div, mul_div_cancel_right₀ x hne])

theorem neg_shownValue (n : Num) : n.neg.shownValue = -n.shownValue := by
  cases n with
  | exact r => rfl
  | rounded r bits =>
      simp only [Num.neg, Num.shownValue, Rat.neg_num, Rat.neg_den, Int.natAbs_neg, beq_iff_eq]
      generalize Num.shownRatio r.num.natAbs r.den bits = p
      rcases lt_trichotomy r.num 0 with hneg | hzero | hpos
      · rw [if_neg (by omega), if_neg (by omega), if_neg (by omega), if_pos hneg, Rat.neg_mkRat,
          neg_neg]
      · rw [if_pos (by omega), if_pos hzero]
        exact neg_zero.symm
      · rw [if_neg (by omega), if_pos (by omega), if_neg (by omega), if_neg (by omega),
          Rat.neg_mkRat]

theorem splitSign_other {e : Expr} {c : Code Exact} {fs : List (Expr × Code Exact)}
    (h : ∀ n, e ≠ num n) : splitSign ((e, c) :: fs) = (false, (e, c) :: fs) := by
  unfold splitSign
  split
  · rename_i heq
    obtain ⟨hhead, -⟩ := List.cons.inj heq
    exact absurd (Prod.mk.inj hhead).1 (h _)
  · rfl

/-- The sign of a product is that of its coefficient. -/
theorem splitSign_value {fs : List (Expr × Code Exact)} {xs : List ℝ}
    (h : List.Forall₂ (Factor plane inputs) fs xs) :
    ∃ xs', List.Forall₂ (Factor plane inputs) (splitSign fs).2 xs' ∧
      xs.prod = if (splitSign fs).1 then -xs'.prod else xs'.prod := by
  cases h with
  | nil => exact ⟨[], .nil, rfl⟩
  | @cons f x fs xs hf hfs =>
      cases hf with
      | other hc hpower hnumber =>
          rw [splitSign_other hnumber]
          exact ⟨x :: xs, .cons (.other hc hpower hnumber) hfs, rfl⟩
      | power hline hb hx hz =>
          rw [splitSign_other fun n h => by cases h]
          exact ⟨x :: xs, .cons (.power hline hb hx hz) hfs, rfl⟩
      | number n =>
          rw [splitSign]
          split
          · have hturned : (n.shownValue : ℝ) = -(n.neg.shownValue : ℝ) := by
              rw [neg_shownValue, Rat.cast_neg, neg_neg]
            rw [List.prod_cons, hturned, neg_mul]
            split
            · rename_i hone
              rw [eq_of_beq hone]
              refine ⟨xs, hfs, ?_⟩
              show -(((1 : ℚ) : ℝ) * xs.prod) = -xs.prod
              rw [Rat.cast_one, one_mul]
            · exact ⟨_, .cons (.number n.neg) hfs, (if_pos rfl).symm⟩
          · exact ⟨_, .cons (.number n) hfs, rfl⟩
theorem eval_productCode {fs : List (Expr × Code Exact)} {xs : List ℝ}
    (h : List.Forall₂ (Factor plane inputs) fs xs) :
    (productCode plane fs).eval inputs = .number xs.prod := by
  obtain ⟨xs', hxs', hprod⟩ := splitSign_value h
  rw [hprod]
  exact eval_quotientCode (quotient_splitQuotient hxs') _

/-! ## Code of expressions -/

theorem evalList_codes {σ : Valuation} {as : List Expr} {vs : List Value}
    (hvs : values? σ as = some vs)
    (has : ∀ a ∈ as, ∀ v, a.value? σ = some v → (a.toCode place plane).eval inputs = v.exact) :
    Code.evalList inputs (codes place plane as) = vs.map Value.exact := by
  induction as generalizing vs with
  | nil =>
      obtain rfl := Option.some.inj hvs
      rfl
  | cons a as ih =>
      obtain ⟨w, ws, hw, hws, rfl⟩ := values?_cons.mp hvs
      obtain ⟨ha, has⟩ := List.forall_mem_cons.mp has
      rw [codes, Code.evalList, ha w hw, ih hws has, List.map_cons]

theorem forall₂_factor {σ : Valuation} {as : List Expr} {xs : List ℝ}
    (hxs : values? σ as = some (xs.map .number))
    (has : ∀ a ∈ as, ∀ x, a.value? σ = some (.number x) →
      Factor plane inputs (a, a.toCode place plane) x) :
    List.Forall₂ (Factor plane inputs) (as.zip (codes place plane as)) xs := by
  induction as generalizing xs with
  | nil =>
      obtain rfl := List.map_eq_nil_iff.mp (Option.some.inj hxs).symm
      exact .nil
  | cons a as ih =>
      obtain ⟨w, ws, hw, hws, hcons⟩ := values?_cons.mp hxs
      obtain ⟨x, xs, rfl, rfl, rfl⟩ := List.map_eq_cons_iff.mp hcons
      obtain ⟨ha, has⟩ := List.forall_mem_cons.mp has
      exact .cons (ha x hw) (ih hws has)

theorem unaryFn_exact {f : Fn} {x y : ℝ} (h : f.unary? x = some y) :
    Code.unaryFn f (Exact.number x) = .number y := by
  have hlift : Code.unaryFn f (Exact.number x) = Exact.ofOption (f.unary? x) := by
    cases f <;> rfl
  rw [hlift, h]
  rfl

theorem binaryFn_exact {f : Fn} {x y z : ℝ} (h : f.binary? x y = some z) :
    Code.binaryFn f (Exact.number x) (Exact.number y) = .number z := by
  cases f <;> first
    | cases h
    | exact congrArg Exact.ofOption h

/-- The code of a library function gives the function. -/
theorem eval_fn {f : Fn} {as : List Expr} {cs : List (Code Exact)} {xs : List ℝ} {y : ℝ}
    (hcs : Code.evalList inputs cs = xs.map .number) (hy : f.real? xs = some y) :
    (operationCode plane (.fn f) as cs).eval inputs = .number y := by
  by_cases hmax : f = .max
  · subst hmax
    cases xs with
    | nil => cases hy
    | cons x xs =>
        obtain rfl := Option.some.inj hy
        exact Code.eval_joined (fun _ _ => rfl) hcs
  by_cases hmin : f = .min
  · subst hmin
    cases xs with
    | nil => cases hy
    | cons x xs =>
        obtain rfl := Option.some.inj hy
        exact Code.eval_joined (fun _ _ => rfl) hcs
  -- All other functions have one or two arguments.
  rw [Code.evalList_eq_map] at hcs
  match xs with
  | [] => cases f <;> cases hy
  | [x] =>
      obtain ⟨c, cs, rfl, hc, hnil⟩ := List.map_eq_cons_iff.mp hcs
      obtain rfl := List.map_eq_nil_iff.mp hnil
      have hcode : operationCode plane (.fn f) as [c] = .unary (Code.unaryFn f) c := by
        cases f <;> first | rfl | exact absurd rfl hmax | exact absurd rfl hmin
      have hunary : f.unary? x = some y := by
        cases f <;> first | exact hy | exact absurd rfl hmax | exact absurd rfl hmin
      rw [hcode, Code.eval, hc]
      exact unaryFn_exact hunary
  | [x, x'] =>
      obtain ⟨c, cs, rfl, hc, hcons⟩ := List.map_eq_cons_iff.mp hcs
      obtain ⟨d, cs, rfl, hd, hnil⟩ := List.map_eq_cons_iff.mp hcons
      obtain rfl := List.map_eq_nil_iff.mp hnil
      have hcode : operationCode plane (.fn f) as [c, d] = .binary (Code.binaryFn f) c d := by
        cases f <;> rfl
      have hbinary : f.binary? x x' = some y := by
        cases f <;> first | exact hy | exact absurd rfl hmax | exact absurd rfl hmin
      rw [hcode, Code.eval, hc, hd]
      exact binaryFn_exact hbinary
  | _ :: _ :: _ :: _ =>
      cases f <;> first | exact absurd rfl hmax | exact absurd rfl hmin | cases hy

/-- The code of an operation gives the operation on the values of the
operands. A power and a product look at the operands themselves. -/
theorem eval_operation {h : Head} {as : List Expr} {cs : List (Code Exact)} {vs : List Value}
    {v : Value} (hcs : Code.evalList inputs cs = vs.map Value.exact) (hv : h.value? vs = some v)
    (hmul : ∀ xs : List ℝ, h = .mul → vs = xs.map .number →
      List.Forall₂ (Factor plane inputs) (as.zip cs) xs)
    (hpow : ∀ y e z, h = .pow → vs = [.number y, .number e] → power? y e = some z →
      ∃ b x bCode xCode, as = [b, x] ∧ cs = [bCode, xCode] ∧
        (powerCode bCode b x xCode plane).eval inputs = .number z) :
    (operationCode plane h as cs).eval inputs = v.exact := by
  have hnumbers : ∀ xs : List ℝ, vs = xs.map .number →
      Code.evalList inputs cs = xs.map Exact.number := by
    rintro xs rfl
    rw [hcs, List.map_map]
    rfl
  unfold Head.value? at hv
  split at hv
  case h_1 w ws =>
    -- sums
    obtain ⟨xs, hxs, rfl⟩ := Option.map_eq_some_iff.mp hv
    have hlist := hnumbers xs (Value.mapM_number?_iff.mp hxs)
    cases xs with
    | nil => cases Value.mapM_number?_iff.mp hxs
    | cons x xs =>
        refine (Code.eval_joined (fun _ _ => rfl) hlist).trans ?_
        rw [Code.foldl_add]
        rfl
  case h_2 w ws =>
    -- products
    obtain ⟨xs, hxs, rfl⟩ := Option.map_eq_some_iff.mp hv
    exact eval_productCode (hmul xs rfl (Value.mapM_number?_iff.mp hxs))
  case h_3 y e =>
    -- powers
    obtain ⟨z, hz, rfl⟩ := Option.map_eq_some_iff.mp hv
    obtain ⟨b, x, bCode, xCode, rfl, rfl, heval⟩ := hpow y e z rfl rfl hz
    exact heval
  case h_4 f =>
    -- library functions
    obtain ⟨xs, hxs, hv⟩ := Option.bind_eq_some_iff.mp hv
    obtain ⟨y, hy, hv⟩ := Option.bind_eq_some_iff.mp hv
    obtain rfl := Option.some.inj hv
    exact eval_fn (hnumbers xs (Value.mapM_number?_iff.mp hxs)) hy
  case h_5 r w w' =>
    -- comparisons
    obtain rfl := Option.some.inj hv
    rw [Code.evalList_eq_map] at hcs
    obtain ⟨c, cs, rfl, hc, hcs⟩ := List.map_eq_cons_iff.mp hcs
    obtain ⟨d, cs, rfl, hd, hcs⟩ := List.map_eq_cons_iff.mp hcs
    obtain rfl := List.map_eq_nil_iff.mp hcs
    show Code.comparison r (c.eval inputs) (d.eval inputs) = _
    rw [hc, hd, Value.exact_eq, Value.exact_eq]
    exact Code.comparison_exact r _ _
  case h_6 =>
    -- choices
    show Code.selected (Code.evalList inputs cs) = _
    rw [hcs]
    exact Code.selected_exact hv
  case h_7 =>
    -- connectives
    obtain rfl := Option.some.inj hv
    show Scalar.ofBool ((Code.evalList inputs cs).all Scalar.truth) = _
    rw [hcs, Code.all_truth_exact]
    rfl
  case h_8 =>
    obtain rfl := Option.some.inj hv
    show Scalar.ofBool ((Code.evalList inputs cs).any Scalar.truth) = _
    rw [hcs, Code.any_truth_exact]
    rfl
  case h_9 w =>
    obtain rfl := Option.some.inj hv
    rw [Code.evalList_eq_map] at hcs
    obtain ⟨c, cs, rfl, hc, hcs⟩ := List.map_eq_cons_iff.mp hcs
    obtain rfl := List.map_eq_nil_iff.mp hcs
    show Scalar.ofBool (!Scalar.truth (c.eval inputs)) = _
    rw [hc, Value.truth_exact]
    rfl
  case h_10 => cases hv

/-- The code of an expression gives its value; where that is a number,
the expression is a factor of a product. -/
theorem eval_toCode {σ : Valuation} {e : Expr}
    (hplace : ∀ n w, σ n = some w → inputs[place n]? = some w.exact) {v : Value}
    (hv : e.value? σ = some v) :
    (e.toCode place plane).eval inputs = v.exact ∧
      ∀ x, v = .number x → Factor plane inputs (e, e.toCode place plane) x := by
  induction e using nodeInduction generalizing v with
  | leaf e hleaf =>
      cases e with
      | node k as => exact absurd rfl (hleaf k as)
      | num n =>
          obtain rfl := Option.some.inj hv
          exact ⟨rfl, fun x hx => Value.number.inj hx ▸ .number n⟩
      | var n =>
          have heval : ((var n).toCode place plane).eval inputs = v.exact := by
            show (inputs[place n]?).getD _ = _
            rw [hplace n v hv]
            rfl
          refine ⟨heval, ?_⟩
          rintro x rfl
          exact .other heval (fun _ _ h => by cases h) (fun _ h => by cases h)
      | pi | euler | truth b =>
          obtain rfl := Option.some.inj hv
          refine ⟨rfl, fun x hx => ?_⟩
          cases hx
          try exact .other rfl (fun _ _ h => by cases h) (fun _ h => by cases h)
      | _ => cases hv
  | node k as ih =>
      obtain ⟨vs, hvs, hline, hk⟩ := value?_node.mp hv
      have hcodes := evalList_codes hvs fun a ha w hw => (ih a ha hw).1
      have heval : ((node k as).toCode place plane).eval inputs = v.exact := by
        refine eval_operation hcodes hk ?_ ?_
        · rintro xs rfl rfl
          exact forall₂_factor hvs fun a ha x hx => (ih a ha hx).2 x rfl
        · rintro y e z rfl rfl hz
          obtain ⟨b, x, rfl, hb, hx⟩ := values?_two_iff.mp hvs
          refine ⟨b, x, _, _, rfl, rfl, ?_⟩
          refine eval_powerCode hline (ih b (by simp) hb).1 (ih x (by simp) hx).1 ?_ hz
          rintro r rfl
          cases hx
          rfl
      refine ⟨heval, ?_⟩
      rintro x rfl
      by_cases hpower : ∃ b r, node k as = pow b (num (.exact r))
      · obtain ⟨b, r, heq⟩ := hpower
        cases heq
        obtain ⟨w, ws, hb, hws, rfl⟩ := values?_cons.mp hvs
        obtain ⟨_, _, hr, hnil, rfl⟩ := values?_cons.mp hws
        cases hr
        cases hnil
        cases w with
        | truth _ => cases hk
        | number y =>
            obtain ⟨z, hz, hzx⟩ := Option.map_eq_some_iff.mp hk
            cases hzx
            exact .power hline (ih b (by simp) hb).1 rfl hz
      · exact .other heval (fun b r h => hpower ⟨b, r, h⟩) (fun _ h => by cases h)

end Product

end Expr

/-- All variables of the expression are inputs of its formula. -/
theorem Formula.mem_inputs {text : String} {args : List String} {e : Expr} {n : String}
    (hn : n ∈ e.freeVars) : n ∈ (ofExpr text args e).inputs := by
  rw [inputs, List.mem_append]
  by_cases hargs : n ∈ args
  · exact Or.inl hargs
  · refine Or.inr ((List.mergeSort_perm _ _).mem_iff.mpr (List.mem_filter.mpr ⟨hn, ?_⟩))
    simpa using hargs

/-- The code of a formula gives the value of its expression, if every
input is the value of its variable. -/
theorem Formula.eval_code {text : String} {args : List String} {e : Expr} {σ : Valuation}
    {plane : Float → Float → Exact} {ins : List Exact} {v : Value} (hv : e.value? σ = some v)
    (hins : ∀ n ∈ (ofExpr text args e).inputs, ∀ w, σ n = some w →
      ins[(ofExpr text args e).place n]? = some w.exact) :
    ((ofExpr text args e).code plane).eval ins = v.exact := by
  -- Arranging brings no variable along, so that the others need no value.
  have hrestricted : e.value? (fun n => if n ∈ (ofExpr text args e).inputs then σ n else none)
      = some v := by
    refine Expr.value?_congr hv fun n hn => ?_
    exact (if_pos (mem_inputs hn)).symm
  refine (Expr.eval_toCode ?_ (Expr.value?_arranged hrestricted)).1
  intro n w hw
  split at hw
  · rename_i hn
    exact hins n hn w hw
  · cases hw

end FieldScript
