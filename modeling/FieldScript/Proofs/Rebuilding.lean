import FieldScript.Proofs.ExprInduction
import FieldScript.Proofs.Outcome
import FieldScript.Proofs.TextNames

/-!
# Building expressions again

Substitution builds every operation above a replaced variable again. An
expression is built (`Expr.Built`) if each of its operations comes out
of this as it was, so that variables may be replaced by themselves
(`Expr.substitute?_self`). An algebra reproduces (`Algebra.Reproduces`) if
whatever it makes of built operands is built; then all that terms mean is
built, if all that names mean is (`Term.built_meaning?`).
-/

namespace FieldScript

namespace Expr

mutual

/-- The algebra gives each operation of the expression back if it is asked
to build it from its operands. What is under a function is not
looked at. -/
def Built (A : Algebra) : Expr → Prop
  | node (.closure _) _ => True
  | node h as => A.build? h as = some (node h as) ∧ BuiltList A as
  | _ => True

def BuiltList (A : Algebra) : List Expr → Prop
  | [] => True
  | e :: es => Built A e ∧ BuiltList A es

end

end Expr

/-- What is made of built operands is built. -/
structure Algebra.Reproduces (A : Algebra) : Prop where
  build : ∀ {h : Head} {as : List Expr} {e : Expr}, A.build? h as = some e →
    (∀ a ∈ as, a.Built A) → e.Built A
  divide : ∀ {a b : Expr}, a.Built A → b.Built A → (A.divide a b).Built A
  logarithmTo : ∀ {a b : Expr}, a.Built A → b.Built A → (A.logarithmTo a b).Built A
  /-- A function without definition stands for itself. -/
  call : ∀ (n : String) (as : List Expr), A.build? (.call n) as = some (.node (.call n) as)

namespace Expr

variable {A : Algebra} {e : Expr}

theorem builtList_iff {es : List Expr} : BuiltList A es ↔ ∀ e ∈ es, e.Built A := by
  induction es with
  | nil => simp [BuiltList]
  | cons e es ih => rw [BuiltList, ih, List.forall_mem_cons]

theorem built_ofInt (k : Int) : (ofInt k).Built A := trivial

/-- Each operation that is no function is given back. -/
theorem Built.node_cases {h : Head} {as : List Expr} (hbuilt : (node h as).Built A) :
    (∃ ps, h = .closure ps) ∨
      ((∀ ps, h ≠ .closure ps) ∧ A.build? h as = some (node h as) ∧ ∀ a ∈ as, a.Built A) := by
  cases h with
  | closure ps => exact Or.inl ⟨ps, rfl⟩
  | _ => exact Or.inr ⟨(fun _ h => by cases h), hbuilt.1, builtList_iff.mp hbuilt.2⟩

theorem built_node {h : Head} {as : List Expr} (hbuild : A.build? h as = some (node h as))
    (has : ∀ a ∈ as, a.Built A) : (node h as).Built A := by
  cases h with
  | closure ps => trivial
  | _ => exact ⟨hbuild, builtList_iff.mpr has⟩

/-! ## Replacing variables -/

variable {env : List (String × Expr)}

/-- The operands of an operation that is no function are replaced, and the
operation is built again if this changes something. -/
theorem replace?_operation {h : Head} {as : List Expr} (hclosure : ∀ ps, h ≠ .closure ps) :
    replace? A env (node h as) = (replaceList? A env as).bind fun r =>
      if r.2 then (A.build? h r.1).map fun e => (e, true) else some (node h as, false) := by
  rw [replace?]
  · cases replaceList? A env as with
    | none => rfl
    | some r =>
        obtain ⟨bs, changed⟩ := r
        cases changed with
        | false => rfl
        | true => exact Option.map_eq_bind.symm
  · exact hclosure

/-- Replaced by itself, a variable leaves the expression as it is. -/
theorem replace?_self (henv : ∀ n e', env.lookup n = some e' → e' = var n) (he : e.Built A) :
    ∃ changed, replace? A env e = some (e, changed) := by
  induction e using nodeInduction with
  | leaf e hleaf =>
      cases e with
      | node k as => exact absurd rfl (hleaf k as)
      | var n =>
          rw [replace?]
          cases hlookup : env.lookup n with
          | none => exact ⟨false, rfl⟩
          | some e' => exact ⟨true, by rw [henv n e' hlookup]⟩
      | _ => exact ⟨false, rfl⟩
  | node h as ih =>
      rcases he.node_cases with ⟨ps, rfl⟩ | ⟨hclosure, hbuild, has⟩
      · exact ⟨false, rfl⟩
      · have hlist : ∀ es : List Expr, (∀ a ∈ es, a ∈ as) →
            ∃ changed, replaceList? A env es = some (es, changed) := by
          intro es
          induction es with
          | nil => exact fun _ => ⟨false, rfl⟩
          | cons a es ihes =>
              intro hmem
              obtain ⟨ha, hes⟩ := List.forall_mem_cons.mp hmem
              obtain ⟨c, hc⟩ := ih a ha (has a ha)
              obtain ⟨d, hd⟩ := ihes hes
              exact ⟨c || d, by rw [replaceList?, hc, hd]; rfl⟩
        obtain ⟨changed, hchanged⟩ := hlist as fun _ h => h
        refine ⟨changed, ?_⟩
        rw [replace?_operation hclosure, hchanged, Option.bind_some]
        cases changed with
        | false => rfl
        | true =>
            rw [if_pos rfl, hbuild]
            rfl

/-- Parameters may be replaced by themselves. -/
theorem substitute?_self (params : List String) (he : e.Built A) :
    substitute? A (params.zip (params.map var)) e = some e := by
  have henv : ∀ n e', (params.zip (params.map var)).lookup n = some e' → e' = var n := by
    intro n e' hlookup
    induction params with
    | nil => cases hlookup
    | cons p params ih =>
        rw [List.map_cons, List.zip_cons_cons, List.lookup_cons] at hlookup
        split at hlookup
        · rename_i hnp
          rw [eq_of_beq hnp]
          exact (Option.some.inj hlookup).symm
        · exact ih hlookup
  obtain ⟨changed, hreplace⟩ := replace?_self henv he
  rw [substitute?, hreplace]
  rfl

/-- Built expressions in the place of variables make a built
expression. -/
theorem built_replace? (hA : A.Reproduces) (henv : ∀ n e', env.lookup n = some e' → e'.Built A)
    {r : Expr × Bool} (he : e.Built A) (hr : replace? A env e = some r) : r.1.Built A := by
  induction e using nodeInduction generalizing r with
  | leaf e hleaf =>
      cases e with
      | node k as => exact absurd rfl (hleaf k as)
      | var n =>
          rw [replace?] at hr
          obtain rfl := Option.some.inj hr
          cases hlookup : env.lookup n with
          | none => trivial
          | some e' => exact henv n e' hlookup
      | _ =>
          obtain rfl := Option.some.inj hr
          trivial
  | node h as ih =>
      rcases he.node_cases with ⟨ps, rfl⟩ | ⟨hclosure, hbuild, has⟩
      · obtain rfl := Option.some.inj hr
        trivial
      · have hlist : ∀ (es bs : List Expr) (c : Bool), (∀ a ∈ es, a ∈ as) →
            replaceList? A env es = some (bs, c) → ∀ b ∈ bs, b.Built A := by
          intro es
          induction es with
          | nil =>
              intro bs c _ hbs
              obtain ⟨rfl, -⟩ := Prod.mk.inj (Option.some.inj hbs)
              exact List.forall_mem_nil _
          | cons a es ihes =>
              intro bs c hmem hbs
              obtain ⟨ha, hes⟩ := List.forall_mem_cons.mp hmem
              rw [replaceList?] at hbs
              obtain ⟨⟨f, d⟩, hf, hbs⟩ := Option.bind_eq_some_iff.mp hbs
              obtain ⟨⟨fs, d'⟩, hfs, hbs⟩ := Option.bind_eq_some_iff.mp hbs
              obtain ⟨rfl, -⟩ := Prod.mk.inj (Option.some.inj hbs)
              exact List.forall_mem_cons.mpr ⟨ih a ha (has a ha) hf, ihes fs d' hes hfs⟩
        rw [replace?_operation hclosure] at hr
        obtain ⟨⟨bs, changed⟩, hbs, hr⟩ := Option.bind_eq_some_iff.mp hr
        cases changed with
        | false =>
            obtain rfl := Option.some.inj hr
            exact he
        | true =>
            obtain ⟨e', he', rfl⟩ := Option.map_eq_some_iff.mp hr
            exact hA.build he' (hlist as bs true (fun _ h => h) hbs)

theorem built_substitute? (hA : A.Reproduces) {params : List String} {es : List Expr}
    {e' : Expr} (he : e.Built A) (hes : ∀ a ∈ es, a.Built A)
    (h : substitute? A (params.zip es) e = some e') : e'.Built A := by
  obtain ⟨r, hr, rfl⟩ := Option.map_eq_some_iff.mp h
  refine built_replace? hA (fun n e' hlookup => ?_) he hr
  obtain ⟨l₁, l₂, hsplit, -⟩ := List.lookup_eq_some_iff.mp hlookup
  have hmem : (n, e') ∈ params.zip es := hsplit ▸ by simp
  exact hes e' (List.of_mem_zip hmem).2

end Expr

/-! ## What terms mean -/

namespace Meaning

mutual

/-- The expressions in a meaning are built. -/
def Built (A : Algebra) : Meaning → Prop
  | expr e => e.Built A
  | definition _ body => body.Built A
  | group ms => BuiltList A ms
  | _ => True

def BuiltList (A : Algebra) : List Meaning → Prop
  | [] => True
  | m :: ms => Built A m ∧ BuiltList A ms

end

variable {A : Algebra} {a b m : Meaning} {e x y z : Expr}

theorem builtList_iff {ms : List Meaning} : BuiltList A ms ↔ ∀ m ∈ ms, m.Built A := by
  induction ms with
  | nil => simp [BuiltList]
  | cons m ms ih => rw [BuiltList, ih, List.forall_mem_cons]

/-- A number, a constant or a variable. -/
theorem built_ofText? {s : String} (h : ofText? s = some e) : e.Built A := by
  unfold ofText? at h
  dsimp only at h
  repeat' split at h
  all_goals first
    | cases h <;> trivial
    | obtain ⟨_, _, rfl⟩ := Option.map_eq_some_iff.mp h
      trivial

theorem built_argument? (ha : a.Built A) (h : a.argument? = some e) : e.Built A := by
  cases a with
  | text s => exact built_ofText? h
  | expr e' =>
      cases h
      exact ha
  | _ => cases h <;> trivial

theorem built_arguments? {ms : List Meaning} {es : List Expr} (hms : ∀ m ∈ ms, m.Built A)
    (h : ms.mapM argument? = some es) : ∀ e ∈ es, e.Built A := by
  induction ms generalizing es with
  | nil =>
      obtain rfl := Option.some.inj h
      exact List.forall_mem_nil _
  | cons m ms ih =>
      obtain ⟨hm, hms⟩ := List.forall_mem_cons.mp hms
      obtain ⟨e, es', he, hes, rfl⟩ := mapM_cons_eq_some.mp h
      exact List.forall_mem_cons.mpr ⟨built_argument? hm he, ih hms hes⟩

theorem built_operand? (ha : a.Built A) (h : a.operand? = some e) : e.Built A := by
  cases a with
  | expr e' =>
      rw [operand?] at h
      split at h
      · cases h
      · cases h
        exact ha
  | _ => cases h <;> trivial

theorem built_condition? (ha : a.Built A) (h : condition? a = some e) : e.Built A := by
  unfold condition? at h
  split at h
  · cases h
    trivial
  · cases h
    trivial
  · split at h
    · cases h
      exact ha
    · cases h
  · cases h

/-! ### Operators -/

theorem built_plainOp? {op : BinaryOp} {i j : Int} (h : plainOp? op i j = some m) : m.Built A := by
  cases op <;> simp only [plainOp?] at h <;> (repeat' split at h) <;> cases h <;> trivial

section Operators

variable (hA : A.Reproduces)
include hA

theorem built_one {k : Head} (h : A.build? k [x] = some e) (hx : x.Built A) : e.Built A :=
  hA.build h (by simpa using hx)

theorem built_two {k : Head} (h : A.build? k [x, y] = some e) (hx : x.Built A) (hy : y.Built A) :
    e.Built A :=
  hA.build h (by simpa using ⟨hx, hy⟩)

theorem built_four {k : Head} {w : Expr} (h : A.build? k [x, y, z, w] = some e) (hx : x.Built A)
    (hy : y.Built A) (hz : z.Built A) (hw : w.Built A) : e.Built A :=
  hA.build h (by simpa using ⟨hx, hy, hz, hw⟩)

theorem built_floorDiv? (hx : x.Built A) (hy : y.Built A) (h : floorDiv? A x y = some e) :
    e.Built A := by
  unfold floorDiv? at h
  repeat' split at h
  all_goals first
    | cases h <;> trivial
    | exact built_one hA h (hA.divide hx hy)

theorem built_opposite? (hx : x.Built A) (h : opposite? A x = some e) : e.Built A :=
  built_two hA h trivial hx

theorem built_difference? (hx : x.Built A) (hy : y.Built A) (h : difference? A x y = some e) :
    e.Built A := by
  obtain ⟨z, hz, h⟩ := Option.bind_eq_some_iff.mp h
  exact built_two hA h hx (built_opposite? hA hy hz)

theorem built_exprOp? {op : BinaryOp} (hx : x.Built A) (hy : y.Built A)
    (h : exprOp? A op x y = some e) : e.Built A := by
  cases op with
  | add | mul | mod | pow => exact built_two hA h hx hy
  | sub => exact built_difference? hA hx hy h
  | div =>
      cases h
      exact hA.divide hx hy
  | floorDiv => exact built_floorDiv? hA hx hy h
  | _ => cases h

omit hA in
theorem built_sequenceOp? {op : BinaryOp} (ha : a.Built A) (hb : b.Built A)
    (h : sequenceOp? op a b = some m) : m.Built A := by
  have hrepeat : ∀ (k : Int) (s : List Meaning), (group s).Built A →
      (group (List.replicate k.toNat s).flatten).Built A := by
    intro k s hs
    refine builtList_iff.mpr fun m hm => ?_
    obtain ⟨l, hl, hml⟩ := List.mem_flatten.mp hm
    rw [List.eq_of_mem_replicate hl] at hml
    exact builtList_iff.mp hs m hml
  unfold sequenceOp? at h
  dsimp only at h
  split at h
  · cases h
    trivial
  · cases h
    exact builtList_iff.mpr (List.forall_mem_append.mpr ⟨builtList_iff.mp ha, builtList_iff.mp hb⟩)
  · obtain ⟨_, _, rfl⟩ := Option.map_eq_some_iff.mp h
    trivial
  · obtain ⟨_, _, rfl⟩ := Option.map_eq_some_iff.mp h
    trivial
  · obtain ⟨k, _, rfl⟩ := Option.map_eq_some_iff.mp h
    exact hrepeat k _ ha
  · obtain ⟨k, _, rfl⟩ := Option.map_eq_some_iff.mp h
    exact hrepeat k _ hb
  · cases h

theorem built_logicOp? {op : BinaryOp} (ha : a.Built A) (hb : b.Built A)
    (h : logicOp? A op a b = some m) : m.Built A := by
  unfold logicOp? at h
  split at h
  · split at h
    · rename_i hr
      repeat' split at h
      · cases h
        trivial
      · cases h
        trivial
      · exact built_plainOp? h
    · cases h
      trivial
    · exact built_plainOp? h
  · split at h
    · rename_i p q hp hq
      have hbuild : ∀ k, (A.build? k [p, q]).map expr = some m → m.Built A := by
        intro k hk
        obtain ⟨e, he, rfl⟩ := Option.map_eq_some_iff.mp hk
        exact built_two hA he (built_condition? ha hp) (built_condition? hb hq)
      repeat' split at h
      · exact hbuild _ h
      · exact hbuild _ h
      · cases h
    · cases h

theorem built_binary? {op : BinaryOp} (ha : a.Built A) (hb : b.Built A)
    (h : binary? A op a b = some m) : m.Built A := by
  unfold binary? at h
  split at h
  · exact built_logicOp? hA ha hb h
  · split at h
    · exact built_plainOp? h
    · split at h
      · rename_i x y hx hy
        obtain ⟨e, he, rfl⟩ := Option.map_eq_some_iff.mp h
        exact built_exprOp? hA (built_operand? ha hx) (built_operand? hb hy) he
      · split at h
        · split at h
          · obtain ⟨e, he, rfl⟩ := Option.map_eq_some_iff.mp h
            exact built_exprOp? hA (Expr.built_ofInt _) (Expr.built_ofInt _) he
          · cases h
        · exact built_sequenceOp? ha hb h

theorem built_unary? {op : UnaryOp} (ha : a.Built A) (h : unary? A op a = some m) : m.Built A := by
  cases op with
  | negation =>
      obtain ⟨_, _, rfl⟩ := Option.map_eq_some_iff.mp h
      trivial
  | complement =>
      unfold unary? at h
      dsimp only at h
      split at h
      · obtain ⟨e, he, rfl⟩ := Option.map_eq_some_iff.mp h
        exact built_one hA he (built_condition? ha ‹_›)
      · obtain ⟨_, _, rfl⟩ := Option.map_eq_some_iff.mp h
        trivial
      · obtain ⟨_, _, rfl⟩ := Option.map_eq_some_iff.mp h
        trivial
  | plus =>
      unfold unary? at h
      dsimp only at h
      split at h
      · cases h
        trivial
      · cases h
        exact ha
      · obtain ⟨e, he, rfl⟩ := Option.map_eq_some_iff.mp h
        split
        · trivial
        · exact built_operand? ha he
  | minus =>
      rw [unary?] at h
      split at h
      · cases h
        trivial
      · obtain ⟨x, hx, h⟩ := Option.bind_eq_some_iff.mp h
        obtain ⟨e, he, h⟩ := Option.bind_eq_some_iff.mp h
        cases h
        exact built_opposite? hA (built_operand? ha hx) he

theorem built_compare? {op : CompareOp} (ha : a.Built A) (hb : b.Built A)
    (h : compare? A op a b = some m) : m.Built A := by
  unfold compare? at h
  split at h
  · cases h
    trivial
  · cases h
    trivial
  · obtain ⟨r, -, h⟩ := Option.bind_eq_some_iff.mp h
    split at h
    · cases h
      trivial
    · cases h
      trivial
    · obtain ⟨x, hx, h⟩ := Option.bind_eq_some_iff.mp h
      obtain ⟨y, hy, h⟩ := Option.bind_eq_some_iff.mp h
      obtain ⟨e, he, h⟩ := Option.bind_eq_some_iff.mp h
      cases h
      exact built_two hA he (built_operand? ha hx) (built_operand? hb hy)

/-! ### Calls -/

theorem built_rounded? (hx : x.Built A) (h : rounded? A x = some e) : e.Built A := by
  obtain ⟨y, hy, h⟩ := Option.bind_eq_some_iff.mp h
  exact built_one hA h (built_two hA hy hx trivial)

theorem built_stepAt? (hx : x.Built A) (hy : y.Built A) (h : stepAt? A x y = some e) :
    e.Built A := by
  obtain ⟨c, hc, h⟩ := Option.bind_eq_some_iff.mp h
  exact built_four hA h trivial (built_two hA hc hy hx) trivial trivial

theorem built_clamp? (hx : x.Built A) (hy : y.Built A) (hz : z.Built A)
    (h : clamp? A x y z = some e) : e.Built A := by
  obtain ⟨c, hc, h⟩ := Option.bind_eq_some_iff.mp h
  exact built_two hA h hy (built_two hA hc hx hz)

theorem built_mixture? (hx : x.Built A) (hy : y.Built A) (hz : z.Built A)
    (h : mixture? A x y z = some e) : e.Built A := by
  obtain ⟨d, hd, h⟩ := Option.bind_eq_some_iff.mp h
  obtain ⟨p, hp, h⟩ := Option.bind_eq_some_iff.mp h
  obtain ⟨q, hq, h⟩ := Option.bind_eq_some_iff.mp h
  have hone : (1 : Expr).Built A := trivial
  have hd := built_difference? hA hone hz hd
  exact built_two hA h (built_two hA hp hx hd) (built_two hA hq hy hz)

theorem built_test? (hx : x.Built A) (h : test? A x = some e) : e.Built A := by
  unfold test? at h
  split at h
  · cases h
    trivial
  · split at h
    · cases h
      exact hx
    · exact built_two hA h hx trivial

theorem built_choice? (hx : x.Built A) (hy : y.Built A) (hz : z.Built A)
    (h : choice? A x y z = some e) : e.Built A := by
  obtain ⟨c, hc, h⟩ := Option.bind_eq_some_iff.mp h
  exact built_four hA h hy (built_test? hA hx hc) hz trivial

theorem built_applyPlain? {f : Builtin} {es : List Expr} (hes : ∀ e ∈ es, e.Built A)
    (h : applyPlain? A f es = some e) : e.Built A := by
  unfold applyPlain? at h
  split at h
  case h_8 | h_9 =>
    -- the square root is a power
    exact built_two hA h (hes _ (by simp)) trivial
  case h_11 =>
    cases h
    exact hA.logarithmTo (hes _ (by simp)) (hes _ (by simp))
  case h_19 => exact built_rounded? hA (hes _ (by simp)) h
  case h_20 => exact built_stepAt? hA (hes _ (by simp)) (hes _ (by simp)) h
  case h_21 => exact built_clamp? hA (hes _ (by simp)) (hes _ (by simp)) (hes _ (by simp)) h
  case h_22 => exact built_mixture? hA (hes _ (by simp)) (hes _ (by simp)) (hes _ (by simp)) h
  case h_23 =>
    obtain ⟨y, hy, h⟩ := Option.bind_eq_some_iff.mp h
    exact built_difference? hA (hes _ (by simp)) (hA.build hy hes) h
  case h_27 => cases h
  all_goals exact hA.build h hes

omit hA in
theorem built_integerOf? (h : integerOf? a = some e) : e.Built A := by
  unfold integerOf? at h
  split at h
  · cases h
    trivial
  all_goals
    obtain ⟨_, _, rfl⟩ := Option.map_eq_some_iff.mp h
    trivial

omit hA in
theorem built_decimalOf? (h : decimalOf? a = some e) : e.Built A := by
  unfold decimalOf? at h
  split at h <;> cases h <;> trivial

omit hA in
theorem built_fractionOf? {ms : List Meaning} (h : fractionOf? ms = some e) : e.Built A := by
  unfold fractionOf? at h
  repeat' split at h
  all_goals cases h
  all_goals trivial

theorem built_callBuiltin? {f : Builtin} {ms : List Meaning} (hms : ∀ m ∈ ms, m.Built A)
    (h : callBuiltin? A f ms = some m) : m.Built A := by
  unfold callBuiltin? at h
  split at h
  case h_1 =>
    obtain ⟨c, hc, h⟩ := Option.bind_eq_some_iff.mp h
    obtain ⟨x, hx, h⟩ := Option.bind_eq_some_iff.mp h
    obtain ⟨y, hy, h⟩ := Option.bind_eq_some_iff.mp h
    obtain ⟨e, he, h⟩ := Option.bind_eq_some_iff.mp h
    cases h
    exact built_choice? hA (built_argument? (hms _ (by simp)) hc)
      (built_argument? (hms _ (by simp)) hx) (built_argument? (hms _ (by simp)) hy) he
  case h_2 =>
    cases h
    trivial
  case h_3 =>
    cases h
    trivial
  case h_4 =>
    obtain ⟨e, he, rfl⟩ := Option.map_eq_some_iff.mp h
    exact built_integerOf? he
  case h_5 =>
    obtain ⟨e, he, rfl⟩ := Option.map_eq_some_iff.mp h
    exact built_decimalOf? he
  case h_6 =>
    obtain ⟨e, he, rfl⟩ := Option.map_eq_some_iff.mp h
    exact built_fractionOf? he
  case h_7 =>
    obtain ⟨e, he, rfl⟩ := Option.map_eq_some_iff.mp h
    exact built_argument? (hms _ (by simp)) he
  case h_8 =>
    obtain ⟨names, -, h⟩ := Option.bind_eq_some_iff.mp h
    obtain ⟨e, he, h⟩ := Option.bind_eq_some_iff.mp h
    cases h
    exact built_argument? (hms _ (by simp)) he
  case h_15 =>
    obtain ⟨es, hes, h⟩ := Option.bind_eq_some_iff.mp h
    split at h
    · cases h
    · obtain ⟨e, he, h⟩ := Option.bind_eq_some_iff.mp h
      cases h
      exact built_applyPlain? hA (built_arguments? hms hes) he
  all_goals cases h

theorem built_call? {ms : List Meaning} (ha : a.Built A) (hms : ∀ m ∈ ms, m.Built A)
    (h : call? A a ms = some m) : m.Built A := by
  unfold call? at h
  split at h
  · exact built_callBuiltin? hA hms h
  · split at h
    · cases h
    · split at h
      · split at h <;> cases h
        · exact hms _ (by simp)
        · exact ha
      · obtain ⟨es, hes, h⟩ := Option.bind_eq_some_iff.mp h
        obtain ⟨e, he, h⟩ := Option.bind_eq_some_iff.mp h
        cases h
        exact Expr.built_substitute? hA ha (built_arguments? hms hes) he
  · obtain ⟨es, hes, rfl⟩ := Option.map_eq_some_iff.mp h
    exact Expr.built_node (hA.call _ es) (built_arguments? hms hes)
  · cases h

end Operators

theorem built_index? (ha : a.Built A) (h : index? a b = some m) : m.Built A := by
  obtain ⟨k, -, h⟩ := Option.bind_eq_some_iff.mp h
  dsimp only at h
  split at h
  · rename_i ms _
    have hmem : m ∈ ms := by
      repeat' split at h
      · exact List.mem_of_getElem? h
      · cases h
      · exact List.mem_of_getElem? h
    exact builtList_iff.mp ha m hmem
  · obtain ⟨_, _, rfl⟩ := Option.map_eq_some_iff.mp h
    trivial
  · cases h

end Meaning

/-- All that names are bound to is built. -/
def Scope.Built (s : Scope) : Prop :=
  ∀ n b, s.bindings.lookup n = some b → b.body.Built s.algebra

namespace Scope

variable {s : Scope} {n : String} {m : Meaning}

theorem Built.find? (hs : s.Built) (h : s.find? n = some m) : m.Built s.algebra := by
  unfold Scope.find? at h
  split at h
  · cases h
    trivial
  · split at h
    · rename_i b hb
      cases h
      have hb := hs n b hb
      split <;> exact hb
    · repeat' split at h
      · cases h
        trivial
      · cases h
        trivial
      · obtain ⟨_, _, rfl⟩ := Option.map_eq_some_iff.mp h
        trivial

theorem Built.meaning (hs : s.Built) (n : String) (called : Bool) :
    (s.meaning n called).Built s.algebra := by
  unfold Scope.meaning
  split
  · trivial
  · trivial
  · trivial
  · split
    · exact hs.find? ‹_›
    · split
      · trivial
      · split <;> trivial

end Scope

namespace Term

variable {s : Scope}

theorem built_meanings? {ts : List Term} {ms : List Meaning} (h : meanings? s ts = some ms)
    (hts : ∀ t ∈ ts, ∀ m, t.meaning? s = some m → m.Built s.algebra) :
    ∀ m ∈ ms, m.Built s.algebra := by
  induction ts generalizing ms with
  | nil =>
      obtain rfl := Option.some.inj h
      exact List.forall_mem_nil _
  | cons t ts ih =>
      obtain ⟨ht, hts⟩ := List.forall_mem_cons.mp hts
      obtain ⟨m, hm, h⟩ := Option.bind_eq_some_iff.mp h
      obtain ⟨ms', hms', h⟩ := Option.bind_eq_some_iff.mp h
      obtain rfl := Option.some.inj h
      exact List.forall_mem_cons.mpr ⟨ht m hm, ih hms' hts⟩

theorem built_compareMeaning? (hA : s.algebra.Reproduces) {ops : List CompareOp} {ts : List Term}
    {x m : Meaning} (hx : x.Built s.algebra) (h : compareMeaning? s x ops ts = some m)
    (hts : ∀ t ∈ ts, ∀ m, t.meaning? s = some m → m.Built s.algebra) : m.Built s.algebra := by
  induction ts generalizing x ops with
  | nil =>
      rw [compareMeaning?] at h
      cases h
      exact hx
  | cons t ts ih =>
      obtain ⟨ht, hts⟩ := List.forall_mem_cons.mp hts
      cases ops with
      | nil =>
          rw [compareMeaning?] at h
          cases h
          exact hx
      | cons op ops =>
          rw [compareMeaning?] at h
          obtain ⟨y, hy, h⟩ := Option.bind_eq_some_iff.mp h
          obtain ⟨v, hv, h⟩ := Option.bind_eq_some_iff.mp h
          have hv := Meaning.built_compare? hA hx (ht y hy) hv
          split at h
          · cases h
            exact hv
          · obtain ⟨c, -, h⟩ := Option.bind_eq_some_iff.mp h
            cases c with
            | true => exact ih (ht y hy) h hts
            | false =>
                cases h
                exact hv

/-- What a term means is built if all bindings are. -/
theorem built_meaning? (hA : s.algebra.Reproduces) (hs : s.Built) {t : Term} {m : Meaning}
    (h : t.meaning? s = some m) : m.Built s.algebra := by
  induction t using induction generalizing m with
  | number n =>
      cases h
      trivial
  | imaginary n =>
      obtain ⟨i, hi, h⟩ := Option.bind_eq_some_iff.mp h
      have hn : (Meaning.expr (.num n)).Built s.algebra := trivial
      exact Meaning.built_binary? hA hn (hs.find? hi) h
  | name n called =>
      cases h
      exact hs.meaning n called
  | text t =>
      cases h
      trivial
  | group ts ih =>
      obtain ⟨ms, hms, rfl⟩ := Option.map_eq_some_iff.mp h
      exact Meaning.builtList_iff.mpr (built_meanings? hms fun t ht _ hm => ih t ht hm)
  | braces ts ih =>
      obtain ⟨_, _, rfl⟩ := Option.map_eq_some_iff.mp h
      trivial
  | unary op a iha =>
      obtain ⟨x, hx, h⟩ := Option.bind_eq_some_iff.mp h
      exact Meaning.built_unary? hA (iha hx) h
  | binary op a b iha ihb =>
      obtain ⟨x, hx, h⟩ := Option.bind_eq_some_iff.mp h
      obtain ⟨y, hy, h⟩ := Option.bind_eq_some_iff.mp h
      exact Meaning.built_binary? hA (iha hx) (ihb hy) h
  | compare a ops ts iha ih =>
      obtain ⟨x, hx, h⟩ := Option.bind_eq_some_iff.mp h
      exact built_compareMeaning? hA (iha hx) h fun t ht _ hm => ih t ht hm
  | both a b iha ihb =>
      obtain ⟨x, hx, h⟩ := Option.bind_eq_some_iff.mp h
      obtain ⟨c, -, h⟩ := Option.bind_eq_some_iff.mp h
      cases c with
      | true => exact ihb h
      | false =>
          cases h
          exact iha hx
  | either a b iha ihb =>
      obtain ⟨x, hx, h⟩ := Option.bind_eq_some_iff.mp h
      obtain ⟨c, -, h⟩ := Option.bind_eq_some_iff.mp h
      cases c with
      | true =>
          cases h
          exact iha hx
      | false => exact ihb h
  | choose c a b _ iha ihb =>
      obtain ⟨x, hx, h⟩ := Option.bind_eq_some_iff.mp h
      obtain ⟨c, -, h⟩ := Option.bind_eq_some_iff.mp h
      cases c with
      | true => exact iha h
      | false => exact ihb h
  | call f ts ihf ih =>
      obtain ⟨g, hg, h⟩ := Option.bind_eq_some_iff.mp h
      obtain ⟨ms, hms, h⟩ := Option.bind_eq_some_iff.mp h
      exact Meaning.built_call? hA (ihf hg) (built_meanings? hms fun t ht _ hm => ih t ht hm) h
  | index a i iha _ =>
      obtain ⟨x, hx, h⟩ := Option.bind_eq_some_iff.mp h
      obtain ⟨k, _, h⟩ := Option.bind_eq_some_iff.mp h
      exact Meaning.built_index? (iha hx) h

end Term

theorem Meaning.built_written? {A : Algebra} {m : Meaning} {e : Expr} (hm : m.Built A)
    (h : m.written? = some e) : e.Built A := by
  unfold Meaning.written? at h
  split at h
  · cases h
    trivial
  · split at h
    · cases h
      exact hm
    · cases h
  · cases h

/-- The expression of a text is built if all bindings are. -/
theorem Expr.built_ofText {s : Scope} (hA : s.algebra.Reproduces) (hs : s.Built) {text : String}
    {e : Expr} (h : (ofText s text).toOption = some e) : e.Built s.algebra := by
  rw [toOption_ofText_eq] at h
  obtain ⟨ls, -, h⟩ := Option.bind_eq_some_iff.mp h
  obtain ⟨t, -, h⟩ := Option.bind_eq_some_iff.mp h
  obtain ⟨m, hm, h⟩ := Option.bind_eq_some_iff.mp h
  exact Meaning.built_written? (Term.built_meaning? hA hs hm) h

end FieldScript
