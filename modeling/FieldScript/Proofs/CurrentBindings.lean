import FieldScript.Proofs.BoundBodies
import FieldScript.Proofs.DefinitionNames
import FieldScript.Proofs.Rebuilding

/-!
# Bindings that stay current

A definition is bound to what its body writes at that moment. The order
comes from a search for names in the body, and if it finds all that the
texts of the body name (`Definitions.Discernible`), nothing that is bound later
means anything to them. In the end each definition is bound to what its
body writes with all of them bound, and every kept expression is what its
text writes (`Evaluator.Current`).

This looks at the lexemes of a text and not at its term, so it holds of
texts with factorial signs and of texts that make no sense as well.
-/

namespace FieldScript

namespace Definitions

/-- The definitions that the texts of a body name are found in the body,
unless a parameter hides them. -/
def Discernible (ds : Definitions) : Prop :=
  ∀ fn ∈ ds, ∀ text ∈ fn.texts, ∀ n ∈ ds.names, Spells text n → n ∉ fn.params → Mentions fn n

instance (fn : NamedFunction) (n : String) : Decidable (Mentions fn n) :=
  inferInstanceAs (Decidable (_ ∧ _))

instance (ds : Definitions) : Decidable ds.Discernible :=
  inferInstanceAs (Decidable (∀ fn ∈ ds, ∀ text ∈ fn.texts, ∀ n ∈ ds.names,
    Spells text n → n ∉ fn.params → Mentions fn n))

/-- The definitions that the text names are among these, unless a parameter
hides them. -/
def Named (ds : Definitions) (params : List String) (text : String) (done : List String) : Prop :=
  ∀ n ∈ ds.names, Spells text n → n ∉ params → n ∈ done

theorem Named.mono {ds : Definitions} {params done done' : List String} {text : String}
    (h : ds.Named params text done) (hsub : ∀ n ∈ done, n ∈ done') : ds.Named params text done' :=
  fun n hn hspells hparam => hsub n (h n hn hspells hparam)

end Definitions

namespace Evaluator

variable {ev ev' : Evaluator} {done params : List String} {text : String} {fn : NamedFunction}

/-- What the text writes with the bindings that there are. -/
def writes? (ev : Evaluator) (text : String) (params : List String) : Option Expr :=
  (Expr.ofText (ev.scope params) text).toOption

/-- A new name means nothing to a text that does not name it. -/
theorem writes?_eq {m : String} (hlegal : LegalName m) (halgebra : ev'.algebra = ev.algebra)
    (hkept : ∀ n, n ≠ m → ev'.bindings.lookup n = ev.bindings.lookup n)
    (hm : Spells text m → m ∈ params) : ev'.writes? text params = ev.writes? text params := by
  have hfind : ∀ n, n ≠ m ∨ n ∈ params →
      (ev'.scope params).find? n = (ev.scope params).find? n := by
    intro n hn
    rw [Scope.find?, Scope.find?]
    by_cases hparam : n ∈ params
    · have hcontains : params.contains n = true := by simpa using hparam
      rw [show (ev'.scope params).params = params from rfl,
        show (ev.scope params).params = params from rfl, hcontains, if_pos rfl, if_pos rfl]
    · rw [show (ev'.scope params).bindings = ev'.bindings from rfl, hkept n (hn.resolve_right hparam)]
      rfl
  refine Expr.ofText_congr halgebra ?_ (uncalled_nil text) (fun n hn _ => ?_)
    (fun n _ hn => absurd hn List.not_mem_nil) List.not_mem_nil
  · exact hfind "I" (Or.inl (hlegal.ne_of_mem (by decide)).symm)
  · refine hfind n (or_iff_not_imp_left.mpr fun heq => ?_)
    rw [not_not] at heq
    subst heq
    rcases hn with hspells | hfactorial
    · exact hm hspells
    · exact absurd hfactorial (hlegal.ne_of_mem (by decide))

/-! ## The invariant -/

/-- What is bound and what is kept is what the texts write now, and no name
is bound that is not done. -/
structure Current (ev : Evaluator) (done : List String) : Prop where
  prepared : ev.prepared = []
  fresh : ∀ n, n ∉ done → ev.bindings.lookup n = none
  reading : ∀ text params e, ev.readings.lookup (text, params) = some e →
    ev.definitions.Named params text done ∧ ev.writes? text params = some e
  binding : ∀ fn, ev.definitions.get? fn.name = some fn → fn.name ∈ done →
    fn.kind = .scalar ∨ fn.kind = .constant → ev.definitions.Named fn.params fn.body done ∧
      ev.bindings.lookup fn.name = (ev.writes? fn.body fn.params).map (⟨fn.params, ·⟩)
  built : ev.algebra.Reproduces → ∀ n b, ev.bindings.lookup n = some b → b.body.Built ev.algebra

/-- A text is read as what it writes. -/
theorem Current.toOption_read (h : ev.Current done) (text : String) (params : List String) :
    (ev.read text params).toOption = ev.writes? text params := by
  rw [Evaluator.read]
  split
  · rename_i e he
    exact (h.reading text params e he).2.symm
  · rfl

theorem Current.built_writes? (h : ev.Current done) (hA : ev.algebra.Reproduces) {e : Expr}
    (he : ev.writes? text params = some e) : e.Built ev.algebra :=
  Expr.built_ofText (s := ev.scope params) hA (h.built hA) he

/-- Keeping an expression keeps the invariant. -/
theorem Current.readKept (h : ev.Current done) (htext : ev.definitions.Named params text done) :
    (ev.readKept text params).2.Current done ∧ SameBindings ev (ev.readKept text params).2 ∧
      (ev.readKept text params).1.toOption = ev.writes? text params := by
  have hread := h.toOption_read text params
  rw [Evaluator.readKept]
  split
  · rename_i e he
    rw [he] at hread
    refine ⟨⟨h.prepared, h.fresh, fun text' params' e' hlookup => ?_, h.binding, h.built⟩,
      ⟨rfl, rfl, rfl, rfl⟩, hread⟩
    dsimp only at hlookup
    rw [List.lookup_cons] at hlookup
    split at hlookup
    · rename_i heq
      obtain ⟨rfl, rfl⟩ := Prod.mk.inj (eq_of_beq heq)
      obtain rfl := Option.some.inj hlookup
      exact ⟨htext, hread.symm⟩
    · exact h.reading text' params' e' hlookup
  · rename_i f hf
    rw [hf] at hread
    exact ⟨h, ⟨rfl, rfl, rfl, rfl⟩, hread⟩

theorem Current.readAll (h : ev.Current done) {texts : List String}
    (htexts : ∀ text ∈ texts, ev.definitions.Named params text done) :
    (ev.readAll params texts).2.Current done ∧ SameBindings ev (ev.readAll params texts).2 := by
  refine readAll_preserves (P := fun ev' => ev'.Current done ∧ SameBindings ev ev') ?_
    ⟨h, rfl, rfl, rfl, rfl⟩
  intro text htext ev₁ ⟨hcurrent, hsame⟩
  obtain ⟨hkept, hsame₁, -⟩ := hcurrent.readKept (by rw [hsame.1]; exact htexts text htext)
  exact ⟨hkept, hsame.trans hsame₁⟩

/-- Whatever is bound to a new name, the invariant holds with this name
done, if the name is bound to what its body writes. -/
theorem Current.extend (h : ev.Current done) (hlegal : LegalName fn.name)
    (hget : ev.definitions.get? fn.name = some fn) (hnew : fn.name ∉ done)
    (hdefinitions : ev'.definitions = ev.definitions) (halgebra : ev'.algebra = ev.algebra)
    (hprepared : ev'.prepared = ev.prepared) (hreadings : ev'.readings = ev.readings)
    (hbindings : ∀ n, n ≠ fn.name → ev'.bindings.lookup n = ev.bindings.lookup n)
    (hfn : fn.kind = .scalar ∨ fn.kind = .constant →
      ev.definitions.Named fn.params fn.body done ∧
        ev'.bindings.lookup fn.name = (ev.writes? fn.body fn.params).map (⟨fn.params, ·⟩))
    (hbuilt : ev.algebra.Reproduces → ∀ b, ev'.bindings.lookup fn.name = some b →
      b.body.Built ev.algebra) : ev'.Current (done ++ [fn.name]) := by
  have hsub : ∀ n ∈ done, n ∈ done ++ [fn.name] := fun n hn => List.mem_append_left _ hn
  have hdefined := Definitions.mem_names_of_get? hget
  -- A text whose definitions are done does not name the new one.
  have hkept : ∀ text params, ev.definitions.Named params text done →
      ev'.writes? text params = ev.writes? text params := by
    intro text params hnamed
    refine writes?_eq hlegal halgebra hbindings fun hspells => ?_
    by_contra hparam
    exact hnew (hnamed fn.name hdefined hspells hparam)
  refine ⟨hprepared.trans h.prepared, ?_, ?_, ?_, ?_⟩
  · intro n hn
    obtain ⟨hn, hne⟩ := not_or.mp (mt (mem_append_singleton done fn.name n).mpr hn)
    rw [hbindings n hne, h.fresh n hn]
  · intro text params e he
    rw [hreadings] at he
    obtain ⟨hnamed, hwrites⟩ := h.reading text params e he
    rw [hdefinitions, hkept text params hnamed]
    exact ⟨hnamed.mono hsub, hwrites⟩
  · intro g hg hdone hkind
    rw [hdefinitions] at hg ⊢
    have hbound : ev.definitions.Named g.params g.body done ∧
        ev'.bindings.lookup g.name = (ev.writes? g.body g.params).map (⟨g.params, ·⟩) := by
      by_cases hne : g.name = fn.name
      · rw [hne, hget] at hg
        obtain rfl := Option.some.inj hg
        exact hfn hkind
      · rw [hbindings _ hne]
        exact h.binding g hg
          (((mem_append_singleton done fn.name g.name).mp hdone).resolve_right hne) hkind
    rw [hkept _ _ hbound.1]
    exact ⟨hbound.1.mono hsub, hbound.2⟩
  · intro hA n b hb
    rw [halgebra] at hA ⊢
    by_cases hne : n = fn.name
    · subst hne
      exact hbuilt hA b hb
    · rw [hbindings n hne] at hb
      exact h.built hA n b hb

/-! ## One step and the run -/

theorem Current.leaveUnbound (h : ev.Current done) (hlegal : LegalName fn.name)
    (hget : ev.definitions.get? fn.name = some fn) (hnew : fn.name ∉ done)
    (hfn : fn.kind = .scalar ∨ fn.kind = .constant →
      ev.definitions.Named fn.params fn.body done ∧ ev.writes? fn.body fn.params = none)
    (f : ExpressionFault) : (ev.leaveUnbound fn f).1.Current (done ++ [fn.name]) := by
  have hnone := h.fresh fn.name hnew
  refine h.extend hlegal hget hnew rfl rfl rfl rfl (fun _ _ => rfl) (fun hkind => ?_) ?_
  · obtain ⟨hnamed, hwrites⟩ := hfn hkind
    exact ⟨hnamed, by rw [hwrites]; exact hnone⟩
  · intro _ b hb
    rw [show (ev.leaveUnbound fn f).1.bindings = ev.bindings from rfl, hnone] at hb
    cases hb

theorem not_scalar_of_field (hkind : fn.kind = .vector ∨ fn.kind = .tensor) :
    ¬ (fn.kind = .scalar ∨ fn.kind = .constant) := by
  rcases hkind with hk | hk <;> simp [hk]

theorem Current.bind_field {ws : List String} (h : ev.Current done) (hlegal : LegalName fn.name)
    (hget : ev.definitions.get? fn.name = some fn) (hnew : fn.name ∉ done)
    (hnamed : ∀ text ∈ fn.texts, ev.definitions.Named fn.params text done)
    (hkind : fn.kind = .vector ∨ fn.kind = .tensor) (hbind : ev.bind fn = .ok (ev', ws)) :
    ev'.Current (done ++ [fn.name]) ∧ ev'.definitions = ev.definitions ∧
      ev'.algebra = ev.algebra := by
  obtain ⟨hcurrent, hsame⟩ := h.readAll hnamed
  have hcases := bind_field_ok hkind hbind
  generalize (ev.readAll fn.params fn.texts).2 = ev₁ at hcurrent hsame hcases
  have hget₁ : ev₁.definitions.get? fn.name = some fn := by rw [hsame.1, hget]
  rcases hcases with ⟨es, rfl⟩ | ⟨f, rfl⟩
  · refine ⟨?_, hsame.1, hsame.2.1⟩
    refine hcurrent.extend hlegal hget₁ hnew rfl rfl rfl rfl (fun _ _ => rfl)
      (fun hscalar => absurd hscalar (not_scalar_of_field hkind)) ?_
    intro _ b hb
    rw [show List.lookup fn.name ev₁.bindings = none from hcurrent.fresh fn.name hnew] at hb
    cases hb
  · exact ⟨hcurrent.leaveUnbound hlegal hget₁ hnew
      (fun hscalar => absurd hscalar (not_scalar_of_field hkind)) f, hsame.1, hsame.2.1⟩

theorem SameBindings.writes?_eq (h : SameBindings ev ev') (text : String) (params : List String) :
    ev'.writes? text params = ev.writes? text params := by
  rw [writes?, writes?, scope, scope, h.2.2.1, h.2.1]

theorem Current.bind_scalar {ws : List String} (h : ev.Current done) (hlegal : LegalName fn.name)
    (hget : ev.definitions.get? fn.name = some fn) (hnew : fn.name ∉ done)
    (hnamed : ∀ text ∈ fn.texts, ev.definitions.Named fn.params text done)
    (hkind : fn.kind = .scalar ∨ fn.kind = .constant) (hbind : ev.bind fn = .ok (ev', ws)) :
    ev'.Current (done ++ [fn.name]) ∧ ev'.definitions = ev.definitions ∧
      ev'.algebra = ev.algebra := by
  rw [texts_of_scalar hkind] at hnamed
  have hnamed := hnamed fn.body (List.mem_singleton.mpr rfl)
  obtain ⟨hcurrent, hsame, hread⟩ := h.readKept hnamed
  rw [← hsame.1] at hnamed
  rw [← hsame.writes?_eq] at hread
  have hcases := bind_scalar_ok hkind hbind
  generalize ev.readKept fn.body fn.params = r at hcurrent hsame hread hnamed hcases
  have hget₁ : r.2.definitions.get? fn.name = some fn := by rw [hsame.1, hget]
  rcases hcases with ⟨e, he, -, rfl⟩ | ⟨f, hf, rfl⟩
  · rw [he] at hread
    refine ⟨?_, hsame.1, hsame.2.1⟩
    refine hcurrent.extend hlegal hget₁ hnew rfl rfl rfl rfl
      (fun n hn => (lookup_put _ _ _ _).trans (if_neg hn)) (fun _ => ⟨hnamed, ?_⟩) ?_
    · rw [lookup_put, if_pos rfl, ← hread]
      rfl
    · intro hA b hb
      rw [lookup_put, if_pos rfl] at hb
      obtain rfl := Option.some.inj hb
      exact hcurrent.built_writes? hA hread.symm
  · rw [hf] at hread
    exact ⟨hcurrent.leaveUnbound hlegal hget₁ hnew (fun _ => ⟨hnamed, hread.symm⟩) f,
      hsame.1, hsame.2.1⟩

/-- Binding a definition that names what is done keeps the invariant, and
the definition is done then. -/
theorem Current.bind {ws : List String} (h : ev.Current done) (hlegal : LegalName fn.name)
    (hget : ev.definitions.get? fn.name = some fn) (hnew : fn.name ∉ done)
    (hnamed : ∀ text ∈ fn.texts, ev.definitions.Named fn.params text done)
    (hbind : ev.bind fn = .ok (ev', ws)) :
    ev'.Current (done ++ [fn.name]) ∧ ev'.definitions = ev.definitions ∧
      ev'.algebra = ev.algebra := by
  rcases field_or_scalar fn with hfield | hscalar
  · exact h.bind_field hlegal hget hnew hnamed hfield hbind
  · exact h.bind_scalar hlegal hget hnew hnamed hscalar hbind

/-- Binding all definitions of an order keeps the invariant. -/
theorem Current.bindAll {order ws : List String} (h : ev.Current []) (hlegal : ev.definitions.Legal)
    (hnodup : order.Nodup)
    (hnamed : ∀ before n after, order = before ++ n :: after → ∀ fn,
      ev.definitions.get? n = some fn → ∀ text ∈ fn.texts,
        ev.definitions.Named fn.params text before)
    (hbind : ev.bindAll order = .ok (ev', ws)) :
    ev'.Current order ∧ ev'.definitions = ev.definitions ∧ ev'.algebra = ev.algebra := by
  refine bindAll_preserves (P := fun ev' done => ev'.Current done ∧
    ev'.definitions = ev.definitions ∧ ev'.algebra = ev.algebra) hnodup ?_ ⟨h, rfl, rfl⟩ rfl hbind
  intro before fn after hsplit hnew ev₁ ev₂ ws₁ ⟨hcurrent, hdefinitions, halgebra⟩ hget hbind₁
  have hget₀ : ev.definitions.get? fn.name = some fn := hdefinitions ▸ hget
  have htexts := hnamed before fn.name after hsplit fn hget₀
  obtain ⟨hcurrent₂, hdefinitions₂, halgebra₂⟩ :=
    hcurrent.bind (hlegal _ (Definitions.mem_names_of_get? hget₀)) hget hnew
      (by rw [hdefinitions]; exact htexts) hbind₁
  exact ⟨hcurrent₂, hdefinitions₂.trans hdefinitions, halgebra₂.trans halgebra⟩

/-- An evaluator of discernible definitions, bound in their order, is current:
every definition is bound to what its body writes. -/
theorem current_of_ofOrder {ds : Definitions} {order : List String} {environment : Assignment}
    {A : Algebra} {ws : List String} (hlegal : ds.Legal) (hnames : ds.names.Nodup)
    (horder : order.Perm ds.names)
    (hfollows : ∀ before n after, order = before ++ n :: after → ∀ fn, ds.get? n = some fn →
      ∀ m ∈ ds.names, Definitions.Mentions fn m → m ∈ before) (hdiscernible : ds.Discernible)
    (h : ofOrder ds order environment A = .ok (ev, ws)) :
    ev.Current order ∧ ev.definitions = ds ∧ ev.algebra = A := by
  have hempty : Current ⟨ds, order, [], [], [], [], [], environment, A⟩ [] :=
    ⟨rfl, fun _ _ => rfl, fun _ _ _ h => (by cases h), fun _ _ h => absurd h List.not_mem_nil,
      fun _ _ _ h => (by cases h)⟩
  refine hempty.bindAll hlegal (horder.nodup_iff.mpr hnames) ?_ h
  intro before n after hsplit fn hget text htext m hm hspells hparam
  refine hfollows before n after hsplit fn hget m hm ?_
  exact hdiscernible fn (List.mem_of_find?_eq_some hget) text htext m hm hspells hparam

end Evaluator
end FieldScript
