import FieldScript.Proofs.ProgramValidity
import FieldScript.Proofs.ScopeRules
import FieldScript.Proofs.StatementResults

/-!
# Names of definitions

A definition is read only if its name begins in one of a few ways
(`Statement.legal_of_parse`), and so does every definition of an accepted
program (`Program.legal_of_ofSource`). No name of the library begins like
this, and neither do the names of the coordinates: a definition hides
nothing, and its name means nothing else where it is not bound.
-/

namespace FieldScript

/-- The name of a definition may begin like this. -/
def LegalName (n : String) : Prop :=
  (Statement.definitionPrefixes.any fun p => (upperName n).startsWith p) = true

instance (n : String) : Decidable (LegalName n) := inferInstanceAs (Decidable (_ = true))

/-- All names of definitions are legal. -/
def Definitions.Legal (ds : Definitions) : Prop := ∀ n ∈ ds.names, LegalName n

/-! ## Names without a meaning of their own -/

/-- A name is free if no table has it. -/
theorem Referent.library_eq_free {n : String} (hconstant : n ∉ ["PI", "pi", "E", "e"])
    (hname : Builtin.ofName? n = none) (hfallback : Builtin.fallback.lookup n = none) :
    Referent.library n = .free := by
  have hne : ∀ m ∈ ["PI", "pi", "E", "e"], (n == m) = false := by
    intro m hm
    rw [beq_eq_false_iff_ne]
    rintro rfl
    exact hconstant hm
  rw [Referent.library, hne "PI" (by simp), hne "pi" (by simp), hne "E" (by simp),
    hne "e" (by simp), hname, hfallback]
  rfl

theorem not_legalName_table :
    ∀ p ∈ Builtin.table, ¬ LegalName p.1 ∧ ¬ LegalName (lowerName p.1) := by
  decide +kernel

theorem not_legalName_fallback : ∀ p ∈ Builtin.fallback, ¬ LegalName p.1 := by
  decide +kernel

/-- Words, constants, the imaginary unit, the coordinates and the name
that a factorial sign asks for. -/
def takenNames : List String :=
  Scope.words ++ ["PI", "pi", "E", "e", "I", "x", "y", "factorial"]

theorem not_legalName_taken : ∀ n ∈ takenNames, ¬ LegalName n := by
  decide +kernel

namespace LegalName

variable {n : String}

theorem ne_of_mem (h : LegalName n) {m : String} (hm : m ∈ takenNames) : n ≠ m := by
  rintro rfl
  exact not_legalName_taken n hm h

theorem ofName?_eq_none (h : LegalName n) : Builtin.ofName? n = none := by
  rw [Builtin.ofName?, Option.map_eq_none_iff, List.find?_eq_none]
  intro p hp hmatch
  obtain ⟨hupper, hlower⟩ := not_legalName_table p hp
  rcases Bool.or_eq_true_iff.mp hmatch with hn | hn
  · exact hupper (eq_of_beq hn ▸ h)
  · exact hlower (eq_of_beq (Bool.and_eq_true_iff.mp hn).2 ▸ h)

theorem fallback_eq_none (h : LegalName n) : Builtin.fallback.lookup n = none := by
  rw [List.lookup_eq_none_iff]
  intro p hp
  rw [bne_iff_ne]
  rintro rfl
  exact not_legalName_fallback p hp h

/-- The name means nothing without a definition. -/
theorem library_eq (h : LegalName n) : Referent.library n = .free := by
  refine Referent.library_eq_free (fun hconstant => ?_) h.ofName?_eq_none h.fallback_eq_none
  refine h.ne_of_mem (List.mem_append_right _ ?_) rfl
  exact List.mem_append_left ["I", "x", "y", "factorial"] hconstant

end LegalName

/-! ## Definitions that are read -/

/-- The statement gives no name, or a legal one. -/
def StatementBody.Legal : StatementBody → Prop
  | .define n _ _ => LegalName n
  | _ => True

namespace Statement

/-- A definition is read only with a legal name. -/
theorem legal_of_parse {l : LogicalLine} {s : Statement} (h : parse l = .ok s) : s.body.Legal := by
  refine body_of_parse h fun word read hread => ?_
  unfold reader? at hread
  split at hread <;> cases hread
  · exact yields_readRange fun _ _ _ _ _ _ _ => trivial
  · exact yields_readColorMap fun _ => trivial
  · exact yields_readParticles fun _ _ => trivial
  · exact yields_readContour fun _ _ => trivial
  · exact yields_readLabel fun _ _ => trivial
  · exact yields_readDefinition fun _ _ _ hlegal => hlegal
  · exact yields_readSurface fun _ => trivial
  · exact yields_readVectorField (fun _ _ => trivial) fun _ _ _ _ => trivial
  · exact yields_readTensorField fun _ _ => trivial
  · exact yields_readAnimation fun _ _ _ _ => trivial

end Statement

namespace Program

theorem Draft.legal_add {d d' : Draft} {s : Statement} (hd : d.definitions.Legal)
    (hs : s.body.Legal) (h : d.add s = .ok d') : d'.definitions.Legal := by
  obtain ⟨line, body⟩ := s
  unfold Draft.add at h
  cases body with
  | range axis low high =>
      dsimp only at h
      rw [Draft.addRange, Interval.ofBounds] at h
      split at h
      · cases axis <;> cases h <;> exact hd
      · cases h
  | colorMap | particles | contour | animate =>
      obtain ⟨_, _, h⟩ := bind_eq_ok.mp h
      cases h
      exact hd
  | define n ps b =>
      dsimp only at h
      split at h
      · cases h
      · cases h
        intro m hm
        rw [Definitions.names, List.map_append] at hm
        rcases List.mem_append.mp hm with hm | hm
        · exact hd m hm
        · obtain rfl := List.mem_singleton.mp hm
          exact hs
  | label | surface | vectorField | tensorField =>
      cases h
      exact hd

theorem Draft.legal_foldlM {d d' : Draft} {ss : List Statement} (hd : d.definitions.Legal)
    (hss : ∀ s ∈ ss, s.body.Legal) (h : ss.foldlM Draft.add d = .ok d') :
    d'.definitions.Legal := by
  induction ss generalizing d with
  | nil =>
      obtain rfl := Except.ok.inj h
      exact hd
  | cons s rest ih =>
      rw [List.foldlM_cons] at h
      obtain ⟨d₁, hadd, h⟩ := bind_eq_ok.mp h
      obtain ⟨hs, hrest⟩ := List.forall_mem_cons.mp hss
      exact ih (Draft.legal_add hd hs hadd) hrest h

/-- The definitions of an accepted program have legal names. -/
theorem legal_of_ofSource {source : String} {p : Program} (h : ofSource source = .ok p) :
    p.definitions.Legal := by
  obtain ⟨ss, hparse, h⟩ := bind_eq_ok.mp h
  obtain ⟨d, hfold, h⟩ := bind_eq_ok.mp h
  rw [(completes_of_ofDraft h).definitions]
  refine Draft.legal_foldlM (d := {}) (List.forall_mem_nil _) (fun s hs => ?_) hfold
  obtain ⟨l, -, hl⟩ := (mem_of_mapM_ok hparse).2 s hs
  exact Statement.legal_of_parse hl

end Program
end FieldScript
