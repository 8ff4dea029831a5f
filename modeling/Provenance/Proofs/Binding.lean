import Provenance.Proofs.Replaying

/-!
What validating one record does to the table. It makes one ID and one symbol name each other
exactly if the record leads to the symbol, defines the ID, and neither of the two names
anything yet. Whatever else comes of it, a failure included, the session stays as it is.
-/
namespace Provenance

/-- The ID that a finding gives a symbol is the one the record defines, at a place of the
category of the symbol. -/
theorem Model.defined_of_find {model : Model} {σ : Assignment} {r : SealedRecord}
    {id : SymbolId} {x : Symbol} (h : model.find σ r = some (.derives id (some x))) :
    ∃ y, r.defined = some y ∧ y.symbolId = id ∧ y.category = x.category := by
  rcases Model.derives_of_find h with ⟨rule, _, t, rfl, _, _, rfl⟩ | ⟨rule, _, p, rfl, _, _, rfl⟩
  · exact ⟨.type id, rfl, rfl, rfl⟩
  · exact ⟨.procedure id, rfl, rfl, rfl⟩

namespace Session

variable {model : Model} {r : SealedRecord} {s : Session} {id : SymbolId} {x : Symbol}

/-- A record leads to a symbol for the ID that it defines, and neither names anything yet. -/
structure Introduces (model : Model) (r : SealedRecord) (s : Session) (id : SymbolId)
    (x : Symbol) : Prop where
  finds : model.find s.numbering.symbolOf? r = some (.derives id (some x))
  unbound : s.numbering.symbolOf? id = none
  unknown : s.numbering.id? x = none

theorem Introduces.validate (h : Introduces model r s id x) (loading : s.phase = .loading) :
    validate model r s = .ok true { s with numbering := s.numbering.assign x id } := by
  rw [validate_of_find loading h.finds]
  show EStateM.Result.ok (decide ((s.numbering.bind id x).1 ≠ .conflict))
    { s with numbering := (s.numbering.bind id x).2 } = _
  rw [Numbering.bind_of_free h.unbound h.unknown]
  rfl

/-- What was found is new, or drawing the conclusion from it leaves everything as it is. -/
theorem conclude_cases (finding : Finding) (s : Session) :
    (∃ id x, finding = .derives id (some x) ∧ s.numbering.symbolOf? id = none ∧
      s.numbering.id? x = none) ∨
    ∃ holds, conclude finding s = .ok holds s := by
  cases finding with
  | states holds => exact .inr ⟨holds, rfl⟩
  | derives id x =>
    cases x with
    | none => exact .inr ⟨false, rfl⟩
    | some x =>
      have hconclude : conclude (.derives id (some x)) s =
          .ok (decide ((s.numbering.bind id x).1 ≠ .conflict))
            { s with numbering := (s.numbering.bind id x).2 } := rfl
      by_cases hconflict : (s.numbering.bind id x).1 = .conflict
      · rw [hconclude, Numbering.bind_of_conflict hconflict]
        exact .inr ⟨_, rfl⟩
      · rcases Numbering.bind_cases hconflict with ⟨-, hsame⟩ | ⟨hid, hx, -⟩
        · rw [hconclude, hsame]
          exact .inr ⟨_, rfl⟩
        · exact .inl ⟨id, x, rfl, hid, hx⟩

/-- A record that introduces nothing leaves the session as it is, whatever is answered. -/
theorem perform_validate_of_known (loading : s.phase = .loading)
    (known : ¬ ∃ id x, Introduces model r s id x) :
    (perform model (.validate r) s).2 = s := by
  rw [perform, settle]
  cases hfind : model.find s.numbering.symbolOf? r with
  | none =>
    obtain ⟨v, hv⟩ := validate_of_not_find loading hfind
    rw [hv]
    rfl
  | some finding =>
    rw [validate_of_find loading hfind]
    rcases conclude_cases finding s with ⟨id, x, rfl, hid, hx⟩ | ⟨holds, hsame⟩
    · exact absurd ⟨id, x, hfind, hid, hx⟩ known
    · rw [hsame]

theorem Introduces.perform (h : Introduces model r s id x) (loading : s.phase = .loading) :
    perform model (.validate r) s =
      (.flag true, { s with numbering := s.numbering.assign x id }) := by
  rw [Session.perform, settle, h.validate loading]

theorem validation_binds_its_own_id_only (model : Model) (r : SealedRecord) (s : Session)
    (loading : s.phase = .loading) :
    let outcome := (perform model (.validate r) s).1
    let s' := (perform model (.validate r) s).2
    s' = { s with numbering := s'.numbering } ∧
    (∀ id x, Introduces model r s id x →
      outcome = .flag true ∧
      (∃ y, r.defined = some y ∧ y.symbolId = id ∧ y.category = x.category) ∧
      s'.numbering.next = s.numbering.next ∧
      (∀ other, s'.numbering.symbolOf? other =
        if id = other then some x else s.numbering.symbolOf? other) ∧
      ∀ y, s'.numbering.id? y = if x = y then some id else s.numbering.id? y) ∧
    ((¬ ∃ id x, Introduces model r s id x) → s' = s) ∧
    (outcome ≠ .flag true → s' = s) ∧
    (∀ c, r = .check c → s' = s) := by
  intro outcome s'
  have known : (¬ ∃ id x, Introduces model r s id x) → s' = s :=
    perform_validate_of_known loading
  have introduced (id : SymbolId) (x : Symbol) (h : Introduces model r s id x) :
      outcome = .flag true ∧ s' = { s with numbering := s.numbering.assign x id } :=
    Prod.mk.inj (h.perform loading)
  refine ⟨?_, ?_, known, ?_, ?_⟩
  · by_cases h : ∃ id x, Introduces model r s id x
    · obtain ⟨id, x, h⟩ := h
      rw [(introduced id x h).2]
    · rw [known h]
  · intro id x h
    obtain ⟨hflag, hs'⟩ := introduced id x h
    rw [hs']
    refine ⟨hflag, Model.defined_of_find h.finds, rfl, ?_, ?_⟩
    · exact s.numbering.symbolOf?_assign x id
    · exact fun y => s.numbering.id?_assign x y id
  · intro hflag
    refine known ?_
    rintro ⟨id, x, h⟩
    exact hflag (introduced id x h).1
  · rintro c rfl
    refine known ?_
    rintro ⟨id, x, h⟩
    obtain ⟨y, hy, -⟩ := Model.defined_of_find h.finds
    cases hy

theorem validation_binds_the_super_type :
    let model := Model.uniform ⟨0⟩ ⟨1⟩ (some ⟨2⟩) none ⟨List.replicate 32 0, rfl⟩
    let s := forLoad model default
    let r : SealedRecord := .type ⟨3, by decide⟩ (.superOf ⟨1, by decide⟩)
    s.phase = .loading ∧ Introduces model r s ⟨3, by decide⟩ (.type ⟨2⟩) ∧
      (perform model (.validate r) s).1 = .flag true ∧
      (perform model (.validate r) s).2.numbering.id? (.type ⟨2⟩) = some ⟨3, by decide⟩ := by
  intro model s r
  have lists : s.numbering.Lists [.type ⟨0⟩, .type ⟨1⟩] := lists_start model default .loading
  have introduces : Introduces model r s ⟨3, by decide⟩ (.type ⟨2⟩) := by
    refine ⟨?_, lists.symbolOf?_eq _, lists.not_mem_iff.mp (by decide)⟩
    rw [lists.symbolOf?_eq_ofList]
    rfl
  obtain ⟨-, bound, -⟩ := validation_binds_its_own_id_only model r s rfl
  obtain ⟨hflag, -, -, -, hid⟩ := bound _ _ introduces
  exact ⟨rfl, introduces, hflag, hid (.type ⟨2⟩)⟩

end Session

end Provenance
