import Provenance.Proofs.Actions
import Provenance.Proofs.Numbering

/-!
What a sealed record asks. Under an assignment of symbols to IDs it either asks nothing,
for want of an operand, or it leads to a finding: the symbol that its rule derives now, or
whether its check holds. Only the premises of the record matter for that. Validating a
record is asking it under what is known and drawing the conclusion.
-/
namespace Provenance

/-- Which symbol an ID stands for. -/
abbrev Assignment := SymbolId → Option Symbol

namespace Assignment

def type (σ : Assignment) (id : SymbolId) : Option TypeRef := (σ id).bind Operand.asType

def procedure (σ : Assignment) (id : SymbolId) : Option ProcRef :=
  (σ id).bind Operand.asProcedure

theorem type_eq_some {σ : Assignment} {id : SymbolId} {t : TypeRef} :
    σ.type id = some t ↔ σ id = some (.type t) := by
  simp [type, Option.bind_eq_some_iff, Operand.asType_eq_some]

theorem procedure_eq_some {σ : Assignment} {id : SymbolId} {p : ProcRef} :
    σ.procedure id = some p ↔ σ id = some (.procedure p) := by
  simp [procedure, Option.bind_eq_some_iff, Operand.asProcedure_eq_some]

end Assignment

/-- The ID at a place of either category. -/
def Operand.symbolId : Operand SymbolId SymbolId → SymbolId
  | .type id => id
  | .procedure id => id

/-- Whether a property is what the model says it is. The verdict on an instance has to be a
definite one, and a type that is recorded as not initialized may be initialized or not. -/
def Model.Satisfies (model : Model) : Check TypeRef ProcRef → Prop
  | .instanceOf object cast objectFixed castFixed isInstance =>
    model.isInstanceOf object cast objectFixed castFixed = if isInstance then .yes else .no
  | .chain t digest => model.chainDigest t = digest
  | .skipFrames owner p skip => model.maySkipFrames p owner = skip
  | .initialized t isInitialized => isInitialized = true → model.isInitialized t = true

theorem Model.holds_iff (model : Model) (c : Check TypeRef ProcRef) :
    model.holds c = true ↔ model.Satisfies c := by
  cases c with
  | instanceOf object cast objectFixed castFixed isInstance =>
    rw [holds, Satisfies]
    cases model.isInstanceOf object cast objectFixed castFixed <;> cases isInstance <;> simp
  | chain t digest => simp [holds, Satisfies]
  | skipFrames owner p skip => simp [holds, Satisfies]
  | initialized t isInitialized => cases isInitialized <;> simp [holds, Satisfies]

/-- Whether the model gives, to the query that a record names, the answer it records. -/
def Model.Confirms (model : Model) : LiveRecord → Prop
  | .type t rule => model.typeOf rule = some t
  | .procedure p rule => model.procedureOf rule = some p
  | .check c => model.Satisfies c

/-- A program in which all queries of one sort have the same answer and nothing is an array. -/
def Model.uniform (top class_ : TypeRef) (t : Option TypeRef) (p : Option ProcRef)
    (digest : Digest) : Model where
  rootType := top
  metaType := class_
  typeName _ := "T"
  procedureName _ := "p"
  procedureSignature _ := "()"
  typeByName _ _ := t
  systemTypeByName _ := t
  typeByChain _ _ := t
  chainDigest _ := digest
  entryType _ _ := t
  entryDefiningType _ _ _ := t
  entryStaticType _ _ := t
  entryDeclaringType _ _ := t
  entryDispatchType _ _ := t
  entryProcedure _ _ _ := p
  entryInterfaceProcedure _ _ _ := p
  entryImproperProcedure _ _ := p
  ownerOf _ := top
  superType _ := t
  componentType _ := none
  arrayType _ := none
  isInstanceOf _ _ _ _ := .yes
  singleConcreteSubtype _ := t
  isInitialized _ := true
  procedureAt _ _ := p
  virtualProcedureAt _ _ _ := p
  procedureBySignature _ _ _ _ := p
  singleImplementer _ _ _ := p
  singleInterfaceImplementer _ _ _ := p
  singleAbstractImplementer _ _ _ := p
  maySkipFrames _ _ := true
  finiteNesting := ⟨fun _ => ⟨_, fun _ h => by cases h⟩⟩

/-- The record that an assignment makes of a sealed one, if every operand stands for a symbol
of the category that its place demands. -/
def Record.under (σ : Assignment) : SealedRecord → Option LiveRecord
  | .type id rule => return .type (← σ.type id) (← rule.mapM σ.type σ.procedure)
  | .procedure id rule =>
    return .procedure (← σ.procedure id) (← rule.mapM σ.type σ.procedure)
  | .check c => return .check (← c.mapM σ.type σ.procedure)

/-- What a sealed record leads to: a symbol, or none, for the ID that it derives, or whether
what it states holds. -/
inductive Finding where
  | derives (id : SymbolId) (x : Option Symbol)
  | states (holds : Bool)

namespace Finding

/-- Whether an assignment already has what was found. -/
def Fits (σ : Assignment) : Finding → Prop
  | derives id x => x.isSome ∧ σ id = x
  | states holds => holds = true

end Finding

/-- Asks the model what a sealed record asks, if every operand it asks about stands for a
symbol of the right category. -/
def Model.find (model : Model) (σ : Assignment) : SealedRecord → Option Finding
  | .type id rule =>
    return .derives id ((model.typeOf (← rule.mapM σ.type σ.procedure)).map .type)
  | .procedure id rule =>
    return .derives id ((model.procedureOf (← rule.mapM σ.type σ.procedure)).map .procedure)
  | .check c => return .states (model.holds (← c.mapM σ.type σ.procedure))

variable {model : Model} {σ τ : Assignment} {r : SealedRecord}

theorem Model.find_congr (h : ∀ x ∈ r.premises, σ x.symbolId = τ x.symbolId) :
    model.find σ r = model.find τ r := by
  have ht : ∀ id, .type id ∈ r.premises → σ.type id = τ.type id := by
    intro id hid
    rw [Assignment.type, Assignment.type, show σ id = τ id from h _ hid]
  have hp : ∀ id, .procedure id ∈ r.premises → σ.procedure id = τ.procedure id := by
    intro id hid
    rw [Assignment.procedure, Assignment.procedure, show σ id = τ id from h _ hid]
  cases r with
  | type id rule =>
    rw [Record.premises_type] at ht hp
    rw [Model.find, Model.find, TypeRule.mapM_congr ht hp]
  | procedure id rule =>
    rw [Record.premises_procedure] at ht hp
    rw [Model.find, Model.find, ProcRule.mapM_congr ht hp]
  | check c =>
    rw [Record.premises_check] at ht hp
    rw [Model.find, Model.find, Check.mapM_congr ht hp]

/-- Whoever asks has all premises, each with a symbol of the category of its place. -/
theorem Model.premises_of_find (h : (model.find σ r).isSome) :
    ∀ x ∈ r.premises, ∃ y, σ x.symbolId = some y ∧ y.category = x.category := by
  have split : (∀ id, .type id ∈ r.premises → (σ.type id).isSome) ∧
      ∀ id, .procedure id ∈ r.premises → (σ.procedure id).isSome := by
    cases r with
    | type id rule =>
      rw [Record.premises_type]
      exact TypeRule.isSome_of_mapM (by simpa [Model.find, Option.isSome_bind] using h)
    | procedure id rule =>
      rw [Record.premises_procedure]
      exact ProcRule.isSome_of_mapM (by simpa [Model.find, Option.isSome_bind] using h)
    | check c =>
      rw [Record.premises_check]
      exact Check.isSome_of_mapM (by simpa [Model.find, Option.isSome_bind] using h)
  intro x hx
  cases x with
  | type id =>
    obtain ⟨t, ht⟩ := Option.isSome_iff_exists.mp (split.1 id hx)
    exact ⟨.type t, Assignment.type_eq_some.mp ht, rfl⟩
  | procedure id =>
    obtain ⟨p, hp⟩ := Option.isSome_iff_exists.mp (split.2 id hx)
    exact ⟨.procedure p, Assignment.procedure_eq_some.mp hp, rfl⟩

/-- With all premises there, each of the category of its place, a record can be asked. -/
theorem Model.find_of_premises
    (h : ∀ x ∈ r.premises, ∃ y, σ x.symbolId = some y ∧ y.category = x.category) :
    (model.find σ r).isSome := by
  have ht : ∀ id, .type id ∈ r.premises → (σ.type id).isSome := by
    intro id hid
    obtain ⟨y, hy, hcategory⟩ := h _ hid
    cases y with
    | type t => exact Option.isSome_iff_exists.mpr ⟨t, Assignment.type_eq_some.mpr hy⟩
    | procedure p => cases hcategory
  have hp : ∀ id, .procedure id ∈ r.premises → (σ.procedure id).isSome := by
    intro id hid
    obtain ⟨y, hy, hcategory⟩ := h _ hid
    cases y with
    | procedure p => exact Option.isSome_iff_exists.mpr ⟨p, Assignment.procedure_eq_some.mpr hy⟩
    | type t => cases hcategory
  cases r with
  | type id rule =>
    rw [Record.premises_type] at ht hp
    simpa [Model.find, Option.isSome_bind] using TypeRule.isSome_mapM ht hp
  | procedure id rule =>
    rw [Record.premises_procedure] at ht hp
    simpa [Model.find, Option.isSome_bind] using ProcRule.isSome_mapM ht hp
  | check c =>
    rw [Record.premises_check] at ht hp
    simpa [Model.find, Option.isSome_bind] using Check.isSome_mapM ht hp

/-- A symbol is found by the rule of the record, which has all its operands. -/
theorem Model.derives_of_find {id : SymbolId} {x : Symbol}
    (h : model.find σ r = some (.derives id (some x))) :
    (∃ rule rule' t, r = .type id rule ∧ rule.mapM σ.type σ.procedure = some rule' ∧
      model.typeOf rule' = some t ∧ x = .type t) ∨
    ∃ rule rule' p, r = .procedure id rule ∧ rule.mapM σ.type σ.procedure = some rule' ∧
      model.procedureOf rule' = some p ∧ x = .procedure p := by
  cases r with
  | type other rule =>
    obtain ⟨rule', hrule, hfinding⟩ := Option.bind_eq_some_iff.mp h
    obtain ⟨rfl, hx⟩ : other = id ∧ (model.typeOf rule').map .type = some x := by
      simpa using hfinding
    obtain ⟨t, ht, rfl⟩ := Option.map_eq_some_iff.mp hx
    exact .inl ⟨rule, rule', t, rfl, hrule, ht, rfl⟩
  | procedure other rule =>
    obtain ⟨rule', hrule, hfinding⟩ := Option.bind_eq_some_iff.mp h
    obtain ⟨rfl, hx⟩ : other = id ∧ (model.procedureOf rule').map .procedure = some x := by
      simpa using hfinding
    obtain ⟨p, hp, rfl⟩ := Option.map_eq_some_iff.mp hx
    exact .inr ⟨rule, rule', p, rfl, hrule, hp, rfl⟩
  | check c =>
    obtain ⟨c', -, hfinding⟩ := Option.bind_eq_some_iff.mp h
    cases hfinding

theorem Finding.fits_type {id : SymbolId} {answer : Option TypeRef} :
    (Finding.derives id (answer.map .type)).Fits σ ↔
      ∃ t, σ.type id = some t ∧ answer = some t := by
  cases answer with
  | none => simp [Finding.Fits]
  | some t => simp [Finding.Fits, Assignment.type_eq_some]

theorem Finding.fits_procedure {id : SymbolId} {answer : Option ProcRef} :
    (Finding.derives id (answer.map .procedure)).Fits σ ↔
      ∃ p, σ.procedure id = some p ∧ answer = some p := by
  cases answer with
  | none => simp [Finding.Fits]
  | some p => simp [Finding.Fits, Assignment.procedure_eq_some]

/-- The model confirms what an assignment makes of a record exactly if asking the record
finds what the assignment has. -/
theorem Model.confirms_under_iff :
    (∃ live, r.under σ = some live ∧ model.Confirms live) ↔
      ∃ finding, model.find σ r = some finding ∧ finding.Fits σ := by
  cases r with
  | type id rule =>
    cases hrule : rule.mapM σ.type σ.procedure with
    | none => simp [Record.under, Model.find, hrule]
    | some rule' =>
      cases ht : σ.type id with
      | none => simp [Record.under, Model.find, hrule, ht, Finding.fits_type]
      | some t => simp [Record.under, Model.find, hrule, ht, Finding.fits_type, Model.Confirms]
  | procedure id rule =>
    cases hrule : rule.mapM σ.type σ.procedure with
    | none => simp [Record.under, Model.find, hrule]
    | some rule' =>
      cases hp : σ.procedure id with
      | none => simp [Record.under, Model.find, hrule, hp, Finding.fits_procedure]
      | some p =>
        simp [Record.under, Model.find, hrule, hp, Finding.fits_procedure, Model.Confirms]
  | check c =>
    cases hc : c.mapM σ.type σ.procedure with
    | none => simp [Record.under, Model.find, hc]
    | some c' =>
      simp [Record.under, Model.find, hc, Model.Confirms, Finding.Fits, Model.holds_iff]

theorem Model.confirmed_type {id : SymbolId} {rule : TypeRule SymbolId SymbolId}
    (h : ∃ live, (Record.type id rule).under σ = some live ∧ model.Confirms live) :
    ∃ t rule', σ id = some (.type t) ∧ rule.mapM σ.type σ.procedure = some rule' ∧
      model.typeOf rule' = some t := by
  obtain ⟨live, hlive, confirms⟩ := h
  obtain ⟨t, ht, hrest⟩ := Option.bind_eq_some_iff.mp hlive
  obtain ⟨rule', hrule, hlive⟩ := Option.bind_eq_some_iff.mp hrest
  cases hlive
  exact ⟨t, rule', Assignment.type_eq_some.mp ht, hrule, confirms⟩

theorem Model.confirmed_procedure {id : SymbolId} {rule : ProcRule SymbolId SymbolId}
    (h : ∃ live, (Record.procedure id rule).under σ = some live ∧ model.Confirms live) :
    ∃ p rule', σ id = some (.procedure p) ∧ rule.mapM σ.type σ.procedure = some rule' ∧
      model.procedureOf rule' = some p := by
  obtain ⟨live, hlive, confirms⟩ := h
  obtain ⟨p, hp, hrest⟩ := Option.bind_eq_some_iff.mp hlive
  obtain ⟨rule', hrule, hlive⟩ := Option.bind_eq_some_iff.mp hrest
  cases hlive
  exact ⟨p, rule', Assignment.procedure_eq_some.mp hp, hrule, confirms⟩

theorem Model.confirmed_check {c : Check SymbolId SymbolId}
    (h : ∃ live, (Record.check c).under σ = some live ∧ model.Confirms live) :
    ∃ c', c.mapM σ.type σ.procedure = some c' ∧ model.Satisfies c' := by
  obtain ⟨live, hlive, confirms⟩ := h
  obtain ⟨c', hc, hlive⟩ := Option.bind_eq_some_iff.mp hlive
  cases hlive
  exact ⟨c', hc, confirms⟩

namespace Session

theorem looks_boundType (id : SymbolId) (s : Session) :
    Looks s (boundType id) (Assignment.type s.numbering.symbolOf? id) := by
  rw [Assignment.type]
  cases hid : s.numbering.symbolOf? id with
  | none =>
    show ∃ v, boundType id s = violate v s
    rw [boundType, get_bind, hid]
    exact ⟨_, rfl⟩
  | some x =>
    cases x with
    | type t =>
      show boundType id s = .ok t s
      rw [boundType, get_bind, hid]
      rfl
    | procedure p =>
      show ∃ v, boundType id s = violate v s
      rw [boundType, get_bind, hid]
      exact ⟨_, rfl⟩

theorem looks_boundProcedure (id : SymbolId) (s : Session) :
    Looks s (boundProcedure id) (Assignment.procedure s.numbering.symbolOf? id) := by
  rw [Assignment.procedure]
  cases hid : s.numbering.symbolOf? id with
  | none =>
    show ∃ v, boundProcedure id s = violate v s
    rw [boundProcedure, get_bind, hid]
    exact ⟨_, rfl⟩
  | some x =>
    cases x with
    | procedure p =>
      show boundProcedure id s = .ok p s
      rw [boundProcedure, get_bind, hid]
      rfl
    | type t =>
      show ∃ v, boundProcedure id s = violate v s
      rw [boundProcedure, get_bind, hid]
      exact ⟨_, rfl⟩

/-- Asks a record under what is known. -/
def ask (model : Model) : SealedRecord → Action Finding
  | .type id rule =>
    return .derives id ((model.typeOf (← rule.mapM boundType boundProcedure)).map .type)
  | .procedure id rule =>
    return .derives id ((model.procedureOf (← rule.mapM boundType boundProcedure)).map .procedure)
  | .check c => return .states (model.holds (← c.mapM boundType boundProcedure))

/-- Draws the conclusion from what a record found. -/
def conclude : Finding → Action Bool
  | .derives id x => bindSymbol id x
  | .states holds => return holds

theorem looks_ask (model : Model) (r : SealedRecord) (s : Session) :
    Looks s (ask model r) (model.find s.numbering.symbolOf? r) := by
  cases r with
  | type id rule =>
    exact (Looks.typeRule (looks_boundType · s) (looks_boundProcedure · s) rule).bind
      fun _ _ => Looks.pure s _
  | procedure id rule =>
    exact (Looks.procRule (looks_boundType · s) (looks_boundProcedure · s) rule).bind
      fun _ _ => Looks.pure s _
  | check c =>
    exact (Looks.check (looks_boundType · s) (looks_boundProcedure · s) c).bind
      fun _ _ => Looks.pure s _

theorem validate_eq (model : Model) (r : SealedRecord) :
    validate model r = (gate (.validate r.kind) [.loading] >>= fun _ =>
      ask model r >>= conclude) := by
  cases r <;> simp only [ask, bind_assoc, pure_bind] <;> rfl

theorem validate_of_find {s : Session} {finding : Finding} (phase : s.phase = .loading)
    (h : model.find s.numbering.symbolOf? r = some finding) :
    validate model r s = conclude finding s := by
  have hask := looks_ask model r s
  rw [h] at hask
  rw [validate_eq, bind_of_ok (gate_of_mem (by simp [phase]))]
  exact bind_of_ok hask

/-- A record that cannot be asked violates an invariant and changes nothing. -/
theorem validate_of_not_find {s : Session} (phase : s.phase = .loading)
    (h : model.find s.numbering.symbolOf? r = none) :
    ∃ v, validate model r s = violate v s := by
  have hask := looks_ask model r s
  rw [h] at hask
  obtain ⟨v, hv⟩ := hask
  rw [validate_eq, bind_of_ok (gate_of_mem (by simp [phase]))]
  exact ⟨v, bind_of_error hv⟩

section Replay

variable {index : Nat} {rest : List SealedRecord} {s s' : Session}

theorem replay_of_true (h : validate model r s = .ok true s') :
    replay model index (r :: rest) s = replay model (index + 1) rest s' := by
  simp only [replay, h]

theorem replay_of_false (h : validate model r s = .ok false s') :
    replay model index (r :: rest) s =
      .error (.refused (.rejected index r.kind)) s'.reject := by
  simp only [replay, h]

theorem replay_of_refused {e : SessionError} (h : validate model r s = .error (.refused e) s') :
    replay model index (r :: rest) s = .error (.refused e) s'.reject := by
  simp only [replay, h]

theorem replay_of_fatal {e : SessionError} (h : validate model r s = .error (.fatal e) s') :
    replay model index (r :: rest) s = .error (.fatal e) s' := by
  simp only [replay, h]

end Replay

end Session

end Provenance
