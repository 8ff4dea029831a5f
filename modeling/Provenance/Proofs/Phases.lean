import Provenance.Proofs.Issuing
import Provenance.Proofs.Replaying

/-!
The life of a session. One that records is sealed at most once, one that validates gets at most
one verdict, and neither ever leads the life of the other. Operations that belong to another
phase change nothing, and after the last phase nothing that is known or on record changes.
-/
namespace Provenance

/-- Where a life ends. -/
def Phase.isFinal : Phase → Bool
  | .sealed | .validated | .rejected => true
  | .building | .loading => false

namespace Operation

/-- Operations that confirm one symbol, one record or a list of them. -/
def isValidation : Operation → Bool
  | .validateSymbol .. | .validate _ | .validateRecords _ => true
  | _ => false

/-- Operations that leave alone the phase and the number of open regions. -/
def isSteady : Operation → Bool
  | .enterRegion | .exitRegion | .guarded _ | .sealRecords | .validateRecords _ => false
  | _ => true

/-- The phases between which an operation takes a session, by what came out of it. -/
inductive Advances : Operation → Outcome → Phase → Phase → Prop where
  | stays (op : Operation) (outcome : Outcome) (phase : Phase) : Advances op outcome phase phase
  | sealed (records : List SealedRecord) :
      Advances .sealRecords (.sealed records) .building .sealed
  | validated (records : List SealedRecord) :
      Advances (.validateRecords records) .done .loading .validated
  | rejected (records : List SealedRecord) (e : SessionError) :
      Advances (.validateRecords records) (.failed (.refused e)) .loading .rejected

end Operation

namespace Session

variable {model : Model} {config : Config} {s s' t : Session} {op : Operation}

structure Steady (s s' : Session) : Prop where
  phase : s'.phase = s.phase
  region : s'.region = s.region

theorem Steady.refl (s : Session) : Steady s s := ⟨rfl, rfl⟩

theorem steady_bindSymbol (id : SymbolId) (x : Option Symbol) (s : Session) :
    Steady s (leaves (bindSymbol id x) s) := by
  cases x <;> exact ⟨rfl, rfl⟩

theorem steady_validate (model : Model) (r : SealedRecord) (s : Session) :
    Steady s (leaves (validate model r) s) :=
  leaves_validate (Steady.refl s) fun _ id x _ => steady_bindSymbol id x s

theorem steady_perform (model : Model) (steady : op.isSteady = true) (s : Session) :
    Steady s (perform model op s).2 := by
  cases op with
  | enterRegion | exitRegion | guarded | sealRecords | validateRecords => cases steady
  | add d =>
    have entries : Entries model (fun _ => True) s (leaves (add model d) s) :=
      add_entries (fun _ _ _ => trivial) d (fun _ _ => trivial) s
    rw [perform, settle_snd]
    exact ⟨entries.phase_eq, entries.region_eq⟩
  | seed x =>
    rw [perform, settle_snd]
    rcases leaves_seed_cases x s with heq | ⟨id, -, heq⟩ <;> rw [heq] <;> exact ⟨rfl, rfl⟩
  | validateSymbol id x =>
    rw [perform, settle_snd]
    exact leaves_gate (Steady.refl s) fun _ => steady_bindSymbol id x s
  | validate r =>
    rw [perform, settle_snd]
    exact steady_validate model r s
  | _ =>
    rw [perform_question model rfl s]
    exact Steady.refl s

theorem advances_sealRecords (model : Model) (s : Session) :
    Operation.Advances .sealRecords (perform model .sealRecords s).1 s.phase
      (perform model .sealRecords s).2.phase := by
  rcases sealRecords_cases s with ⟨records, phase, -, hok⟩ | ⟨e, he⟩
  · rw [perform, settle, hok, phase]
    exact .sealed records
  · rw [perform, settle, he]
    exact .stays _ _ _

/-- How a replay ends, and where: in a verdict, or still loading if the error was fatal. -/
theorem replay_cases (model : Model) (index : Nat) (records : List SealedRecord)
    (phase : s.phase = .loading) :
    (∃ s', replay model index records s = .ok () s' ∧ s'.phase = .validated) ∨
    (∃ e s', replay model index records s = .error (.refused e) s' ∧ s'.phase = .rejected) ∨
    ∃ e s', replay model index records s = .error (.fatal e) s' ∧ s'.phase = .loading := by
  induction records generalizing index s with
  | nil => exact .inl ⟨_, rfl, rfl⟩
  | cons r rest ih =>
    have phase' : (leaves (validate model r) s).phase = .loading := phase_of_validate phase
    cases hv : validate model r s with
    | ok holds s' =>
      rw [leaves_of_ok hv] at phase'
      cases holds with
      | true =>
        rw [replay_of_true hv]
        exact ih (index + 1) phase'
      | false => exact .inr (.inl ⟨_, _, replay_of_false hv, rfl⟩)
    | error e s' =>
      rw [leaves_of_error hv] at phase'
      cases e with
      | refused e => exact .inr (.inl ⟨_, _, replay_of_refused hv, rfl⟩)
      | fatal e => exact .inr (.inr ⟨_, _, replay_of_fatal hv, phase'⟩)

theorem advances_validateRecords (model : Model) (records : List SealedRecord) (s : Session) :
    Operation.Advances (.validateRecords records) (perform model (.validateRecords records) s).1
      s.phase (perform model (.validateRecords records) s).2.phase := by
  rw [perform, settle]
  by_cases hp : s.phase = .loading
  · rw [validateRecords_of_loading hp]
    rcases replay_cases model 0 records hp with
      ⟨s', hreplay, hs'⟩ | ⟨e, s', hreplay, hs'⟩ | ⟨e, s', hreplay, hs'⟩
    · rw [hreplay, hp, hs']
      exact .validated records
    · rw [hreplay, hp, hs']
      exact .rejected records e
    · rw [hreplay, hp, hs']
      exact .stays _ _ _
  · have hnot : s.phase ∉ [Phase.loading] := by simpa using hp
    have hrefused : validateRecords model records s = .error _ s :=
      bind_of_error (gate_of_not_mem hnot)
    rw [hrefused]
    exact .stays _ _ _

theorem advances_perform (model : Model) (plain : ∀ body, op ≠ .guarded body) (s : Session) :
    op.Advances (perform model op s).1 s.phase (perform model op s).2.phase := by
  have stays (h : (perform model op s).2.phase = s.phase) :
      op.Advances (perform model op s).1 s.phase (perform model op s).2.phase := by
    rw [h]
    exact .stays _ _ _
  cases op with
  | guarded body => exact absurd rfl (plain body)
  | sealRecords => exact advances_sealRecords model s
  | validateRecords records => exact advances_validateRecords model records s
  | enterRegion =>
    refine stays ?_
    rw [perform, settle_snd]
    exact leaves_gate (R := fun s s' => s'.phase = s.phase) rfl fun _ => rfl
  | exitRegion =>
    refine stays ?_
    rw [perform, settle_snd, exitRegion, leaves_get_bind]
    cases s.region.exit? <;> rfl
  | _ => exact stays (steady_perform model rfl s).phase

theorem perform_add_of_not_building (model : Model) (d : Discovery)
    (phase : s.phase ≠ .building) : (perform model (.add d) s).2 = s := by
  rw [perform, settle_snd, add,
    leaves_of_error (bind_of_error (gate_of_not_mem (by simpa using phase)))]

theorem perform_validation_of_not_loading (model : Model) (validation : op.isValidation = true)
    (phase : s.phase ≠ .loading) : (perform model op s).2 = s := by
  have hnot : s.phase ∉ [Phase.loading] := by simpa using phase
  cases op with
  | validateSymbol | validateRecords =>
    rw [perform, settle_snd]
    exact leaves_of_error (bind_of_error (gate_of_not_mem hnot))
  | validate r =>
    rw [perform, settle_snd, validate_eq]
    exact leaves_of_error (bind_of_error (gate_of_not_mem hnot))
  | _ => cases validation

theorem Reaches.compiles (h : Reaches s s') (phase : s.phase ∈ [Phase.building, .sealed]) :
    s'.phase ∈ [Phase.building, .sealed] := by
  refine h.keeps (I := fun s => s.phase ∈ [Phase.building, .sealed]) ?_ phase
  intro given s s' phase hmove
  cases hmove with
  | region | reseed | seed | confirm | derive => exact phase
  | «sealed» => simp
  | bind loading | validated loading | reject loading => simp [loading] at phase

/-- A session that validates makes no records, and has none. -/
theorem Reaches.loads (h : Reaches s s')
    (loads : s.phase ∈ [Phase.loading, .validated, .rejected] ∧ s.ledger = .empty) :
    s'.phase ∈ [Phase.loading, .validated, .rejected] ∧ s'.ledger = .empty := by
  refine h.keeps
    (I := fun s => s.phase ∈ [Phase.loading, .validated, .rejected] ∧ s.ledger = .empty) ?_ loads
  rintro given s s' ⟨phase, empty⟩ hmove
  cases hmove with
  | region | reseed | seed | bind => exact ⟨phase, empty⟩
  | confirm _ building | derive _ building | «sealed» building => simp [building] at phase
  | validated | reject => exact ⟨by simp [reject], empty⟩

/-- What stands when a life has ended, stands. -/
theorem Reaches.frozen (h : Reaches s s') (final : s.phase.isFinal = true) :
    s'.phase = s.phase ∧ s'.ledger = s.ledger ∧ s'.numbering = s.numbering := by
  refine h.keeps (I := fun s' => s'.phase = s.phase ∧ s'.ledger = s.ledger ∧
    s'.numbering = s.numbering) ?_ ⟨rfl, rfl, rfl⟩
  rintro given s' s'' same hmove
  rw [← same.1] at final
  cases hmove with
  | region | reseed => exact same
  | seed phase =>
    simp only [List.mem_cons, List.not_mem_nil, or_false] at phase
    rcases phase with phase | phase <;> rw [phase] at final <;> cases final
  | confirm _ phase | derive _ phase | «sealed» phase | bind phase | validated phase
  | reject phase =>
    rw [phase] at final
    cases final

/-- Whatever is issued in the life of a session, in building or in loading at first: it is
sealed by a successful sealing only and gets its verdict from the validation of a list only, and
a region of its own takes it nowhere but where the operations inside do. A session that compiles
never loads; one that loads never compiles and has no records. Reports outside building and
validations outside loading change nothing at all, and in a final phase neither the phase nor
what is on record or known is changed by anything. -/
theorem phases_only_advance {s₀ : Session} {ops : List Operation}
    (new : s₀ = forCompile model config ∨ s₀ = forLoad model config)
    (issued : (op, t) ∈ issuedAll model ops s₀) :
    let after := perform model op t
    ((∀ body, op ≠ .guarded body) → op.Advances after.1 t.phase after.2.phase) ∧
    (∀ body, op = .guarded body → after.2 =
      if t.phase = .building then { (performAll model body t.entered).2 with region := t.region }
      else t) ∧
    (s₀ = forCompile model config → ∀ u ∈ [t, after.2], u.phase ∈ [Phase.building, .sealed]) ∧
    (s₀ = forLoad model config → ∀ u ∈ [t, after.2],
      u.phase ∈ [Phase.loading, .validated, .rejected] ∧ u.ledger = .empty) ∧
    (∀ d, op = .add d → t.phase ≠ .building → after.2 = t) ∧
    (op.isValidation = true → t.phase ≠ .loading → after.2 = t) ∧
    (t.phase.isFinal = true → after.2.phase = t.phase ∧ after.2.ledger = t.ledger ∧
      after.2.numbering = t.numbering) := by
  intro after
  have reaches : Reaches s₀ t := Reaches.issuedAll issued
  have further : Reaches t after.2 := Reaches.perform model op t
  have passed : ∀ u ∈ [t, after.2], Reaches s₀ u := by
    intro u hu
    simp only [List.mem_cons, List.not_mem_nil, or_false] at hu
    rcases hu with rfl | rfl
    · exact reaches
    · exact reaches.trans further
  refine ⟨fun plain => advances_perform model plain t, ?_, ?_, ?_, ?_,
    perform_validation_of_not_loading model, further.frozen⟩
  · rintro body rfl
    exact perform_guarded model body t
  · rintro rfl u hu
    exact (passed u hu).compiles (by simp [forCompile, start])
  · rintro rfl u hu
    exact (passed u hu).loads ⟨by simp [forLoad, start], rfl⟩
  · rintro d rfl
    exact perform_add_of_not_building model d

/-- A report that comes after sealing. -/
theorem phases_only_advance_past_sealing :
    let model := Model.uniform ⟨0⟩ ⟨1⟩ none none ⟨List.replicate 32 0, rfl⟩
    let s₀ := forCompile model default
    let late := Operation.add (.check (.initialized ⟨0⟩ false) rfl)
    let t := (perform model .sealRecords s₀).2
    (late, t) ∈ issuedAll model [.sealRecords, late] s₀ ∧ t.phase = .sealed ∧
      (perform model late t).2 = t := by
  intro model s₀ late t
  have hseal : sealRecords s₀ = .ok [] { s₀ with phase := .sealed } :=
    sealRecords_of_some rfl rfl rfl
  have phase : t.phase = .sealed := by
    rw [show t = leaves sealRecords s₀ from settle_snd .., leaves_of_ok hseal]
  have hissued : (late, t) ∈ issuedAll model [.sealRecords, late] s₀ :=
    mem_issuedAll_cons.mpr (.inr (mem_issuedAll_cons.mpr (.inl
      (by simp [issued, late, t]))))
  obtain ⟨-, -, -, -, reports, -⟩ := phases_only_advance (.inl rfl) hissued
  exact ⟨hissued, phase, reports _ rfl (by simp [phase])⟩

end Session

end Provenance
