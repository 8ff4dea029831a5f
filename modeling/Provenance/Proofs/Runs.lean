import Provenance.Proofs.Adding
import Provenance.Proofs.Seeding

/-!
Every operation moves a session, and so does every run of operations: what is kept by the
elementary moves holds after any run.
-/
namespace Provenance.Session

variable {allowed : LiveRecord → Prop}

theorem settle_snd {α : Type} (action : Action α) (outcome : α → Outcome) (s : Session) :
    (settle action outcome s).2 = leaves action s := by
  rw [settle, leaves]
  cases action s <;> rfl

theorem leaves_symbolFor (id : SymbolId) (expected : Category) (presence : Presence)
    (s : Session) : leaves (symbolFor id expected presence) s = s := by
  rw [symbolFor, leaves_get_bind]
  cases s.numbering.symbolOf? id with
  | none => cases presence <;> rfl
  | some x =>
    by_cases h : x.category = expected
    · simp only [h, if_true]
      rfl
    · simp only [h, if_false]
      rfl

theorem leaves_map {α β : Type} (action : Action α) (f : α → β) (s : Session) :
    leaves (action >>= fun a => pure (f a)) s = leaves action s := by
  cases h : action s with
  | ok a s' =>
    rw [leaves_of_ok h]
    exact leaves_of_ok (bind_of_ok h)
  | error e s' =>
    rw [leaves_of_error h]
    exact leaves_of_error (bind_of_error h)

theorem seed_moves (model : Model) (x : Symbol) (s : Session) :
    Moves allowed (Operation.given (.seed x) (perform model (.seed x) s).1) s
      (perform model (.seed x) s).2 := by
  rw [perform, settle, seed_eq]
  by_cases hp : s.phase ∈ [Phase.building, Phase.loading]
  · rw [if_pos hp]
    by_cases hl : s.isLate
    · rw [if_pos hl]
      exact Moves.refl s
    · have early : s.isLate = false := by simpa using hl
      rw [if_neg hl]
      cases hx : s.numbering.id? x with
      | some id => exact (Move.reseed early (by rw [hx]; rfl)).moves
      | none =>
        cases hn : s.numbering.next with
        | none => exact Moves.refl s
        | some id => exact (Move.seed hp early hx hn).moves
  · rw [if_neg hp]
    exact Moves.refl s

theorem enterRegion_moves (s : Session) : Moves allowed [] s (leaves enterRegion s) :=
  leaves_gate (Moves.refl s) fun _ => (Move.region s s.region.enter).moves

theorem openGuard_moves (s : Session) : Moves allowed [] s (leaves openGuard s) :=
  leaves_gate (Moves.refl s) fun _ => (Move.region s s.region.enter).moves

theorem exitRegion_moves (s : Session) : Moves allowed [] s (leaves exitRegion s) := by
  rw [exitRegion, leaves_get_bind]
  cases s.region.exit? with
  | some region => exact (Move.region s region).moves
  | none => exact Moves.refl s

theorem leaves_closeGuard (opened : UInt32) (s : Session) :
    leaves (closeGuard opened) s = { s with region := ⟨opened - 1⟩ } := by
  rw [closeGuard, leaves_get_bind, leaves_modify_bind, leaves_get_bind]
  by_cases h : (s.region.count ≠ opened && s.config.assertionsAreFatal) = true
  · rw [if_pos h]
    rfl
  · rw [if_neg h]
    rfl

theorem bindSymbol_moves (id : SymbolId) (x : Option Symbol) {s : Session}
    (phase : s.phase = .loading) : Moves allowed [] s (leaves (bindSymbol id x) s) := by
  cases x with
  | none => exact Moves.refl s
  | some x =>
    change Moves allowed [] s { s with numbering := (s.numbering.bind id x).2 }
    by_cases hconflict : (s.numbering.bind id x).1 = .conflict
    · rw [Numbering.bind_of_conflict hconflict]
      exact Moves.refl s
    · rcases Numbering.bind_cases hconflict with ⟨_, hsame⟩ | ⟨free, new, hassign⟩
      · rw [hsame]
        exact Moves.refl s
      · rw [hassign]
        exact (Move.bind phase free new).moves

theorem validateSymbol_moves (id : SymbolId) (x : Option Symbol) (s : Session) :
    Moves allowed [] s (leaves (validateSymbol id x) s) :=
  leaves_gate (Moves.refl s) fun phase => bindSymbol_moves id x (by simpa using phase)

/-- Validating a record does nothing, or what binding the symbol found does. -/
theorem leaves_validate {model : Model} {r : SealedRecord} {s : Session} {P : Session → Prop}
    (same : P s)
    (bound : s.phase = .loading → ∀ id x,
      model.find s.numbering.symbolOf? r = some (.derives id x) → P (leaves (bindSymbol id x) s)) :
    P (leaves (validate model r) s) := by
  rw [validate_eq]
  refine leaves_gate (R := fun _ s' => P s') same ?_
  intro hphase
  have hask := looks_ask model r s
  cases hfind : model.find s.numbering.symbolOf? r with
  | none =>
    rw [hfind] at hask
    obtain ⟨e, he⟩ := hask
    rw [leaves_of_error (bind_of_error he)]
    exact same
  | some finding =>
    rw [hfind] at hask
    rw [leaves, bind_of_ok hask]
    cases finding with
    | derives id x => exact bound (by simpa using hphase) id x hfind
    | states holds => exact same

theorem validate_moves (model : Model) (r : SealedRecord) (s : Session) :
    Moves allowed [] s (leaves (validate model r) s) :=
  leaves_validate (Moves.refl s) fun phase id x _ => bindSymbol_moves id x phase

theorem phase_of_validate {model : Model} {r : SealedRecord} {s : Session}
    (phase : s.phase = .loading) : (leaves (validate model r) s).phase = .loading := by
  refine leaves_validate (P := fun s' => s'.phase = .loading) phase ?_
  intro _ id x _
  cases x with
  | none => exact phase
  | some x => exact phase

/-- A replay validates records, and ends by being done, by forgetting or by a fatal error. -/
theorem leaves_replay {model : Model} {I P : Session → Prop} {index : Nat}
    {records : List SealedRecord} {s : Session}
    (step : ∀ r s, I s → I (leaves (validate model r) s))
    (done : ∀ s, I s → P { s with phase := .validated }) (rejected : ∀ s, I s → P s.reject)
    (stopped : ∀ s, I s → P s) (h : I s) : P (leaves (replay model index records) s) := by
  induction records generalizing index s with
  | nil => exact done s h
  | cons r rest ih =>
    have hvalidate : I (leaves (validate model r) s) := step r s h
    cases hv : validate model r s with
    | ok holds s' =>
      rw [leaves_of_ok hv] at hvalidate
      cases holds with
      | true =>
        rw [leaves, replay_of_true hv]
        exact ih hvalidate
      | false =>
        rw [leaves_of_error (replay_of_false hv)]
        exact rejected s' hvalidate
    | error e s' =>
      rw [leaves_of_error hv] at hvalidate
      cases e with
      | refused e =>
        rw [leaves_of_error (replay_of_refused hv)]
        exact rejected s' hvalidate
      | fatal e =>
        rw [leaves_of_error (replay_of_fatal hv)]
        exact stopped s' hvalidate

theorem replay_moves (model : Model) (index : Nat) (records : List SealedRecord) {s : Session}
    (phase : s.phase = .loading) : Moves allowed [] s (leaves (replay model index records) s) := by
  refine leaves_replay (I := fun s' => Moves allowed [] s s' ∧ s'.phase = .loading) ?_ ?_ ?_ ?_
    ⟨Moves.refl s, phase⟩
  · exact fun r s' h => ⟨h.1.trans_nil (validate_moves model r s'), phase_of_validate h.2⟩
  · exact fun s' h => h.1.step (Move.validated h.2)
  · exact fun s' h => h.1.step (Move.reject h.2)
  · exact fun s' h => h.1

theorem validateRecords_moves (model : Model) (records : List SealedRecord) (s : Session) :
    Moves allowed [] s (leaves (validateRecords model records) s) :=
  leaves_gate (Moves.refl s) fun phase => replay_moves model 0 records (by simpa using phase)

/-- The sealed form of a record: every symbol replaced by its ID, if it has one. -/
def seal? (s : Session) (r : LiveRecord) : Option SealedRecord :=
  r.mapM (fun t => s.numbering.id? (.type t)) fun p => s.numbering.id? (.procedure p)

theorem sealRecords_eq {s : Session} (phase : s.phase = .building)
    (closed : s.region.isOpen = false) :
    sealRecords s = ((s.ledger.records.mapM fun r =>
      r.mapM (fun t => requireId (.type t)) fun p => requireId (.procedure p)) >>= fun records =>
        (modify (fun s => { s with phase := .sealed }) >>= fun _ => pure records :
          Action (List SealedRecord))) s := by
  unfold sealRecords
  rw [bind_of_ok (gate_of_mem (by simp [phase]))]
  rw [get_bind]
  simp only [closed]
  rfl

theorem looks_seal (s : Session) :
    Looks s (s.ledger.records.mapM fun r =>
      r.mapM (fun t => requireId (.type t)) fun p => requireId (.procedure p))
      (s.ledger.records.mapM s.seal?) :=
  Looks.list (Looks.record (fun t => looks_requireId (.type t) s)
    fun p => looks_requireId (.procedure p) s) s.ledger.records

theorem sealRecords_of_some {s : Session} {records : List SealedRecord}
    (phase : s.phase = .building) (closed : s.region.isOpen = false)
    (h : s.ledger.records.mapM s.seal? = some records) :
    sealRecords s = .ok records { s with phase := .sealed } := by
  have hlooks := looks_seal s
  rw [h] at hlooks
  rw [sealRecords_eq phase closed, bind_of_ok hlooks]
  rfl

theorem sealRecords_of_open {s : Session} (phase : s.phase = .building)
    (inside : s.region.isOpen = true) :
    sealRecords s = violate (.openRegions s.region.depth) s := by
  unfold sealRecords
  rw [bind_of_ok (gate_of_mem (by simp [phase])), get_bind]
  simp only [inside, if_true]
  rfl

/-- Sealing succeeds, in building and outside of all regions, or changes nothing. -/
theorem sealRecords_cases (s : Session) :
    (∃ records, s.phase = .building ∧ s.region.isOpen = false ∧
      sealRecords s = .ok records { s with phase := .sealed }) ∨
    ∃ e, sealRecords s = .error e s := by
  by_cases hp : s.phase = .building
  · by_cases hr : s.region.isOpen
    · exact .inr ⟨_, sealRecords_of_open hp hr⟩
    · have closed : s.region.isOpen = false := by simpa using hr
      have hlooks := looks_seal s
      cases h : s.ledger.records.mapM s.seal? with
      | some records => exact .inl ⟨records, hp, closed, sealRecords_of_some hp closed h⟩
      | none =>
        rw [h] at hlooks
        obtain ⟨v, hv⟩ := hlooks
        right
        rw [sealRecords_eq hp closed, bind_of_error hv]
        exact ⟨_, rfl⟩
  · have hnot : s.phase ∉ [Phase.building] := by simpa using hp
    exact .inr ⟨_, bind_of_error (gate_of_not_mem hnot)⟩

theorem sealRecords_moves (s : Session) : Moves allowed [] s (leaves sealRecords s) := by
  rcases sealRecords_cases s with ⟨records, phase, closed, hok⟩ | ⟨e, he⟩
  · rw [leaves_of_ok hok]
    exact (Move.sealed phase closed).moves
  · rw [leaves_of_error he]
    exact Moves.refl s

/-- Only a session that records can be sealed, and only outside of all regions. -/
theorem of_sealRecords {s s' : Session} {records : List SealedRecord}
    (h : sealRecords s = .ok records s') : s.phase = .building ∧ s.region.isOpen = false := by
  rcases sealRecords_cases s with ⟨_, phase, closed, -⟩ | ⟨e, he⟩
  · exact ⟨phase, closed⟩
  · rw [he] at h
    cases h

theorem perform_guarded_of_error {model : Model} {body : List Operation} {s s' : Session}
    {e : Failure} (h : openGuard s = .error e s') :
    perform model (.guarded body) s = (.failed e, s') := by
  simp only [perform, h]

/-- A guarded run ends where closing its region leaves what the body left. -/
theorem perform_guarded_of_ok {model : Model} {body : List Operation} {s s' : Session}
    {opened : UInt32} (h : openGuard s = .ok opened s') :
    ∃ closing, perform model (.guarded body) s =
      (.guarded (performAll model body s').1 closing,
        leaves (closeGuard opened) (performAll model body s').2) := by
  simp only [perform, h]
  cases hc : closeGuard opened (performAll model body s').2 with
  | ok _ s'' =>
    rw [leaves_of_ok hc]
    exact ⟨none, rfl⟩
  | error e s'' =>
    rw [leaves_of_error hc]
    exact ⟨some e, rfl⟩

/-- Asking changes nothing, answered or not. -/
theorem perform_question (model : Model) {operation : Operation}
    (question : operation.isQuestion = true) (s : Session) :
    (perform model operation s).2 = s := by
  cases operation with
  | isValidated | findId | contains | records => rfl
  | requireId x => rw [perform, settle_snd, leaves_of_looks (looks_requireId x s)]
  | symbolFor id expected presence => rw [perform, settle_snd, leaves_symbolFor]
  | typeFor id presence => rw [perform, settle_snd, typeFor, leaves_map, leaves_symbolFor]
  | procedureFor id presence => rw [perform, settle_snd, procedureFor, leaves_map, leaves_symbolFor]
  | _ => cases question

theorem perform_quiet (model : Model) {operation : Operation} (quiet : operation.isQuiet = true)
    (s : Session) : Moves allowed [] s (perform model operation s).2 := by
  cases operation with
  | add | seed | guarded => cases quiet
  | enterRegion =>
    rw [perform, settle_snd]
    exact enterRegion_moves s
  | exitRegion =>
    rw [perform, settle_snd]
    exact exitRegion_moves s
  | sealRecords =>
    rw [perform, settle_snd]
    exact sealRecords_moves s
  | validateSymbol id x =>
    rw [perform, settle_snd]
    exact validateSymbol_moves id x s
  | validate r =>
    rw [perform, settle_snd]
    exact validate_moves model r s
  | validateRecords records =>
    rw [perform, settle_snd]
    exact validateRecords_moves model records s
  | _ =>
    rw [perform_question model rfl s]
    exact Moves.refl s

section Keeping

variable {model : Model} {I : List Symbol → Session → Prop}

/-- What every entry and every quiet move keeps, every run keeps. -/
structure Invariant (model : Model) (allowed : LiveRecord → Prop)
    (I : List Symbol → Session → Prop) : Prop where
  entry : ∀ {seeds s s'}, I seeds s → Entry model allowed s s' → I seeds s'
  quiet : ∀ {seeds given s s'}, I seeds s → Quiet given s s' → I (seeds ++ given) s'

namespace Invariant

theorem entries (invariant : Invariant model allowed I) {seeds : List Symbol} {s s' : Session}
    (h : I seeds s) (entries : Entries model allowed s s') : I seeds s' := by
  induction entries with
  | refl => exact h
  | step _ entry ih => exact invariant.entry ih entry

theorem moves (invariant : Invariant model allowed I) {seeds given : List Symbol} {s s' : Session}
    (h : I seeds s) (moves : Moves (fun _ => False) given s s') : I (seeds ++ given) s' :=
  moves.invariant invariant.quiet h

theorem moves_nil (invariant : Invariant model allowed I) {seeds : List Symbol} {s s' : Session}
    (h : I seeds s) (moves : Moves (fun _ => False) [] s s') : I seeds s' := by
  have h' := invariant.moves h moves
  rwa [List.append_nil] at h'

mutual

theorem perform (invariant : Invariant model allowed I)
    (confirmed : ∀ r, model.Confirms r → allowed r)
    (operation : Operation) {seeds : List Symbol} {s : Session}
    (ok : ∀ d, .add d ∈ operation.atoms → ∀ r, d.record? model = some r → allowed r)
    (h : I seeds s) :
    I (seeds ++ operation.given (Session.perform model operation s).1)
      (Session.perform model operation s).2 := by
  by_cases quiet : operation.isQuiet
  · rw [Operation.given_of_isQuiet quiet, List.append_nil]
    exact invariant.moves_nil h (perform_quiet model quiet s)
  cases operation with
  | add d =>
    rw [Session.perform, settle_snd]
    have arrays (component array : TypeRef) (ha : model.arrayType component = some array) :
        allowed (.type array (.arrayOf component)) := confirmed _ ha
    have h' := invariant.entries h
      (add_entries arrays d (ok d (by simp [Operation.atoms])) s)
    simpa [Operation.given] using h'
  | seed x => exact invariant.moves h (seed_moves model x s)
  | guarded body =>
    have hopen := invariant.moves_nil h (openGuard_moves s)
    cases hg : openGuard s with
    | error e s' =>
      rw [leaves_of_error hg] at hopen
      rw [perform_guarded_of_error hg]
      simpa [Operation.given] using hopen
    | ok opened s' =>
      rw [leaves_of_ok hg] at hopen
      obtain ⟨closing, heq⟩ := perform_guarded_of_ok hg
      rw [heq, leaves_closeGuard]
      exact invariant.moves_nil (invariant.performAll confirmed body ok hopen)
        (Move.region _ ⟨opened - 1⟩).moves
  | _ => exact absurd rfl quiet

theorem performAll (invariant : Invariant model allowed I)
    (confirmed : ∀ r, model.Confirms r → allowed r) (operations : List Operation)
    {seeds : List Symbol} {s : Session}
    (ok : ∀ d, .add d ∈ Operation.atomsAll operations →
      ∀ r, d.record? model = some r → allowed r)
    (h : I seeds s) :
    I (seeds ++ Operation.givenAll operations (Session.performAll model operations s).1)
      (Session.performAll model operations s).2 := by
  cases operations with
  | nil => simpa [Operation.givenAll, Session.performAll] using h
  | cons operation rest =>
    rw [Operation.atomsAll] at ok
    have hfirst := invariant.perform confirmed operation
      (fun d hd => ok d (List.mem_append_left _ hd)) h
    have hrest := invariant.performAll confirmed rest
      (fun d hd => ok d (List.mem_append_right _ hd)) hfirst
    rw [List.append_assoc] at hrest
    exact hrest

end

end Invariant

theorem performAll_moves (model : Model) (confirmed : ∀ r, model.Confirms r → allowed r)
    (operations : List Operation) (s : Session)
    (ok : ∀ d, .add d ∈ Operation.atomsAll operations →
      ∀ r, d.record? model = some r → allowed r) :
    Moves allowed (Operation.givenAll operations (performAll model operations s).1) s
      (performAll model operations s).2 := by
  have invariant : Invariant model allowed fun given s' => Moves allowed given s s' :=
    { entry := fun h entry => by simpa using h.trans (entry.moves confirmed)
      quiet := fun h quiet => h.step (quiet.mono fun _ => False.elim) }
  exact invariant.performAll confirmed operations ok (Moves.refl s)

end Keeping

/-- Reports alone neither seal a session nor open a region. -/
theorem adds_grow (model : Model) (discoveries : List Discovery) (s : Session) :
    Grows (fun _ => True) s (performAll model (discoveries.map .add) s).2 := by
  have entries : Entries model (fun _ => True) s (performAll model (discoveries.map .add) s).2 := by
    induction discoveries generalizing s with
    | nil => exact Entries.refl s
    | cons d discoveries ih =>
      have hfirst : Entries model (fun _ => True) s (leaves (add model d) s) :=
        add_entries (fun _ _ _ => trivial) d (fun _ _ => trivial) s
      have hleaves : (perform model (.add d) s).2 = leaves (add model d) s := by
        rw [perform, settle_snd]
      rw [← hleaves] at hfirst
      exact hfirst.trans (ih (perform model (.add d) s).2)
  exact entries.grows fun _ _ => trivial

end Provenance.Session
