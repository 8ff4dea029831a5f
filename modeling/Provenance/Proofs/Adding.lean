import Provenance.Proofs.Moves

/-!
Reporting a discovery only ever makes records, and of these only the one asked for and
such as the model confirms by itself: chains, owners and arrays. Nothing is recorded
before the premises are known, outside building, or while a region is open. A symbol is
recorded together with what is due with it: a type with its chain, a procedure with its
owner.
-/
namespace Provenance.Session

variable {model : Model} {allowed : LiveRecord → Prop} {s s' s'' : Session}

/-- The session after the first record of a symbol, which takes the next ID. -/
def derived (s : Session) (r : LiveRecord) (x : Symbol) (id : SymbolId) : Session :=
  { s with numbering := s.numbering.issue x id, ledger := (s.ledger.insert r).2 }

/-- The session after the chain of a type is recorded, which an array has none of. -/
def chained (model : Model) (ty : TypeRef) (s : Session) : Session :=
  if model.isArray ty then s
  else { s with ledger := (s.ledger.insert (.check (.chain ty (model.chainDigest ty)))).2 }

@[simp] theorem phase_derived (s : Session) (r : LiveRecord) (x : Symbol) (id : SymbolId) :
    (s.derived r x id).phase = s.phase := rfl

@[simp] theorem region_derived (s : Session) (r : LiveRecord) (x : Symbol) (id : SymbolId) :
    (s.derived r x id).region = s.region := rfl

@[simp] theorem id?_derived_self (s : Session) (r : LiveRecord) (x : Symbol) (id : SymbolId) :
    (s.derived r x id).numbering.id? x = some id := by
  simp [derived, Numbering.id?_assign]

@[simp] theorem phase_chained (model : Model) (ty : TypeRef) (s : Session) :
    (chained model ty s).phase = s.phase := by
  unfold chained
  split <;> rfl

@[simp] theorem region_chained (model : Model) (ty : TypeRef) (s : Session) :
    (chained model ty s).region = s.region := by
  unfold chained
  split <;> rfl

@[simp] theorem numbering_chained (model : Model) (ty : TypeRef) (s : Session) :
    (chained model ty s).numbering = s.numbering := by
  unfold chained
  split <;> rfl

/-- What is recorded at one go: one more way to a known symbol or one more check, or a symbol
with all that is due with it. The owner of a procedure goes unrecorded only where it is known,
where it is on record without being known, or where no ID is left. -/
inductive Entry (model : Model) (allowed : LiveRecord → Prop) : Session → Session → Prop where
  | again {s : Session} {r : LiveRecord} (ok : allowed r) (phase : s.phase = .building)
      (closed : s.region.isOpen = false)
      (premises : ∀ x ∈ r.premises, (s.numbering.id? x).isSome)
      (known : ∀ x, r.defined = some x → (s.numbering.id? x).isSome) :
      Entry model allowed s { s with ledger := (s.ledger.insert r).2 }
  | type {s : Session} {ty : TypeRef} {rule : TypeRule TypeRef ProcRef} {id : SymbolId}
      (ok : allowed (.type ty rule)) (phase : s.phase = .building)
      (closed : s.region.isOpen = false) (fresh : s.ledger.contains (.type ty rule) = false)
      (premises : ∀ x ∈ (Record.type ty rule).premises, (s.numbering.id? x).isSome)
      (new : s.numbering.id? (.type ty) = none) (next : s.numbering.next = some id) :
      Entry model allowed s (chained model ty (s.derived (.type ty rule) (.type ty) id))
  | procedure {s : Session} {p : ProcRef} {rule : ProcRule TypeRef ProcRef} {id : SymbolId}
      (ok : allowed (.procedure p rule)) (phase : s.phase = .building)
      (closed : s.region.isOpen = false) (fresh : s.ledger.contains (.procedure p rule) = false)
      (premises : ∀ x ∈ (Record.procedure p rule).premises, (s.numbering.id? x).isSome)
      (new : s.numbering.id? (.procedure p) = none) (next : s.numbering.next = some id)
      (settled : let s' := s.derived (.procedure p rule) (.procedure p) id
        (s'.numbering.id? (.type (model.ownerOf p))).isSome ∨
          s'.ledger.contains (.type (model.ownerOf p) (.ownerOf p)) = true ∨
          s'.numbering.next = none) :
      Entry model allowed s (s.derived (.procedure p rule) (.procedure p) id)
  | owned {s : Session} {p : ProcRef} {rule : ProcRule TypeRef ProcRef} {id ownerId : SymbolId}
      (ok : allowed (.procedure p rule)) (phase : s.phase = .building)
      (closed : s.region.isOpen = false) (fresh : s.ledger.contains (.procedure p rule) = false)
      (premises : ∀ x ∈ (Record.procedure p rule).premises, (s.numbering.id? x).isSome)
      (new : s.numbering.id? (.procedure p) = none) (next : s.numbering.next = some id)
      (owner : let s' := s.derived (.procedure p rule) (.procedure p) id
        s'.ledger.contains (.type (model.ownerOf p) (.ownerOf p)) = false ∧
          s'.numbering.id? (.type (model.ownerOf p)) = none ∧
          s'.numbering.next = some ownerId) :
      Entry model allowed s (chained model (model.ownerOf p)
        ((s.derived (.procedure p rule) (.procedure p) id).derived
          (.type (model.ownerOf p) (.ownerOf p)) (.type (model.ownerOf p)) ownerId))

/-- One go after the other. -/
inductive Entries (model : Model) (allowed : LiveRecord → Prop) : Session → Session → Prop where
  | refl (s : Session) : Entries model allowed s s
  | step {s s' s'' : Session} :
      Entries model allowed s s' → Entry model allowed s' s'' → Entries model allowed s s''

theorem Entry.entries (h : Entry model allowed s s') : Entries model allowed s s' :=
  (Entries.refl s).step h

theorem Entry.phase_eq (h : Entry model allowed s s') : s'.phase = s.phase := by
  cases h with
  | again => rfl
  | type | procedure | owned => simp

theorem Entry.region_eq (h : Entry model allowed s s') : s'.region = s.region := by
  cases h with
  | again => rfl
  | type | procedure | owned => simp

namespace Entries

theorem phase_eq (h : Entries model allowed s s') : s'.phase = s.phase := by
  induction h with
  | refl => rfl
  | step _ entry ih => exact entry.phase_eq.trans ih

theorem region_eq (h : Entries model allowed s s') : s'.region = s.region := by
  induction h with
  | refl => rfl
  | step _ entry ih => exact entry.region_eq.trans ih

theorem trans (h : Entries model allowed s s') (h' : Entries model allowed s' s'') :
    Entries model allowed s s'' := by
  induction h' with
  | refl => exact h
  | step _ entry ih => exact ih.step entry

/-- What follows an action goes on in the phase and the region that the action began in. -/
theorem bind {α β : Type} {action : Action α} {next : α → Action β}
    (h : Entries model allowed s (leaves action s)) (phase : s.phase = .building)
    (closed : s.region.isOpen = false)
    (hnext : ∀ a s', action s = .ok a s' → s'.phase = .building → s'.region.isOpen = false →
      Entries model allowed s' (leaves (next a) s')) :
    Entries model allowed s (leaves (action >>= next) s) := by
  refine leaves_bind ?_ ?_
  · intro e s' he
    rwa [leaves_of_error he] at h
  · intro a s' hs'
    rw [leaves_of_ok hs'] at h
    exact h.trans (hnext a s' hs' (h.phase_eq.trans phase) (by rw [h.region_eq, closed]))

end Entries

theorem isValidated_of_closed (closed : s.region.isOpen = false) (x : Symbol) :
    s.isValidated x = (s.numbering.id? x).isSome := by
  rw [isValidated, closed, Bool.false_or]

theorem requirePremises_eq (r : LiveRecord) (s : Session) :
    requirePremises r s = match r.premises.find? (fun x => !s.isValidated x) with
      | some x => violate (.unknownPremise x r.kind) s
      | none => .ok () s := by
  rw [requirePremises, get_bind]
  cases r.premises.find? (fun x => !s.isValidated x) <;> rfl

/-- Either the premises are known, or nothing is done. -/
theorem requirePremises_cases (r : LiveRecord) (closed : s.region.isOpen = false) :
    ((∀ x ∈ r.premises, (s.numbering.id? x).isSome) ∧ requirePremises r s = .ok () s) ∨
      ∃ e, requirePremises r s = .error e s := by
  rw [requirePremises_eq]
  cases hfind : r.premises.find? (fun x => !s.isValidated x) with
  | some x => exact .inr ⟨_, rfl⟩
  | none =>
    refine .inl ⟨fun x hx => ?_, rfl⟩
    have hv := List.find?_eq_none.mp hfind x hx
    rw [isValidated_of_closed closed, Bool.not_eq_true, Bool.not_eq_false'] at hv
    exact hv

theorem requirePremises_of_known {r : LiveRecord} (closed : s.region.isOpen = false)
    (premises : ∀ x ∈ r.premises, (s.numbering.id? x).isSome) :
    requirePremises r s = .ok () s := by
  have hfind : r.premises.find? (fun x => !s.isValidated x) = none := by
    refine List.find?_eq_none.mpr fun x hx => ?_
    rw [isValidated_of_closed closed, premises x hx]
    simp
  rw [requirePremises_eq, hfind]

/-- What follows is done only where the premises are known. -/
theorem requirePremises_entries {next : Action Unit} (r : LiveRecord)
    (closed : s.region.isOpen = false)
    (h : (∀ x ∈ r.premises, (s.numbering.id? x).isSome) →
      Entries model allowed s (leaves next s)) :
    Entries model allowed s (leaves (requirePremises r >>= fun _ => next) s) := by
  rcases requirePremises_cases r closed with ⟨premises, hok⟩ | ⟨e, he⟩
  · rw [leaves, bind_of_ok hok]
    exact h premises
  · rw [leaves_of_error (bind_of_error he)]
    exact Entries.refl s

theorem append_eq (r : LiveRecord) (s : Session) :
    append r s =
      if s.ledger.contains r then violate (.appendedTwice r) s
      else match r.defined with
        | none => .ok () { s with ledger := (s.ledger.insert r).2 }
        | some x =>
          if (s.numbering.id? x).isSome then .ok () { s with ledger := (s.ledger.insert r).2 }
          else match s.numbering.next with
            | none => refuse (.limit .symbolIds) s
            | some id => .ok () (s.derived r x id) := by
  unfold append
  rw [get_bind]
  by_cases hc : s.ledger.contains r
  · simp only [hc, if_true]
    rfl
  · simp only [hc, Bool.false_eq_true, if_false]
    cases hd : r.defined with
    | none => rfl
    | some x =>
      simp only [get_bind]
      cases hx : s.numbering.id? x with
      | some id => rfl
      | none =>
        cases hn : s.numbering.next with
        | none =>
          simp only [Option.isNone_none, Option.isSome_none, Bool.false_eq_true, if_true, if_false]
          exact bind_of_error (issue_of_none hn)
        | some id =>
          simp only [Option.isNone_none, Option.isSome_none, Bool.false_eq_true, if_true, if_false]
          exact bind_of_ok (issue_of_some hn)

/-- The first record of a symbol takes the next ID, or nothing is done. -/
theorem append_of_new {r : LiveRecord} {x : Symbol} (defined : r.defined = some x)
    (new : s.numbering.id? x = none) :
    (∃ id, s.ledger.contains r = false ∧ s.numbering.next = some id ∧
      append r s = .ok () (s.derived r x id)) ∨
    ∃ e, (s.ledger.contains r = true ∨ s.numbering.next = none) ∧ append r s = .error e s := by
  have heq := append_eq r s
  rw [defined] at heq
  by_cases hc : s.ledger.contains r
  · rw [if_pos hc] at heq
    exact .inr ⟨_, .inl hc, heq⟩
  · rw [if_neg hc] at heq
    simp only [new] at heq
    cases hn : s.numbering.next with
    | none =>
      rw [hn] at heq
      exact .inr ⟨_, .inr rfl, heq⟩
    | some id =>
      rw [hn] at heq
      exact .inl ⟨id, by simpa using hc, rfl, heq⟩

/-- A record that derives nothing new is there in the end, be it that it was before. -/
theorem appendIfNew_of_known {r : LiveRecord}
    (known : ∀ x, r.defined = some x → (s.numbering.id? x).isSome) :
    appendIfNew r s = .ok () { s with ledger := (s.ledger.insert r).2 } := by
  rw [appendIfNew, get_bind]
  by_cases hc : s.ledger.contains r
  · rw [if_pos hc, Ledger.insert_of_contains hc]
    rfl
  · rw [if_neg hc, append_eq, if_neg hc]
    cases hd : r.defined with
    | none => rfl
    | some x => simp only [known x hd, if_true]

theorem leaves_chain (model : Model) (ty : TypeRef) (s : Session) :
    leaves (unless model.isArray ty do
      appendIfNew (.check (.chain ty (model.chainDigest ty)))) s = chained model ty s := by
  unfold chained
  by_cases ha : model.isArray ty
  · simp only [ha, if_true]
    rfl
  · have hdone := appendIfNew_of_known (s := s)
      (r := .check (.chain ty (model.chainDigest ty))) (by simp [Record.defined])
    simp only [ha, Bool.false_eq_true, if_false]
    exact leaves_of_ok hdone

/-- Once a procedure is recorded its owner may be. -/
theorem premises_ownerOf (t : TypeRef) (p : ProcRef) (rule : ProcRule TypeRef ProcRef)
    (s : Session) (id : SymbolId) : ∀ x ∈ (Record.type t (.ownerOf p)).premises,
      ((s.derived (.procedure p rule) (.procedure p) id).numbering.id? x).isSome := by
  intro x hx
  rw [Record.premises_type, TypeRule.operands, List.mem_singleton] at hx
  rw [hx, id?_derived_self]
  rfl

/-- A type that is new is recorded with its chain, or nothing is done. -/
theorem addType_of_new (model : Model) {ty : TypeRef} {rule : TypeRule TypeRef ProcRef}
    (closed : s.region.isOpen = false)
    (premises : ∀ x ∈ (Record.type ty rule).premises, (s.numbering.id? x).isSome)
    (new : s.numbering.id? (.type ty) = none) :
    (∃ id, s.ledger.contains (.type ty rule) = false ∧ s.numbering.next = some id ∧
      leaves (addType model ty rule) s =
        chained model ty (s.derived (.type ty rule) (.type ty) id)) ∨
    (s.ledger.contains (.type ty rule) = true ∨ s.numbering.next = none) ∧
      leaves (addType model ty rule) s = s := by
  have hnew : s.isValidated (.type ty) = false := by
    rw [isValidated_of_closed closed, new]
    rfl
  rw [addType, leaves, bind_of_ok (requirePremises_of_known closed premises), ← leaves,
    leaves_get_bind, hnew, if_neg Bool.false_ne_true]
  rcases append_of_new (r := .type ty rule) rfl new with ⟨id, fresh, next, hok⟩ | ⟨e, why, he⟩
  · refine .inl ⟨id, fresh, next, ?_⟩
    rw [leaves, bind_of_ok hok, ← leaves, leaves_chain]
  · refine .inr ⟨why, ?_⟩
    rw [leaves_of_error (bind_of_error he)]

theorem addType_entries {ty : TypeRef} {rule : TypeRule TypeRef ProcRef}
    (ok : allowed (.type ty rule)) (phase : s.phase = .building)
    (closed : s.region.isOpen = false) :
    Entries model allowed s (leaves (addType model ty rule) s) := by
  rcases requirePremises_cases (.type ty rule) closed with ⟨premises, hok⟩ | ⟨e, he⟩
  · cases hid : s.numbering.id? (.type ty) with
    | none =>
      rcases addType_of_new model closed premises hid with
        ⟨id, fresh, next, heq⟩ | ⟨-, heq⟩
      · rw [heq]
        exact (Entry.type ok phase closed fresh premises hid next).entries
      · rw [heq]
        exact Entries.refl s
    | some id =>
      have hv : s.isValidated (.type ty) = true := by
        rw [isValidated_of_closed closed, hid]
        rfl
      have known : ∀ x, (Record.type ty rule).defined = some x → (s.numbering.id? x).isSome := by
        rintro x ⟨⟩
        rw [hid]
        rfl
      rw [addType, leaves, bind_of_ok hok, ← leaves, leaves_get_bind, hv, if_pos rfl,
        leaves_of_ok (appendIfNew_of_known known)]
      exact (Entry.again ok phase closed premises known).entries
  · rw [addType, leaves_of_error (bind_of_error he)]
    exact Entries.refl s

/-- A procedure that is new is recorded with its owner, as far as that is due and possible. -/
theorem addProcedure_entries_of_new {p : ProcRef} {rule : ProcRule TypeRef ProcRef}
    (ok : allowed (.procedure p rule)) (phase : s.phase = .building)
    (closed : s.region.isOpen = false)
    (premises : ∀ x ∈ (Record.procedure p rule).premises, (s.numbering.id? x).isSome)
    (new : s.numbering.id? (.procedure p) = none) :
    Entries model allowed s (leaves (append (.procedure p rule) >>= fun _ =>
      (get : Action Session) >>= fun s' =>
        unless s'.isValidated (.type (model.ownerOf p)) do
          addType model (model.ownerOf p) (.ownerOf p)) s) := by
  rcases append_of_new (r := .procedure p rule) rfl new with ⟨id, fresh, next, hok⟩ | ⟨e, -, he⟩
  · rw [leaves, bind_of_ok hok, ← leaves, leaves_get_bind]
    have closed' : (s.derived (.procedure p rule) (.procedure p) id).region.isOpen = false := closed
    have entry (settled) : Entry model allowed s _ :=
      Entry.procedure ok phase closed fresh premises new next settled
    cases howner : (s.derived (.procedure p rule) (.procedure p) id).numbering.id?
        (.type (model.ownerOf p)) with
    | some ownerId =>
      have known := isValidated_of_closed closed' (.type (model.ownerOf p))
      rw [howner] at known
      rw [known, if_pos (by rfl)]
      exact (entry (.inl (by rw [howner]; rfl))).entries
    | none =>
      have unknown := isValidated_of_closed closed' (.type (model.ownerOf p))
      rw [howner] at unknown
      rw [unknown, if_neg (by simp)]
      rcases addType_of_new model closed' (premises_ownerOf _ p rule s id) howner with
        ⟨ownerId, fresh', next', heq⟩ | ⟨why, heq⟩
      · rw [heq]
        exact (Entry.owned ok phase closed fresh premises new next
          ⟨fresh', howner, next'⟩).entries
      · rw [heq]
        exact (entry (.inr why)).entries
  · rw [leaves_of_error (bind_of_error he)]
    exact Entries.refl s

theorem addProcedure_entries {p : ProcRef} {rule : ProcRule TypeRef ProcRef}
    (ok : allowed (.procedure p rule)) (phase : s.phase = .building)
    (closed : s.region.isOpen = false) :
    Entries model allowed s (leaves (addProcedure model p rule) s) := by
  refine requirePremises_entries (.procedure p rule) closed ?_
  intro premises
  rw [leaves_get_bind]
  cases hid : s.numbering.id? (.procedure p) with
  | none =>
    rw [isValidated_of_closed closed, hid, if_neg (by simp)]
    exact addProcedure_entries_of_new ok phase closed premises hid
  | some id =>
    have known : ∀ x, (Record.procedure p rule).defined = some x →
        (s.numbering.id? x).isSome := by
      rintro x ⟨⟩
      rw [hid]
      rfl
    rw [isValidated_of_closed closed, hid, if_pos (by rfl),
      leaves_of_ok (appendIfNew_of_known known)]
    exact (Entry.again ok phase closed premises known).entries

theorem addCheck_entries {c : Check TypeRef ProcRef} (ok : allowed (.check c))
    (phase : s.phase = .building) (closed : s.region.isOpen = false) :
    Entries model allowed s (leaves (addCheck c) s) := by
  refine requirePremises_entries (.check c) closed ?_
  intro premises
  have known : ∀ x, (Record.check c : LiveRecord).defined = some x →
      (s.numbering.id? x).isSome := by
    rintro x ⟨⟩
  rw [leaves_of_ok (appendIfNew_of_known known)]
  exact (Entry.again ok phase closed premises known).entries

theorem addArrays_entries
    (arrays : ∀ component array, model.arrayType component = some array →
      allowed (.type array (.arrayOf component)))
    (ty : TypeRef) (dims : Nat) (component : TypeRef) (phase : s.phase = .building)
    (closed : s.region.isOpen = false) :
    Entries model allowed s (leaves (addArrays model ty dims component) s) := by
  induction dims generalizing component s with
  | zero => exact Entries.refl s
  | succ dims ih =>
    rw [addArrays]
    cases ha : model.arrayType component with
    | none => exact Entries.refl s
    | some array =>
      refine (addType_entries (arrays component array ha) phase closed).bind phase closed ?_
      intro _ s' _ phase' closed'
      exact ih array phase' closed'

theorem addNamed_entries
    (arrays : ∀ component array, model.arrayType component = some array →
      allowed (.type array (.arrayOf component)))
    {ty : TypeRef} {naming : Naming}
    (ok : ∀ r, Discovery.record? model (.named (some ty) naming) = some r → allowed r)
    (phase : s.phase = .building) (closed : s.region.isOpen = false) :
    Entries model allowed s (leaves (addNamed model ty naming) s) := by
  have named := ok _ rfl
  rw [addNamed]
  generalize model.baseComponent ty = nested at named ⊢
  obtain ⟨component, dims⟩ := nested
  simp only [leaves_get_bind]
  by_cases hd : s.config.maxArrayDimensions.toNat < dims
  · rw [if_pos hd]
    exact Entries.refl s
  · rw [if_neg hd]
    refine (addType_entries named phase closed).bind phase closed ?_
    intro _ s' _ phase' closed'
    exact addArrays_entries arrays ty dims component phase' closed'

theorem add_entries
    (arrays : ∀ component array, model.arrayType component = some array →
      allowed (.type array (.arrayOf component)))
    (d : Discovery) (ok : ∀ r, d.record? model = some r → allowed r) (s : Session) :
    Entries model allowed s (leaves (add model d) s) := by
  refine leaves_gate (Entries.refl s) ?_
  intro hphase
  have phase : s.phase = .building := by simpa using hphase
  rw [leaves_get_bind]
  by_cases hr : s.region.isOpen
  · rw [if_pos hr]
    exact Entries.refl s
  · have closed : s.region.isOpen = false := by simpa using hr
    rw [if_neg hr]
    -- All that is left to do after the records are made is to say so.
    have told {action : Action Unit} (h : Entries model allowed s (leaves action s)) :
        Entries model allowed s (leaves (action >>= fun _ => pure true) s) :=
      h.bind phase closed fun _ s' _ _ _ => Entries.refl s'
    cases d with
    | named ty naming =>
      cases ty with
      | none => exact Entries.refl s
      | some ty => exact told (addNamed_entries arrays ok phase closed)
    | type ty rule unnamed =>
      cases ty with
      | none => exact Entries.refl s
      | some ty => exact told (addType_entries (ok _ rfl) phase closed)
    | signed p owner beholder =>
      cases p with
      | none => exact Entries.refl s
      | some p => exact told (addProcedure_entries (ok _ rfl) phase closed)
    | procedure p rule unsigned =>
      cases p with
      | none => exact Entries.refl s
      | some p => exact told (addProcedure_entries (ok _ rfl) phase closed)
    | check c unchained => exact told (addCheck_entries (ok _ rfl) phase closed)

/-- A record of what is known already moves a session, unless it is there. -/
theorem insert_moves {r : LiveRecord} (ok : allowed r) (phase : s.phase = .building)
    (closed : s.region.isOpen = false) (premises : ∀ x ∈ r.premises, (s.numbering.id? x).isSome)
    (known : ∀ x, r.defined = some x → (s.numbering.id? x).isSome) :
    Moves allowed [] s { s with ledger := (s.ledger.insert r).2 } := by
  cases hc : s.ledger.contains r with
  | true =>
    rw [Ledger.insert_of_contains hc]
    exact Moves.refl s
  | false => exact (Move.confirm ok phase closed hc premises known).moves

theorem chained_moves (confirmed : ∀ r, model.Confirms r → allowed r) {ty : TypeRef}
    (phase : s.phase = .building) (closed : s.region.isOpen = false)
    (known : (s.numbering.id? (.type ty)).isSome) : Moves allowed [] s (chained model ty s) := by
  unfold chained
  by_cases ha : model.isArray ty
  · rw [if_pos ha]
    exact Moves.refl s
  · rw [if_neg ha]
    refine insert_moves (confirmed _ rfl) phase closed ?_ ?_
    · intro x hx
      rw [Record.premises_check, Check.operands, List.mem_singleton] at hx
      rw [hx]
      exact known
    · rintro x ⟨⟩

theorem Entry.moves (confirmed : ∀ r, model.Confirms r → allowed r)
    (h : Entry model allowed s s') : Moves allowed [] s s' := by
  cases h with
  | again ok phase closed premises known => exact insert_moves ok phase closed premises known
  | type ok phase closed fresh premises new next =>
    have first := (Move.derive ok phase closed fresh premises rfl new next).moves
    refine first.trans_nil (chained_moves confirmed phase closed ?_)
    rw [Numbering.id?_issue, Numbering.id?_assign, if_pos rfl]
    rfl
  | procedure ok phase closed fresh premises new next _ =>
    exact (Move.derive ok phase closed fresh premises rfl new next).moves
  | @owned p rule id ownerId ok phase closed fresh premises new next owner =>
    obtain ⟨fresh', new', next'⟩ := owner
    have first := (Move.derive ok phase closed fresh premises rfl new next).moves
    have second := (Move.derive (s := s.derived (.procedure p rule) (.procedure p) id)
      (confirmed (.type (model.ownerOf p) (.ownerOf p)) rfl) phase closed fresh'
      (premises_ownerOf _ p rule s id) rfl new' next').moves
    refine (first.trans_nil second).trans_nil (chained_moves confirmed phase closed ?_)
    rw [Numbering.id?_issue, Numbering.id?_assign, if_pos rfl]
    rfl

theorem Entries.moves (confirmed : ∀ r, model.Confirms r → allowed r)
    (h : Entries model allowed s s') : Moves allowed [] s s' := by
  induction h with
  | refl => exact Moves.refl s
  | step _ entry ih => exact ih.trans_nil (entry.moves confirmed)

/-- A session grows into another by records alone, in one phase and one region. -/
structure Grows (allowed : LiveRecord → Prop) (s s' : Session) : Prop where
  moves : Moves allowed [] s s'
  phase : s'.phase = s.phase
  region : s'.region = s.region

theorem Entries.grows (confirmed : ∀ r, model.Confirms r → allowed r)
    (h : Entries model allowed s s') : Grows allowed s s' :=
  ⟨h.moves confirmed, h.phase_eq, h.region_eq⟩

end Provenance.Session
