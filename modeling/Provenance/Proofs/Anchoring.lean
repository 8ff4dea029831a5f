import Provenance.Proofs.Checked
import Provenance.Proofs.Phases
import Provenance.Proofs.Rejection
import Provenance.Proofs.Renaming

/-!
Validation that tests every handle before it follows it. IDs, indices and offsets of a sealed
list may be anything, but a session asks about symbols only, and those it knows came from the
world or were given to it. So as long as what it is given exists, a session knows only what the
world has, and validation that tests every handle does what validation does that trusts them.
-/
namespace Provenance

/-- The symbols that an operation may bring into the table of a session that loads. -/
def Operation.brought : Operation → List Symbol
  | .seed x | .validateSymbol _ (some x) => [x]
  | _ => []

theorem Operation.symbols_of_brought {op : Operation} {x : Symbol} (h : x ∈ op.brought) :
    x ∈ op.symbols := by
  cases op with
  | seed y => exact h
  | validateSymbol id y =>
    cases y with
    | some y => exact h
    | none => cases h
  | _ => cases h

/-- How an operation ends that tests every handle, if not with a result: in a failure of the
session, or at the handle of something that the world does not have. -/
inductive Halt where
  | failed (failure : Failure)
  | astray (x : Symbol)
deriving DecidableEq, Repr

namespace Checked

open Session

variable {α β : Type} {w : World} {s : Session}

abbrev Action := EStateM Halt Session

/-- An action that reads nothing of the world. -/
def act (action : Session.Action α) : Action α := fun s =>
  match action s with
  | .ok a s' => .ok a s'
  | .error e s' => .error (.failed e) s'

/-- Reads the world, and stops at a handle that fails its test. -/
def look (read : Reading α) : Action α := fun s =>
  match read with
  | .ok a => .ok a s
  | .error x => .error (.astray x) s

theorem act_of_ok {action : Session.Action α} {s s' : Session} {a : α}
    (h : action s = .ok a s') : act action s = .ok a s' := by
  simp only [act, h]

theorem act_of_error {action : Session.Action α} {s s' : Session} {e : Failure}
    (h : action s = .error e s') : act action s = .error (.failed e) s' := by
  simp only [act, h]

theorem act_bind {action : Session.Action α} {next : α → Session.Action β}
    {next' : α → Action β} (h : ∀ a s', action s = .ok a s' → next' a s' = act (next a) s') :
    (act action >>= next') s = act (action >>= next) s := by
  show EStateM.bind (act action) next' s = _
  cases hs : action s with
  | ok a s' =>
    rw [EStateM.bind, act_of_ok hs]
    simp only [act, bind_of_ok hs]
    exact h a s' hs
  | error e s' =>
    rw [EStateM.bind, act_of_error hs]
    simp only [act, bind_of_error hs]

/-- The same where what comes first is not an action that reads nothing, but does what one does. -/
theorem act_bind_of_eq {action : Session.Action α} {next : α → Session.Action β}
    {checked : Action α} {next' : α → Action β} (first : checked s = act action s)
    (h : ∀ a s', next' a s' = act (next a) s') :
    (checked >>= next') s = act (action >>= next) s := by
  rw [← act_bind fun a s' _ => h a s']
  show EStateM.bind checked next' s = EStateM.bind (act action) next' s
  simp only [EStateM.bind, first]

theorem act_ne_astray (action : Session.Action α) (x : Symbol) (s s' : Session) :
    act action s ≠ .error (.astray x) s' := by
  rw [act]
  cases action s with
  | ok => rintro ⟨⟩
  | error => rintro ⟨⟩

theorem look_bind {read : Reading α} {a : α} (h : read = .ok a) (next : α → Action β) :
    (look read >>= next) s = next a s := by
  subst h
  rfl

/-- A record that stops at a handle leaves the session as it was. -/
def validate (w : World) (r : SealedRecord) : Action Bool := do
  act (gate (.validate r.kind) [.loading])
  match r with
  | .type id rule =>
    let found ← look (typeOf w (← act (rule.mapM boundType boundProcedure))).run
    act (bindSymbol id (found.map .type))
  | .procedure id rule =>
    let found ← look (procedureOf w (← act (rule.mapM boundType boundProcedure))).run
    act (bindSymbol id (found.map .procedure))
  | .check c => look (holds w (← act (c.mapM boundType boundProcedure)))

def replay (w : World) : (index : Nat) → List SealedRecord → Action Unit
  | _, [] => act (modify fun s => { s with phase := .validated })
  | index, r :: rest => fun s =>
    match validate w r s with
    | .ok true s => replay w (index + 1) rest s
    | .ok false s => .error (.failed (.refused (.rejected index r.kind))) s.reject
    | .error (.failed (.refused e)) s => .error (.failed (.refused e)) s.reject
    | .error halt s => .error halt s

def validateRecords (w : World) (records : List SealedRecord) : Action Unit := do
  act (gate .validateRecords [.loading])
  replay w 0 records

end Checked

theorem World.WellFormed.closed {w : World} (h : w.WellFormed) : w.model.Closed w.Has where
  rootType := h.rootType
  metaType := h.metaType
  componentType _ _ _ hc := h.has_component hc
  arrayType t _ _ ha := (h.covers t).array _ ha
  ownerOf p _ := h.owner p

/-- A report about what the world has is recorded of what the world has. -/
theorem World.WellFormed.has_defined {w : World} (h : w.WellFormed) {d : Discovery}
    (existing : ∀ x ∈ d.symbols, w.Has x) {r : LiveRecord} (asked : d.record? w.model = some r)
    {x : Symbol} (defined : r.defined = some x) : w.Has x := by
  cases d with
  | named ty naming =>
    cases ty with
    | none => cases asked
    | some ty =>
      cases asked
      cases defined
      exact h.closed.baseComponent (existing (.type ty) List.mem_cons_self)
  | type ty rule unnamed =>
    cases ty with
    | none => cases asked
    | some ty =>
      cases asked
      cases defined
      exact existing _ List.mem_cons_self
  | signed p owner beholder =>
    cases p with
    | none => cases asked
    | some p =>
      cases asked
      cases defined
      exact existing _ List.mem_cons_self
  | procedure p rule unsigned =>
    cases p with
    | none => cases asked
    | some p =>
      cases asked
      cases defined
      exact existing _ List.mem_cons_self
  | check c unchained =>
    cases asked
    cases defined

namespace Session

variable {w : World} {s s' : Session} {σ : Assignment} {r : SealedRecord}

/-- What a record finds is something the world has. -/
theorem has_of_find {id : SymbolId} {x : Symbol} (h : w.WellFormed)
    (hfind : w.model.find σ r = some (.derives id (some x))) : w.Has x := by
  rcases Model.derives_of_find hfind with
    ⟨-, rule', t, -, -, ht, rfl⟩ | ⟨-, rule', p, -, -, hp, rfl⟩
  · exact h.has_typeOf ht
  · exact h.has_procedureOf hp

mutual

theorem symbols_of_issued {model : Model} {op op' : Operation} {s t : Session} {x : Symbol}
    (h : (op', t) ∈ issued model op s) (hx : x ∈ op'.symbols) : x ∈ op.symbols := by
  cases op with
  | guarded body =>
    rcases mem_issued_guarded.mp h with ⟨rfl, -⟩ | ⟨-, hbody⟩
    · exact hx
    · exact symbols_of_issuedAll hbody hx
  | _ =>
    obtain ⟨rfl, -⟩ := (mem_issued_of_plain (by rintro _ ⟨⟩)).mp h
    exact hx

theorem symbols_of_issuedAll {model : Model} {op : Operation} {ops : List Operation}
    {s t : Session} {x : Symbol} (h : (op, t) ∈ issuedAll model ops s) (hx : x ∈ op.symbols) :
    x ∈ Operation.symbolsAll ops := by
  cases ops with
  | nil => cases h
  | cons first rest =>
    rw [Operation.symbolsAll]
    rcases mem_issuedAll_cons.mp h with hfirst | hrest
    · exact List.mem_append_left _ (symbols_of_issued hfirst hx)
    · exact List.mem_append_right _ (symbols_of_issuedAll hrest hx)

end

/-- The session knows only what the world has. -/
def Anchored (w : World) (s : Session) : Prop :=
  ∀ id x, s.numbering.symbolOf? id = some x → w.Has x

namespace Anchored

theorem start (h : w.WellFormed) (config : Config) (phase : Phase) :
    Anchored w (start w.model config phase) := by
  intro id x hx
  rw [(lists_start w.model config phase).symbolOf?_eq] at hx
  have hseed := (mem_foldl_learn.mp (List.mem_of_getElem? hx)).resolve_left List.not_mem_nil
  rw [List.append_nil] at hseed
  rcases List.mem_pair.mp hseed with rfl | rfl
  · exact h.rootType
  · exact h.metaType

theorem has_replaced (h : Anchored w s) {operands : List Symbol}
    (replaced :
      (∀ t, .type t ∈ operands → ∃ id, Assignment.type s.numbering.symbolOf? id = some t) ∧
        ∀ p, .procedure p ∈ operands →
          ∃ id, Assignment.procedure s.numbering.symbolOf? id = some p) :
    ∀ x ∈ operands, w.Has x := by
  intro x hx
  cases x with
  | type t =>
    obtain ⟨id, hid⟩ := replaced.1 t hx
    exact h id _ (Assignment.type_eq_some.mp hid)
  | procedure p =>
    obtain ⟨id, hid⟩ := replaced.2 p hx
    exact h id _ (Assignment.procedure_eq_some.mp hid)

/-- As every operand is there, testing it makes no difference. -/
theorem validate_eq (world : w.Sound) (h : Anchored w s) (r : SealedRecord) :
    Checked.validate w r s = Checked.act (validate w.model r) s := by
  refine Checked.act_bind fun _ s₁ hgate => ?_
  cases of_gate hgate
  cases r with
  | type id rule =>
    refine Checked.act_bind fun rule' s₁ hrule => ?_
    obtain ⟨hrule', rfl⟩ :=
      (Looks.typeRule (looks_boundType · s) (looks_boundProcedure · s) rule).of_ok hrule
    have has := h.has_replaced (TypeRule.replaced_of_mapM hrule')
    exact Checked.look_bind (Checked.typeOf_eq_answer world has) _
  | procedure id rule =>
    refine Checked.act_bind fun rule' s₁ hrule => ?_
    obtain ⟨hrule', rfl⟩ :=
      (Looks.procRule (looks_boundType · s) (looks_boundProcedure · s) rule).of_ok hrule
    have has := h.has_replaced (ProcRule.replaced_of_mapM hrule')
    exact Checked.look_bind (Checked.procedureOf_eq_answer world has) _
  | check c =>
    refine Checked.act_bind fun c' s₁ hc => ?_
    obtain ⟨hc', rfl⟩ :=
      (Looks.check (looks_boundType · s) (looks_boundProcedure · s) c).of_ok hc
    have has := h.has_replaced (Check.replaced_of_mapM hc')
    show Checked.look (Checked.holds w c') _ = _
    rw [Checked.holds_eq_ok world has]
    rfl

theorem assign (h : Anchored w s) {id : SymbolId} {x : Symbol} (has : w.Has x) :
    Anchored w { s with numbering := s.numbering.assign x id } := by
  intro other y hy
  change (s.numbering.assign x id).symbolOf? other = some y at hy
  rw [Numbering.symbolOf?_assign] at hy
  split at hy
  · cases hy
    exact has
  · exact h other y hy

theorem bindSymbol (h : Anchored w s) {id : SymbolId} {x : Option Symbol}
    (has : ∀ y, x = some y → w.Has y) : Anchored w (leaves (bindSymbol id x) s) := by
  cases x with
  | none => exact h
  | some x =>
    show Anchored w { s with numbering := (s.numbering.bind id x).2 }
    by_cases hconflict : (s.numbering.bind id x).1 = .conflict
    · rw [Numbering.bind_of_conflict hconflict]
      exact h
    · rcases Numbering.bind_cases hconflict with ⟨-, hsame⟩ | ⟨-, -, hnew⟩
      · rw [hsame]
        exact h
      · rw [hnew]
        exact h.assign (has x rfl)

theorem validate (world : w.WellFormed) (h : Anchored w s) (r : SealedRecord) :
    Anchored w (leaves (validate w.model r) s) := by
  refine leaves_validate h ?_
  intro _ id x hfind
  refine h.bindSymbol fun y hy => ?_
  subst hy
  exact has_of_find world hfind

theorem reject (w : World) (s : Session) : Anchored w s.reject := by
  intro id x hx
  cases (Numbering.symbolOf?_clear s.numbering id).symm.trans hx

theorem replay (world : w.WellFormed) (h : Anchored w s) (index : Nat)
    (records : List SealedRecord) : Anchored w (leaves (replay w.model index records) s) :=
  leaves_replay (I := Anchored w) (fun r _ h => h.validate world r) (fun _ h => h)
    (fun _ _ => reject w _) (fun _ h => h) h

theorem validateRecords (world : w.WellFormed) (h : Anchored w s) (records : List SealedRecord) :
    Anchored w (leaves (validateRecords w.model records) s) :=
  leaves_gate (R := fun _ s' => Anchored w s') h fun _ => h.replay world 0 records

theorem seed (h : Anchored w s) {x : Symbol} (has : w.Has x) : Anchored w (leaves (seed x) s) := by
  rcases leaves_seed_cases x s with heq | ⟨id, -, heq⟩
  · rwa [heq]
  · rw [heq]
    exact h.assign has

theorem derived (h : Anchored w s) {r : LiveRecord} {id : SymbolId} {x : Symbol} (has : w.Has x) :
    Anchored w (s.derived r x id) := h.assign has

theorem chained (h : Anchored w s) (ty : TypeRef) : Anchored w (chained w.model ty s) := by
  rwa [Anchored, numbering_chained]

/-- What a report makes known by itself, owners and arrays, the world has with what they belong
to. -/
theorem entries (world : w.WellFormed)
    (entries : Entries w.model (fun r => ∀ x, r.defined = some x → w.Has x) s s')
    (h : Anchored w s) : Anchored w s' := by
  induction entries with
  | refl => exact h
  | step _ entry ih =>
    cases entry with
    | again => exact ih
    | type ok => exact (ih.derived (ok _ rfl)).chained _
    | procedure ok => exact ih.derived (ok _ rfl)
    | owned ok => exact ((ih.derived (ok _ rfl)).derived (world.owner _)).chained _

theorem add (world : w.WellFormed) (h : Anchored w s) {d : Discovery}
    (existing : ∀ x ∈ d.symbols, w.Has x) : Anchored w (leaves (add w.model d) s) := by
  refine h.entries world (add_entries ?_ d ?_ s)
  · rintro component array harray x ⟨⟩
    exact (world.covers component).array array harray
  · exact fun r asked x defined => world.has_defined existing asked defined

theorem perform (world : w.WellFormed) (h : Anchored w s) {op : Operation}
    (plain : ∀ body, op ≠ .guarded body) (brought : ∀ x ∈ op.brought, w.Has x)
    (reported : s.phase = .building → ∀ d, op = .add d → ∀ x ∈ d.symbols, w.Has x) :
    Anchored w (perform w.model op s).2 := by
  cases op with
  | guarded body => exact absurd rfl (plain body)
  | add d =>
    rw [Session.perform, settle_snd]
    by_cases building : s.phase = .building
    · exact h.add world (reported building d rfl)
    · rwa [Session.add, leaves_of_error (bind_of_error (gate_of_not_mem (by simpa using building)))]
  | seed x =>
    rw [Session.perform, settle_snd]
    exact h.seed (brought x List.mem_cons_self)
  | enterRegion =>
    rw [Session.perform, settle_snd]
    exact leaves_gate (R := fun _ s' => Anchored w s') h fun _ => h
  | exitRegion =>
    rw [Session.perform, settle_snd, exitRegion, leaves_get_bind]
    cases s.region.exit? <;> exact h
  | sealRecords =>
    rw [Session.perform, settle_snd]
    rcases sealRecords_cases s with ⟨records, -, -, hok⟩ | ⟨e, he⟩
    · rw [leaves_of_ok hok]
      exact h
    · rwa [leaves_of_error he]
  | validateSymbol id x =>
    rw [Session.perform, settle_snd]
    refine leaves_gate (R := fun _ s' => Anchored w s') h fun _ => h.bindSymbol fun y hy => ?_
    subst hy
    exact brought y List.mem_cons_self
  | validate r =>
    rw [Session.perform, settle_snd]
    exact h.validate world r
  | validateRecords records =>
    rw [Session.perform, settle_snd]
    exact h.validateRecords world records
  | _ => rwa [perform_question w.model rfl s]

/-- A session that loads turns down all that is meant for sessions that record, whatever it is
given with it. -/
theorem performAll_of_loading (world : w.WellFormed)
    (loads : s.phase ∈ [Phase.loading, .validated, .rejected] ∧ s.ledger = .empty)
    (h : Anchored w s) (ops : List Operation) (brought : ∀ op ∈ ops, ∀ x ∈ op.brought, w.Has x) :
    Anchored w (performAll w.model ops s).2 := by
  induction ops generalizing s with
  | nil => exact h
  | cons op rest ih =>
    have shut : s.phase ≠ .building := by
      intro building
      simp [building] at loads
    have first : Anchored w (Session.perform w.model op s).2 := by
      by_cases guarded : ∃ body, op = .guarded body
      · obtain ⟨body, rfl⟩ := guarded
        rwa [perform_guarded, if_neg shut]
      · exact h.perform world (fun body hbody => guarded ⟨body, hbody⟩)
          (brought op List.mem_cons_self) fun building => absurd building shut
    rw [performAll_cons]
    exact ih ((Reaches.perform w.model op s).loads loads) first
      fun op' hop => brought op' (List.mem_cons_of_mem op hop)

theorem loaded (world : w.WellFormed) (config : Config) {ops : List Operation}
    (brought : ∀ op ∈ ops, ∀ x ∈ op.brought, w.Has x) :
    Anchored w (performAll w.model ops (forLoad w.model config)).2 :=
  (start world config .loading).performAll_of_loading world ⟨by simp [Session.start], rfl⟩ ops brought

theorem history (world : w.WellFormed) :
    History w.model fun past s =>
      (∀ entry ∈ past, ∀ x ∈ entry.1.symbols, w.Has x) → Anchored w s where
  plain plain start existing := by
    obtain ⟨earlier, last⟩ := List.forall_mem_append.mp existing
    have last := last _ List.mem_cons_self
    refine (start earlier).perform world plain
      (fun x hx => last x (Operation.symbols_of_brought hx)) ?_
    rintro - d rfl
    exact last
  opened start existing := start (List.forall_mem_append.mp existing).1
  region start _ existing := start existing

/-- Wherever operations lead that are handed what the world has, no session knows anything
else. -/
theorem issued (world : w.WellFormed) (h : Anchored w s) {ops : List Operation} {op : Operation}
    {t : Session} (existing : ∀ x ∈ Operation.symbolsAll ops, w.Has x)
    (issued : (op, t) ∈ issuedAll w.model ops s) : Anchored w t := by
  obtain ⟨before, later, trace⟩ := List.append_of_mem issued
  refine (history world).found (fun _ => h) trace ?_
  rintro ⟨op', u⟩ mem x hx
  have hu : (op', u) ∈ issuedAll w.model ops s := by
    rw [trace]
    exact List.mem_append_left _ mem
  exact existing x (symbols_of_issuedAll hu hx)

theorem replay_eq (world : w.Sound) (h : Anchored w s) (index : Nat)
    (records : List SealedRecord) :
    Checked.replay w index records s = Checked.act (Session.replay w.model index records) s := by
  induction records generalizing index s with
  | nil => rfl
  | cons r rest ih =>
    have hleaves : Anchored w (leaves (Session.validate w.model r) s) :=
      h.validate world.toWellFormed r
    have hchecked := h.validate_eq world r
    cases hv : Session.validate w.model r s with
    | ok holds s' =>
      rw [leaves_of_ok hv] at hleaves
      rw [Checked.act_of_ok hv] at hchecked
      cases holds with
      | true =>
        simp only [Checked.replay, hchecked, Checked.act, replay_of_true hv]
        exact ih hleaves (index + 1)
      | false => simp only [Checked.replay, hchecked, Checked.act, replay_of_false hv]
    | error e s' =>
      rw [Checked.act_of_error hv] at hchecked
      cases e with
      | refused e => simp only [Checked.replay, hchecked, Checked.act, replay_of_refused hv]
      | fatal e => simp only [Checked.replay, hchecked, Checked.act, replay_of_fatal hv]

theorem validateRecords_eq (world : w.Sound) (h : Anchored w s) (records : List SealedRecord) :
    Checked.validateRecords w records s =
      Checked.act (Session.validateRecords w.model records) s := by
  refine Checked.act_bind fun _ s' hgate => ?_
  cases of_gate hgate
  exact h.replay_eq world 0 records

end Anchored

end Session

end Provenance
