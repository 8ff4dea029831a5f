import Provenance.Proofs.Ambiguity
import Provenance.Proofs.Correspondence

/-!
What a report is refused for. All that a report relies on is looked up before its first record is
made, and every further record relies only on what the ones before it have made known. So a report
that has begun to record fails for want of an ID or not at all, and one that is refused for any
other reason has done nothing.
-/
namespace Provenance

/-- What went wrong, be it fatal or not. -/
def Failure.error : Failure → SessionError
  | refused e => e
  | fatal e => e

namespace Session

variable {α β : Type} {model : Model} {config : Config} {s s' s₀ t : Session} {d : Discovery}

/-- How an error surfaces in a session. -/
def failing (s : Session) (e : SessionError) : Failure :=
  if s.config.assertionsAreFatal && e.isLogic then .fatal e else .refused e

@[simp] theorem error_failing (s : Session) (e : SessionError) : (s.failing e).error = e := by
  unfold failing
  split <;> rfl

theorem failing_of_not_logic {e : SessionError} (h : e.isLogic = false) (s : Session) :
    s.failing e = .refused e := by
  simp [failing, h]

/-- How an action ends that is done, or else fails for want of an ID. -/
inductive Proceeds (done short : Session → Prop) : EStateM.Result Failure Session α → Prop where
  | does {a : α} {s' : Session} (so : done s') : Proceeds done short (.ok a s')
  | lacks {s' : Session} (so : short s') :
      Proceeds done short (.error (.refused (.limit .symbolIds)) s')

theorem Proceeds.bind {action : Action α} {next : α → Action β}
    {done done' short short' : Session → Prop} (h : Proceeds done short (action s))
    (hnext : ∀ a s', done s' → Proceeds done' short' (next a s'))
    (hshort : ∀ s', short s' → short' s') : Proceeds done' short' ((action >>= next) s) := by
  cases ha : action s with
  | ok a s' =>
    rw [ha] at h
    cases h with
    | does so =>
      rw [bind_of_ok ha]
      exact hnext a s' so
  | error e s' =>
    rw [ha] at h
    cases h with
    | lacks so =>
      rw [bind_of_error ha]
      exact .lacks (hshort s' so)

theorem Proceeds.mono {result : EStateM.Result Failure Session α}
    {done done' short short' : Session → Prop} (h : Proceeds done short result)
    (hdone : ∀ s', done s' → done' s') (hshort : ∀ s', short s' → short' s') :
    Proceeds done' short' result := by
  cases h with
  | does so => exact .does (hdone _ so)
  | lacks so => exact .lacks (hshort _ so)

/-- A session that takes reports: it records, and no region is open. -/
structure Recording (model : Model) (s : Session) : Prop where
  recorded : ∃ seeds, Recorded model (fun _ => True) seeds s
  building : s.phase = .building
  closed : s.region.isOpen = false

namespace Recording

variable {r : LiveRecord} {x : Symbol} {ty : TypeRef} {rule : TypeRule TypeRef ProcRef}

theorem entries (h : Recording model s) (entries : Entries model (fun _ => True) s s') :
    Recording model s' := by
  obtain ⟨seeds, recorded⟩ := h.recorded
  exact ⟨⟨_, recorded.moves (entries.moves fun _ _ => trivial)⟩,
    entries.phase_eq.trans h.building, by rw [entries.region_eq, h.closed]⟩

theorem derived (h : Recording model s) {id : SymbolId} (defined : r.defined = some x)
    (premises : ∀ y ∈ r.premises, (s.numbering.id? y).isSome) (new : s.numbering.id? x = none)
    (next : s.numbering.next = some id) : Recording model (s.derived r x id) := by
  obtain ⟨seeds, recorded⟩ := h.recorded
  have move : Move (fun _ => True) [] s (s.derived r x id) :=
    .derive trivial h.building h.closed (recorded.fresh defined new) premises defined new next
  exact ⟨⟨_, recorded.move move⟩, h.building, h.closed⟩

/-- The first record of a symbol is not there before the symbol is known, so it is made as long
as there is an ID. -/
theorem append (h : Recording model s) (defined : r.defined = some x)
    (new : s.numbering.id? x = none) :
    (∃ id, s.numbering.next = some id ∧ append r s = .ok () (s.derived r x id)) ∨
      s.numbering.next = none ∧ append r s = .error (.refused (.limit .symbolIds)) s := by
  obtain ⟨seeds, recorded⟩ := h.recorded
  have heq := append_eq r s
  rw [recorded.fresh defined new, if_neg Bool.false_ne_true, defined] at heq
  simp only [new, Option.isSome_none, Bool.false_eq_true, if_false] at heq
  cases hn : s.numbering.next with
  | none =>
    rw [hn] at heq
    exact .inr ⟨rfl, heq.trans (refuse_limit _ s)⟩
  | some id =>
    rw [hn] at heq
    exact .inl ⟨id, rfl, heq⟩

/-- A type that is not known is not recorded when there is no ID left. -/
theorem addType_of_no_next (h : Recording model s)
    (premises : ∀ y ∈ (Record.type ty rule).premises, (s.numbering.id? y).isSome)
    (new : s.numbering.id? (.type ty) = none) (empty : s.numbering.next = none) :
    addType model ty rule s = .error (.refused (.limit .symbolIds)) s := by
  rw [addType, bind_of_ok (requirePremises_of_known h.closed premises), get_bind,
    isValidated_of_closed h.closed, new, if_neg (by simp)]
  rcases h.append (r := .type ty rule) rfl new with ⟨id, next, -⟩ | ⟨-, fails⟩
  · cases empty.symm.trans next
  · exact bind_of_error fails

theorem addType (h : Recording model s)
    (premises : ∀ y ∈ (Record.type ty rule).premises, (s.numbering.id? y).isSome) :
    Proceeds (fun s' => Recording model s' ∧ (s'.numbering.id? (.type ty)).isSome)
      (fun s' => s'.numbering.next = none ∧ s'.numbering.id? (.type ty) = none)
      (addType model ty rule s) := by
  have entries : Entries model (fun _ => True) s (leaves (Session.addType model ty rule) s) :=
    addType_entries trivial h.building h.closed
  cases hid : s.numbering.id? (.type ty) with
  | some id =>
    have again : Session.addType model ty rule s = .ok () _ :=
      addType_of_known h.closed premises (by rw [hid]; rfl)
    rw [leaves_of_ok again] at entries
    rw [again]
    exact .does ⟨h.entries entries, by rw [hid]; rfl⟩
  | none =>
    cases hn : s.numbering.next with
    | some id =>
      obtain ⟨seeds, recorded⟩ := h.recorded
      have first : Session.addType model ty rule s = .ok () _ :=
        addType_of_fresh h.closed premises hid (recorded.fresh rfl hid) hn
      rw [leaves_of_ok first] at entries
      rw [first]
      refine .does ⟨h.entries entries, ?_⟩
      rw [numbering_chained, id?_derived_self]
      rfl
    | none =>
      rw [h.addType_of_no_next premises hid hn]
      exact .lacks ⟨hn, hid⟩

/-- The first record of a procedure is followed by one of its owner, unless that is known. -/
theorem addProcedure_of_next (h : Recording model s) {p : ProcRef}
    {rule : ProcRule TypeRef ProcRef} {id : SymbolId}
    (premises : ∀ y ∈ (Record.procedure p rule).premises, (s.numbering.id? y).isSome)
    (new : s.numbering.id? (.procedure p) = none) (next : s.numbering.next = some id) :
    let first := s.derived (.procedure p rule) (.procedure p) id
    Session.addProcedure model p rule s =
      if (first.numbering.id? (.type (model.ownerOf p))).isSome then .ok () first
      else Session.addType model (model.ownerOf p) (.ownerOf p) first := by
  intro first
  rw [Session.addProcedure, bind_of_ok (requirePremises_of_known h.closed premises), get_bind,
    isValidated_of_closed h.closed, new, if_neg (by simp)]
  rcases h.append (r := .procedure p rule) rfl new with ⟨id', next', ok⟩ | ⟨empty, -⟩
  · cases next.symm.trans next'
    have owner : first.isValidated (.type (model.ownerOf p)) =
        (first.numbering.id? (.type (model.ownerOf p))).isSome :=
      isValidated_of_closed (s := first) h.closed _
    rw [bind_of_ok ok, get_bind, owner]
    split <;> rfl
  · cases empty.symm.trans next

/-- A procedure that was not known is recorded with its owner, if there are IDs for both. -/
theorem addProcedure (h : Recording model s) {p : ProcRef} {rule : ProcRule TypeRef ProcRef}
    (premises : ∀ y ∈ (Record.procedure p rule).premises, (s.numbering.id? y).isSome) :
    Proceeds
      (fun s' => s.numbering.id? (.procedure p) = none →
        (s'.numbering.id? (.type (model.ownerOf p))).isSome)
      (fun s' => s'.numbering.next = none ∧ (s'.numbering.id? (.procedure p) = none ∨
        s'.numbering.id? (.type (model.ownerOf p)) = none))
      (addProcedure model p rule s) := by
  cases hid : s.numbering.id? (.procedure p) with
  | some id =>
    rw [Session.addProcedure, bind_of_ok (requirePremises_of_known h.closed premises), get_bind,
      isValidated_of_closed h.closed, hid, if_pos (by rfl),
      appendIfNew_of_known (by rintro x ⟨⟩; rw [hid]; rfl)]
    exact .does (by rintro ⟨⟩)
  | none =>
    cases hn : s.numbering.next with
    | some id =>
      have first := h.derived (r := .procedure p rule) rfl premises hid hn
      rw [h.addProcedure_of_next premises hid hn]
      split
      · exact .does fun _ => ‹_›
      · exact (first.addType (premises_ownerOf (model.ownerOf p) p rule s id)).mono
          (fun _ so _ => so.2) fun _ so => ⟨so.1, .inr so.2⟩
    | none =>
      rcases h.append (r := .procedure p rule) rfl hid with ⟨id, next, -⟩ | ⟨-, fails⟩
      · cases hn.symm.trans next
      · rw [Session.addProcedure, bind_of_ok (requirePremises_of_known h.closed premises),
          get_bind, isValidated_of_closed h.closed, hid, if_neg (by simp), bind_of_error fails]
        exact .lacks ⟨hn, .inl hid⟩

/-- On top of a component that is known each array is the component of the next one. -/
theorem addArrays (h : Recording model s) {component top : TypeRef} {dims : Nat}
    (known : (s.numbering.id? (.type component)).isSome)
    (arrays : model.arrayOn dims component = some top) :
    Proceeds (fun _ => True) (fun _ => True) (addArrays model ty dims component s) := by
  induction dims generalizing component s with
  | zero => exact .does trivial
  | succ dims ih =>
    obtain ⟨array, harray, arrays⟩ := Option.bind_eq_some_iff.mp arrays
    rw [Session.addArrays, harray]
    refine (h.addType fun x hx => ?_).bind (fun _ s' so => ih so.1 so.2 arrays) fun _ _ => trivial
    rw [Record.premises_type, TypeRule.operands, List.mem_singleton] at hx
    rw [hx]
    exact known

end Recording

/-- What a report may be refused for before it records anything. -/
inductive Objection (model : Model) (d : Discovery) (s : Session) : SessionError → Prop where
  | phase (wrong : s.phase ≠ .building) :
      Objection model d s (.wrongPhase (.add d.kind) s.phase)
  | depth {ty : TypeRef} {naming : Naming} (named : d = .named (some ty) naming)
      (deep : s.config.maxArrayDimensions.toNat < (model.baseComponent ty).2) :
      Objection model d s (.limit (.arrayDimensions ty (model.baseComponent ty).2
        s.config.maxArrayDimensions.toNat))
  | premise {r : LiveRecord} {x : Symbol} (building : s.phase = .building)
      (asked : d.record? model = some r) (mem : x ∈ r.premises)
      (unknown : s.numbering.id? x = none) :
      Objection model d s (.invariant (.unknownPremise x r.kind))

/-- How a report ends: it goes on until an ID is missing, or it meets an objection and does
nothing. -/
def Ends (model : Model) (d : Discovery) (s : Session) (done short : Session → Prop)
    (result : EStateM.Result Failure Session α) : Prop :=
  Proceeds done short result ∨ ∃ e, Objection model d s e ∧ result = .error (s.failing e) s

section

variable {done done' short short' : Session → Prop}

theorem Ends.mono {result : EStateM.Result Failure Session α}
    (h : Ends model d s done short result) (hdone : ∀ s', done s' → done' s')
    (hshort : ∀ s', short s' → short' s') : Ends model d s done' short' result :=
  h.imp_left fun proceeds => proceeds.mono hdone hshort

/-- How a report ends, whatever it leaves behind. -/
theorem Ends.anyhow {result : EStateM.Result Failure Session α}
    (h : Ends model d s done short result) :
    Ends model d s (fun _ => True) (fun _ => True) result :=
  h.mono (fun _ _ => trivial) fun _ _ => trivial

theorem Ends.told {action : Action Unit} (h : Ends model d s done short (action s)) :
    Ends model d s done short ((action >>= fun _ => pure true) s) := by
  rcases h with proceeds | ⟨e, objection, fails⟩
  · exact .inl (proceeds.bind (fun _ _ so => .does so) fun _ so => so)
  · exact .inr ⟨e, objection, bind_of_error fails⟩

namespace Recording

/-- Whatever begins by requiring the premises of the record asked for blames the first of them
that is unknown. -/
theorem ends_of_premises (h : Recording model s) {r : LiveRecord}
    {result : EStateM.Result Failure Session α} (asked : d.record? model = some r)
    (blames : ∀ v, requirePremises r s = violate v s → result = violate v s)
    (known : (∀ x ∈ r.premises, (s.numbering.id? x).isSome) → Ends model d s done short result) :
    Ends model d s done short result := by
  have heq := requirePremises_eq r s
  cases hfind : r.premises.find? (fun x => !s.isValidated x) with
  | some x =>
    rw [hfind] at heq
    have unknown := List.find?_some hfind
    rw [isValidated_of_closed h.closed, Bool.not_eq_true', Option.isSome_eq_false_iff,
      Option.isNone_iff_eq_none] at unknown
    exact .inr ⟨_, .premise h.building asked (List.mem_of_find?_eq_some hfind) unknown,
      blames _ heq⟩
  | none =>
    refine known fun x hx => ?_
    have hv := List.find?_eq_none.mp hfind x hx
    rwa [isValidated_of_closed h.closed, Bool.not_eq_true, Bool.not_eq_false'] at hv

theorem ends_addNamed (h : Recording model s) (linked : model.Linked) (ty : TypeRef)
    (naming : Naming) :
    Ends model (.named (some ty) naming) s (fun _ => True) (fun _ => True)
      (addNamed model ty naming s) := by
  have arrays := linked.arrayOn_baseComponent ty
  have depth : s.config.maxArrayDimensions.toNat < (model.baseComponent ty).2 →
      Objection model (.named (some ty) naming) s (.limit (.arrayDimensions ty
        (model.baseComponent ty).2 s.config.maxArrayDimensions.toNat)) := .depth rfl
  have asked : Discovery.record? model (.named (some ty) naming) = some _ := rfl
  rw [addNamed]
  generalize model.baseComponent ty = nested at arrays depth asked ⊢
  obtain ⟨component, dims⟩ := nested
  simp only [get_bind]
  by_cases deep : s.config.maxArrayDimensions.toNat < dims
  · rw [if_pos deep]
    exact .inr ⟨_, depth deep, rfl⟩
  · rw [if_neg deep]
    refine h.ends_of_premises asked (fun _ he => bind_of_error (bind_of_error he)) fun known => ?_
    exact .inl ((h.addType known).bind (fun _ s' so => so.1.addArrays so.2 arrays)
      fun _ _ => trivial)

theorem ends_addProcedure (h : Recording model s) {p : ProcRef}
    {rule : ProcRule TypeRef ProcRef} (asked : d.record? model = some (.procedure p rule)) :
    Ends model d s
      (fun s' => s.numbering.id? (.procedure p) = none →
        (s'.numbering.id? (.type (model.ownerOf p))).isSome)
      (fun s' => s'.numbering.next = none ∧ (s'.numbering.id? (.procedure p) = none ∨
        s'.numbering.id? (.type (model.ownerOf p)) = none))
      (Session.addProcedure model p rule s) :=
  h.ends_of_premises asked (fun _ he => bind_of_error he) fun known => .inl (h.addProcedure known)

/-- Where reports are heard, one of a procedure does no more than to record it. -/
theorem add_of_procedure (h : Recording model s) {p : ProcRef} {rule : ProcRule TypeRef ProcRef}
    (asked : d.record? model = some (.procedure p rule)) :
    add model d s = (Session.addProcedure model p rule >>= fun _ => pure true) s := by
  rw [add, bind_of_ok (gate_of_mem (by simp [h.building])), get_bind, h.closed,
    if_neg Bool.false_ne_true]
  cases d with
  | named ty | type ty => cases ty <;> cases asked
  | check => cases asked
  | signed q | procedure q =>
    cases q with
    | none => cases asked
    | some q =>
      cases asked
      rfl

theorem ends_add_of_procedure (h : Recording model s) {p : ProcRef}
    {rule : ProcRule TypeRef ProcRef} (asked : d.record? model = some (.procedure p rule)) :
    Ends model d s
      (fun s' => s.numbering.id? (.procedure p) = none →
        (s'.numbering.id? (.type (model.ownerOf p))).isSome)
      (fun s' => s'.numbering.next = none ∧ (s'.numbering.id? (.procedure p) = none ∨
        s'.numbering.id? (.type (model.ownerOf p)) = none))
      (add model d s) := by
  rw [h.add_of_procedure asked]
  exact (h.ends_addProcedure asked).told

end Recording

end

/-- A report is refused before it records anything, or it fails for want of an ID only. -/
theorem ends_add (linked : model.Linked) (d : Discovery)
    (recording : s.phase = .building → s.region.isOpen = false → Recording model s) :
    Ends model d s (fun _ => True) (fun _ => True) (add model d s) := by
  by_cases building : s.phase = .building
  · by_cases hr : s.region.isOpen
    · rw [add, bind_of_ok (gate_of_mem (by simp [building])), get_bind, if_pos hr]
      exact .inl (.does trivial)
    · have h := recording building (by simpa using hr)
      rw [add, bind_of_ok (gate_of_mem (by simp [building])), get_bind, if_neg hr]
      have nothing : Ends model d s (fun _ => True) (fun _ => True)
          ((pure false : Action Bool) s) := .inl (.does trivial)
      cases d with
      | named ty naming =>
        cases ty with
        | none => exact nothing
        | some ty => exact (h.ends_addNamed linked ty naming).told
      | type ty rule unnamed =>
        cases ty with
        | none => exact nothing
        | some ty =>
          refine .told (h.ends_of_premises rfl (fun _ he => bind_of_error he) fun known => ?_)
          exact .inl ((h.addType known).mono (fun _ _ => trivial) fun _ _ => trivial)
      | signed p owner beholder =>
        cases p with
        | none => exact nothing
        | some p => exact (h.ends_addProcedure rfl).told.anyhow
      | procedure p rule unsigned =>
        cases p with
        | none => exact nothing
        | some p => exact (h.ends_addProcedure rfl).told.anyhow
      | check c unchained =>
        refine .told (h.ends_of_premises rfl (fun _ he => bind_of_error he) fun known => ?_)
        rw [addCheck, bind_of_ok (requirePremises_of_known h.closed known),
          appendIfNew_of_known (by rintro x ⟨⟩)]
        exact .inl (.does trivial)
  · exact .inr ⟨_, .phase building, bind_of_error (gate_of_not_mem (by simpa using building))⟩

/-- Wherever operations lead from a new session, as long as it is building and no region is open
it takes reports. -/
theorem Reaches.recording (h : Reaches s₀ t)
    (new : s₀ = forCompile model config ∨ s₀ = forLoad model config)
    (building : t.phase = .building) (closed : t.region.isOpen = false) : Recording model t := by
  rcases new with rfl | rfl
  · obtain ⟨given, moves⟩ := h
    exact ⟨⟨_, (Recorded.forCompile model _ config).moves moves⟩, building, closed⟩
  · have loads := (h.loads ⟨by simp [forLoad, start], rfl⟩).1
    simp [building] at loads

/-- What a report answers, and what it leaves behind. -/
theorem Ends.perform {done short : Session → Prop} (h : Ends model d t done short (add model d t)) :
    let (outcome, t') := perform model (.add d) t
    (∃ told, outcome = .flag told ∧ done t') ∨
      (outcome = .failed (.refused (.limit .symbolIds)) ∧ short t') ∨
      t' = t ∧ ∃ e, Objection model d t e ∧ outcome = .failed (t.failing e) := by
  rw [Session.perform, settle]
  cases hadd : add model d t with
  | ok told t' =>
    rw [hadd] at h
    rcases h with proceeds | ⟨e, -, fails⟩
    · cases proceeds with
      | does so => exact .inl ⟨told, rfl, so⟩
    · cases fails
  | error failure t' =>
    rw [hadd] at h
    rcases h with proceeds | ⟨e, objection, fails⟩
    · cases proceeds with
      | lacks so => exact .inr (.inl ⟨rfl, so⟩)
    · cases fails
      exact .inr (.inr ⟨rfl, e, objection, rfl⟩)

/-- A report that fails has run out of IDs, or it has met an objection and nothing is done. -/
theorem Ends.of_failed {failure : Failure} {done short : Session → Prop}
    (h : Ends model d t done short (add model d t))
    (failed : (Session.perform model (.add d) t).1 = .failed failure) :
    failure = .refused (.limit .symbolIds) ∨
      (Session.perform model (.add d) t).2 = t ∧
        ∃ e, Objection model d t e ∧ failure = t.failing e := by
  rcases h.perform with ⟨told, answered, -⟩ | ⟨answered, -⟩ | ⟨unchanged, e, objection, answered⟩
  · cases failed.symm.trans answered
  · cases failed.symm.trans answered
    exact .inl rfl
  · cases failed.symm.trans answered
    exact .inr ⟨unchanged, e, objection, rfl⟩

theorem Recording.seals (h : Recording model t) :
    ∃ records, (perform model .sealRecords t).1 = .sealed records := by
  obtain ⟨seeds, recorded⟩ := h.recorded
  exact ⟨_, by rw [perform, settle, recorded.sealRecords_eq h.building h.closed]⟩

theorem perform_sealRecords_of_not_building (model : Model) (wrong : t.phase ≠ .building) :
    perform model .sealRecords t = (.failed (t.failing (.wrongPhase .seal t.phase)), t) := by
  rw [perform, settle, sealRecords, bind_of_error (gate_of_not_mem (by simpa using wrong))]
  rfl

/-- A report of an array with more dimensions than are allowed comes to nothing. -/
theorem perform_add_too_deep {ty component : TypeRef} {dims : Nat} (naming : Naming)
    (building : s.phase = .building) (closed : s.region.isOpen = false)
    (nested : model.baseComponent ty = (component, dims))
    (deep : s.config.maxArrayDimensions.toNat < dims) :
    perform model (.add (.named (some ty) naming)) s = (.failed (.refused
      (.limit (.arrayDimensions ty dims s.config.maxArrayDimensions.toNat))), s) := by
  let failure := Failure.refused
    (.limit (.arrayDimensions ty dims s.config.maxArrayDimensions.toNat))
  have named : addNamed model ty naming s = .error failure s := by
    rw [addNamed, nested]
    simp only [get_bind, if_pos deep]
    exact bind_of_error (refuse_limit _ s)
  have fails : add model (.named (some ty) naming) s = .error failure s := by
    rw [add, bind_of_ok (gate_of_mem (by simp [building])), get_bind, closed,
      if_neg Bool.false_ne_true]
    exact bind_of_error named
  rw [perform, settle, fails]

section Universe

variable {w : World} {ops : List Operation}

/-- Whatever came before, a report that is refused for any reason but the want of an ID leaves the
session exactly as it was, be the error fatal or not. It comes at the wrong time, or it is about an
array with too many dimensions, or a premise of the record it asks for is unknown. -/
theorem refused_report_leaves_no_trace {failure : Failure} (built : w.Built)
    (new : s₀ = forCompile w.model config ∨ s₀ = forLoad w.model config)
    (issued : (.add d, t) ∈ issuedAll w.model ops s₀)
    (failed : (perform w.model (.add d) t).1 = .failed failure)
    (other : failure ≠ .refused (.limit .symbolIds)) :
    (perform w.model (.add d) t).2 = t ∧ Objection w.model d t failure.error := by
  have ends := ends_add built.model_linked d ((Reaches.issuedAll issued).recording new)
  obtain ⟨same, e, objection, rfl⟩ := (ends.of_failed failed).resolve_left other
  rw [error_failing]
  exact ⟨same, objection⟩

theorem refused_report_leaves_no_trace_of_deep_array :
    let w := World.shadowed
    let s₀ := forCompile w.model (Config.default.withMaxArrayDimensions 0)
    let d := Discovery.named (some ⟨3⟩) .system
    let failure := Failure.refused (.limit (.arrayDimensions ⟨3⟩ 1 0))
    w.Built ∧ (.add d, s₀) ∈ issuedAll w.model [.add d] s₀ ∧
      (perform w.model (.add d) s₀).1 = .failed failure ∧
      failure ≠ .refused (.limit .symbolIds) ∧
      (perform w.model (.add d) s₀).2 = s₀ ∧ Objection w.model d s₀ failure.error := by
  intro w s₀ d failure
  have issued : (.add d, s₀) ∈ issuedAll w.model [.add d] s₀ := List.mem_cons_self
  have failed : (perform w.model (.add d) s₀).1 = .failed failure :=
    congrArg Prod.fst (perform_add_too_deep .system rfl rfl World.baseComponent_shadowed_array
      (by decide))
  have other : failure ≠ .refused (.limit .symbolIds) := by decide
  exact ⟨World.built_shadowed, issued, failed, other,
    refused_report_leaves_no_trace World.built_shadowed (.inl rfl) issued failed other⟩

end Universe

end Session

end Provenance
