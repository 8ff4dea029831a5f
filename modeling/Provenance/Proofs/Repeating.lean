import Provenance.Proofs.Recording
import Provenance.Proofs.Regions

/-!
Reporting something again. A report that succeeds leaves its records behind, with all that they
speak of known, and as long as a session records nothing takes that away. Where it stands
already the same report finds all it would do done, so it may be repeated at any time later
and changes nothing.
-/
namespace Provenance

/-- The records of the arrays of `dims` dimensions on top of a component, if none is lost. -/
def arrayRecords? (model : Model) : (dims : Nat) → (component : TypeRef) → Option (List LiveRecord)
  | 0, _ => some []
  | dims + 1, component =>
    match model.arrayType component with
    | none => none
    | some array => (arrayRecords? model dims array).map (.type array (.arrayOf component) :: ·)

/-- The records that a report asks for, unless it has no answer, or arrays that are too deep or
of which one is lost. -/
def Discovery.records? (model : Model) (config : Config) : Discovery → Option (List LiveRecord)
  | .named (some ty) naming =>
    let (component, dims) := model.baseComponent ty
    if config.maxArrayDimensions.toNat < dims then none
    else
      (arrayRecords? model dims component).map
        (.type component (naming.rule model component) :: ·)
  | d => (d.record? model).map fun r => [r]

namespace Operation

mutual

/-- The reports that were answered yes. -/
def succeeded : Operation → Outcome → List Discovery
  | .add d, .flag true => [d]
  | .guarded body, .guarded inside _ => succeededAll body inside
  | _, _ => []

def succeededAll : List Operation → List Outcome → List Discovery
  | operation :: rest, outcome :: outcomes =>
    succeeded operation outcome ++ succeededAll rest outcomes
  | _, _ => []

end

end Operation

namespace Session

variable {model : Model} {s s' s₀ t : Session} {r : LiveRecord} {d : Discovery}

/-- A record that is made, while all it speaks of is known, in a session that records. -/
structure Stands (r : LiveRecord) (s : Session) : Prop where
  compiles : s.phase ∈ [Phase.building, .sealed]
  recorded : s.ledger.contains r = true
  known : ∀ x ∈ r.operands, (s.numbering.id? x).isSome

theorem isSome_id?_issue {n : Numbering} {x y : Symbol} (id : SymbolId)
    (h : (n.id? y).isSome) : ((n.issue x id).id? y).isSome := by
  rw [Numbering.id?_issue, Numbering.id?_assign]
  split
  · rfl
  · exact h

/-- Whatever is done later, it stands. -/
theorem Reaches.stands (h : Reaches s s') (stands : Stands r s) : Stands r s' := by
  refine h.keeps (I := Stands r) ?_ stands
  rintro given s s' ⟨compiles, recorded, known⟩ hmove
  cases hmove with
  | region | reseed => exact ⟨compiles, recorded, known⟩
  | seed => exact ⟨compiles, recorded, fun x hx => isSome_id?_issue _ (known x hx)⟩
  | confirm => exact ⟨compiles, Ledger.contains_insert.mpr (.inr recorded), known⟩
  | derive =>
    exact ⟨compiles, Ledger.contains_insert.mpr (.inr recorded),
      fun x hx => isSome_id?_issue _ (known x hx)⟩
  | «sealed» => exact ⟨by simp, recorded, known⟩
  | bind loading | validated loading | reject loading => simp [loading] at compiles

theorem Reaches.config_eq (h : Reaches s s') : s'.config = s.config := by
  refine h.keeps (I := fun s' => s'.config = s.config) ?_ rfl
  intro given s' s'' same hmove
  cases hmove <;> exact same

theorem Entries.reaches (h : Entries model (fun _ => True) s s') : Reaches s s' :=
  ⟨[], h.moves fun _ _ => trivial⟩

theorem known_operands (premises : ∀ x ∈ r.premises, (s.numbering.id? x).isSome)
    (defined : ∀ x, r.defined = some x → (s.numbering.id? x).isSome) :
    ∀ x ∈ r.operands, (s.numbering.id? x).isSome := by
  intro x hx
  rcases Record.mem_operands_iff.mp hx with hdefined | hpremise
  · exact defined x hdefined
  · exact premises x hpremise

theorem stands_insert (building : s.phase = .building)
    (premises : ∀ x ∈ r.premises, (s.numbering.id? x).isSome)
    (defined : ∀ x, r.defined = some x → (s.numbering.id? x).isSome) :
    Stands r { s with ledger := (s.ledger.insert r).2 } where
  compiles := by simp [building]
  recorded := Ledger.contains_insert.mpr (.inl rfl)
  known := known_operands premises defined

theorem stands_derived {x : Symbol} (id : SymbolId) (building : s.phase = .building)
    (premises : ∀ x ∈ r.premises, (s.numbering.id? x).isSome) (defined : r.defined = some x) :
    Stands r (s.derived r x id) where
  compiles := by simp [building]
  recorded := Ledger.contains_insert.mpr (.inl rfl)
  known := by
    refine known_operands (fun y hy => isSome_id?_issue id (premises y hy)) ?_
    intro y hy
    rw [defined] at hy
    cases hy
    rw [id?_derived_self]
    rfl

section Done

variable (building : s.phase = .building) (closed : s.region.isOpen = false)
include building closed

/-- The record of a symbol stands, be it the first one or not, if what is due with the first one
takes nothing away. -/
theorem stands_of_report {x : Symbol} {due : Action Unit} (defined : r.defined = some x)
    (later : ∀ id, Reaches (s.derived r x id) (leaves due (s.derived r x id)))
    (done : (requirePremises r >>= fun _ => (get : Action Session) >>= fun s =>
      if s.isValidated x then appendIfNew r else append r >>= fun _ => due) s = .ok () s') :
    Stands r s' := by
  rcases requirePremises_cases r closed with ⟨premises, hok⟩ | ⟨e, he⟩
  · rw [bind_of_ok hok, get_bind, isValidated_of_closed closed] at done
    cases hid : s.numbering.id? x with
    | some id =>
      have known : ∀ y, r.defined = some y → (s.numbering.id? y).isSome := by
        intro y hy
        rw [defined] at hy
        cases hy
        rw [hid]
        rfl
      rw [hid, if_pos (by rfl), appendIfNew_of_known known] at done
      cases done
      exact stands_insert building premises known
    | none =>
      rw [hid, if_neg (by simp)] at done
      rcases append_of_new defined hid with ⟨id, -, -, happend⟩ | ⟨e, -, happend⟩
      · rw [bind_of_ok happend] at done
        have stands := (later id).stands (stands_derived id building premises defined)
        rwa [leaves_of_ok done] at stands
      · rw [bind_of_error happend] at done
        cases done
  · rw [bind_of_error he] at done
    cases done

theorem stands_of_addType {ty : TypeRef} {rule : TypeRule TypeRef ProcRef}
    (done : addType model ty rule s = .ok () s') : Stands (.type ty rule) s' := by
  refine stands_of_report building closed rfl ?_ done
  intro id
  rw [leaves_chain]
  exact ⟨[], chained_moves (fun _ _ => trivial) building closed (by rw [id?_derived_self]; rfl)⟩

theorem stands_of_addProcedure {p : ProcRef} {rule : ProcRule TypeRef ProcRef}
    (done : addProcedure model p rule s = .ok () s') : Stands (.procedure p rule) s' := by
  refine stands_of_report building closed rfl ?_ done
  intro id
  rw [leaves_get_bind]
  split
  · exact Reaches.refl _
  · exact (addType_entries (s := s.derived (.procedure p rule) (.procedure p) id) trivial building
      closed).reaches

theorem stands_of_addCheck {c : Check TypeRef ProcRef} (done : addCheck c s = .ok () s') :
    Stands (.check c) s' := by
  obtain ⟨_, s₁, hrequire, hrest⟩ := bind_eq_ok done
  rcases requirePremises_cases (.check c) closed with ⟨premises, hok⟩ | ⟨e, he⟩
  · rw [hok] at hrequire
    cases hrequire
    have known : ∀ x, (Record.check c : LiveRecord).defined = some x →
        (s.numbering.id? x).isSome := by
      rintro x ⟨⟩
    rw [appendIfNew_of_known known] at hrest
    cases hrest
    exact stands_insert building premises known
  · rw [he] at hrequire
    cases hrequire

/-- A type is recorded, and then arrays one on top of the other; each record stays. -/
theorem stand_of_addArrays {ty component : TypeRef} {rule : TypeRule TypeRef ProcRef} {dims : Nat}
    (done : (addType model component rule >>= fun _ => addArrays model ty dims component) s =
      .ok () s') :
    ∃ records, arrayRecords? model dims component = some records ∧
      ∀ r ∈ .type component rule :: records, Stands r s' := by
  induction dims generalizing component rule s with
  | zero =>
    obtain ⟨_, s₁, hfirst, hrest⟩ := bind_eq_ok done
    cases hrest
    exact ⟨[], rfl, by simpa using stands_of_addType building closed hfirst⟩
  | succ dims ih =>
    obtain ⟨_, s₁, hfirst, hrest⟩ := bind_eq_ok done
    have first : Entries model (fun _ => True) s (leaves (addType model component rule) s) :=
      addType_entries trivial building closed
    rw [leaves_of_ok hfirst] at first
    have building₁ : s₁.phase = .building := first.phase_eq.trans building
    have closed₁ : s₁.region.isOpen = false := by rw [first.region_eq, closed]
    have rest : Entries model (fun _ => True) s₁
        (leaves (addArrays model ty (dims + 1) component) s₁) :=
      addArrays_entries (fun _ _ _ => trivial) ty (dims + 1) component building₁ closed₁
    rw [leaves_of_ok hrest] at rest
    have stands := rest.reaches.stands (stands_of_addType building closed hfirst)
    rw [addArrays] at hrest
    cases ha : model.arrayType component with
    | none =>
      rw [ha] at hrest
      cases hrest
    | some array =>
      rw [ha] at hrest
      obtain ⟨records, hrecords, stand⟩ := ih building₁ closed₁ hrest
      refine ⟨.type array (.arrayOf component) :: records, ?_,
        List.forall_mem_cons.mpr ⟨stands, stand⟩⟩
      simp [arrayRecords?, ha, hrecords]

/-- A report that is answered yes was made while recording, and what it asks for stands. -/
theorem stand_of_report {model : Model} (d : Discovery) (done : add model d s = .ok true s') :
    ∃ records, d.records? model s.config = some records ∧ ∀ r ∈ records, Stands r s' := by
  rw [add, bind_of_ok (gate_of_mem (by simp [building])), get_bind, closed,
    if_neg Bool.false_ne_true] at done
  -- All that is left to do after the records are made is to say so.
  have told {action : Action Unit} (h : (action >>= fun _ => pure true) s = .ok true s') :
      action s = .ok () s' := by
    obtain ⟨_, s₁, haction, hpure⟩ := bind_eq_ok h
    cases hpure
    exact haction
  cases d with
  | named ty naming =>
    cases ty with
    | none => cases done
    | some ty =>
      have done := told done
      rw [addNamed] at done
      rw [Discovery.records?]
      generalize model.baseComponent ty = nested at done ⊢
      obtain ⟨component, dims⟩ := nested
      simp only [get_bind] at done
      by_cases hd : s.config.maxArrayDimensions.toNat < dims
      · rw [if_pos hd] at done
        cases done
      · rw [if_neg hd] at done
        obtain ⟨records, hrecords, stand⟩ := stand_of_addArrays building closed done
        refine ⟨_, ?_, stand⟩
        simp only [if_neg hd, hrecords]
        rfl
  | type ty rule unnamed =>
    cases ty with
    | none => cases done
    | some ty => exact ⟨_, rfl, by simpa using stands_of_addType building closed (told done)⟩
  | signed p owner beholder =>
    cases p with
    | none => cases done
    | some p => exact ⟨_, rfl, by simpa using stands_of_addProcedure building closed (told done)⟩
  | procedure p rule unsigned =>
    cases p with
    | none => cases done
    | some p => exact ⟨_, rfl, by simpa using stands_of_addProcedure building closed (told done)⟩
  | check c unchained =>
    exact ⟨_, rfl, by simpa using stands_of_addCheck building closed (told done)⟩

end Done

section Again

variable (closed : s.region.isOpen = false)
include closed

theorem requirePremises_of_stands (stands : Stands r s) : requirePremises r s = .ok () s :=
  requirePremises_of_known closed fun x hx =>
    stands.known x (Record.mem_operands_iff.mpr (.inr hx))

omit closed in
theorem appendIfNew_of_stands (stands : Stands r s) : appendIfNew r s = .ok () s := by
  have known : ∀ x, r.defined = some x → (s.numbering.id? x).isSome :=
    fun x hx => stands.known x (Record.mem_operands_iff.mpr (.inl hx))
  rw [appendIfNew_of_known known, Ledger.insert_of_contains stands.recorded]

theorem isValidated_of_stands {x : Symbol} (stands : Stands r s) (defined : r.defined = some x) :
    s.isValidated x = true := by
  rw [isValidated_of_closed closed]
  exact stands.known x (Record.mem_operands_iff.mpr (.inl defined))

theorem addType_of_stands (model : Model) {ty : TypeRef} {rule : TypeRule TypeRef ProcRef}
    (stands : Stands (.type ty rule) s) : addType model ty rule s = .ok () s := by
  rw [addType, bind_of_ok (requirePremises_of_stands closed stands), get_bind,
    isValidated_of_stands closed stands rfl, if_pos rfl]
  exact appendIfNew_of_stands stands

theorem addProcedure_of_stands (model : Model) {p : ProcRef} {rule : ProcRule TypeRef ProcRef}
    (stands : Stands (.procedure p rule) s) : addProcedure model p rule s = .ok () s := by
  rw [addProcedure, bind_of_ok (requirePremises_of_stands closed stands), get_bind,
    isValidated_of_stands closed stands rfl, if_pos rfl]
  exact appendIfNew_of_stands stands

theorem addCheck_of_stands {c : Check TypeRef ProcRef} (stands : Stands (.check c) s) :
    addCheck c s = .ok () s := by
  rw [addCheck, bind_of_ok (requirePremises_of_stands closed stands)]
  exact appendIfNew_of_stands stands

theorem addArrays_of_stand {ty component : TypeRef} {dims : Nat} {records : List LiveRecord}
    (asks : arrayRecords? model dims component = some records)
    (stand : ∀ r ∈ records, Stands r s) : addArrays model ty dims component s = .ok () s := by
  induction dims generalizing component records with
  | zero => rfl
  | succ dims ih =>
    cases ha : model.arrayType component with
    | none => simp [arrayRecords?, ha] at asks
    | some array =>
      simp only [arrayRecords?, ha, Option.map_eq_some_iff] at asks
      obtain ⟨rest, hrest, rfl⟩ := asks
      obtain ⟨first, stand⟩ := List.forall_mem_cons.mp stand
      rw [addArrays, ha]
      exact (bind_of_ok (addType_of_stands closed model first)).trans (ih hrest stand)

theorem add_of_stand (building : s.phase = .building) {records : List LiveRecord}
    (asks : d.records? model s.config = some records) (stand : ∀ r ∈ records, Stands r s) :
    add model d s = .ok true s := by
  rw [add, bind_of_ok (gate_of_mem (by simp [building])), get_bind, closed,
    if_neg Bool.false_ne_true]
  cases d with
  | named ty naming =>
    cases ty with
    | none => cases asks
    | some ty =>
      refine bind_of_ok (a := ()) ?_
      rw [addNamed]
      rw [Discovery.records?] at asks
      generalize model.baseComponent ty = nested at asks ⊢
      obtain ⟨component, dims⟩ := nested
      simp only [get_bind]
      by_cases hd : s.config.maxArrayDimensions.toNat < dims
      · simp [if_pos hd] at asks
      · simp only [if_neg hd, Option.map_eq_some_iff] at asks
        obtain ⟨rest, hrest, rfl⟩ := asks
        obtain ⟨first, stand⟩ := List.forall_mem_cons.mp stand
        rw [if_neg hd]
        exact (bind_of_ok (addType_of_stands closed model first)).trans
          (addArrays_of_stand closed hrest stand)
  | type ty rule unnamed =>
    cases ty with
    | none => cases asks
    | some ty =>
      cases asks
      exact bind_of_ok (addType_of_stands closed model (stand _ List.mem_cons_self))
  | signed p owner beholder =>
    cases p with
    | none => cases asks
    | some p =>
      cases asks
      exact bind_of_ok (addProcedure_of_stands closed model (stand _ List.mem_cons_self))
  | procedure p rule unsigned =>
    cases p with
    | none => cases asks
    | some p =>
      cases asks
      exact bind_of_ok (addProcedure_of_stands closed model (stand _ List.mem_cons_self))
  | check c unchained =>
    cases asks
    exact bind_of_ok (addCheck_of_stands closed (stand _ List.mem_cons_self))

end Again

/-- What a report asks for stands. -/
def Reported (model : Model) (d : Discovery) (s : Session) : Prop :=
  ∃ records, d.records? model s.config = some records ∧ ∀ r ∈ records, Stands r s

theorem Reaches.reported (h : Reaches s s') (reported : Reported model d s) :
    Reported model d s' := by
  obtain ⟨records, asks, stand⟩ := reported
  rw [← h.config_eq] at asks
  exact ⟨records, asks, fun r hr => h.stands (stand r hr)⟩

theorem reported_of_flag (done : (perform model (.add d) s).1 = .flag true) :
    Reported model d (perform model (.add d) s).2 := by
  have reaches : Reaches s (perform model (.add d) s).2 := Reaches.perform model (.add d) s
  by_cases building : s.phase = .building
  · cases hr : s.region.isOpen with
    | true =>
      rw [perform_add_of_open model d building hr] at done
      cases done
    | false =>
      rw [perform, settle] at done reaches ⊢
      cases hadd : add model d s with
      | ok told s' =>
        rw [hadd] at done reaches
        cases done
        obtain ⟨records, asks, stand⟩ := stand_of_report building hr d hadd
        rw [← reaches.config_eq] at asks
        exact ⟨records, asks, stand⟩
      | error e s' =>
        rw [hadd] at done
        cases done
  · have refused : add model d s = .error _ s :=
      bind_of_error (gate_of_not_mem (by simpa using building))
    rw [perform, settle, refused] at done
    cases done

/-- Reporting what is reported changes nothing, and is answered yes wherever reports are heard. -/
theorem Reported.perform (reported : Reported model d s) :
    (perform model (.add d) s).2 = s ∧
      (s.phase = .building → s.region.isOpen = false →
        (Session.perform model (.add d) s).1 = .flag true) := by
  obtain ⟨records, asks, stand⟩ := reported
  by_cases building : s.phase = .building
  · cases hr : s.region.isOpen with
    | true =>
      rw [perform_add_of_open model d building hr]
      exact ⟨rfl, fun _ closed => by cases closed⟩
    | false =>
      rw [Session.perform, settle, add_of_stand hr building asks stand]
      exact ⟨rfl, fun _ _ => rfl⟩
  · exact ⟨perform_add_of_not_building model d building, fun h => absurd h building⟩

/-- A run, and the same run with reports repeated: before each operation, and in the end, any of
those that were answered yes by then, inside and outside of regions. -/
inductive Repeats (model : Model) :
    List Discovery → Session → List Operation → List Operation → Prop where
  | nil (done : List Discovery) (s : Session) : Repeats model done s [] []
  | again {done : List Discovery} {s : Session} {ops ops' : List Operation} {d : Discovery}
      (succeeded : d ∈ done) (rest : Repeats model done s ops ops') :
      Repeats model done s ops (.add d :: ops')
  | keep {done : List Discovery} {s : Session} {op : Operation} {ops ops' : List Operation}
      (rest : Repeats model (done ++ op.succeeded (perform model op s).1) (perform model op s).2
        ops ops') :
      Repeats model done s (op :: ops) (op :: ops')
  | inside {done : List Discovery} {s : Session} {body body' ops ops' : List Operation}
      (inner : Repeats model done s.entered body body')
      (rest : Repeats model
        (done ++ (Operation.guarded body).succeeded (perform model (.guarded body) s).1)
        (perform model (.guarded body) s).2 ops ops') :
      Repeats model done s (.guarded body :: ops) (.guarded body' :: ops')

mutual

theorem reported_of_succeeded {op : Operation} {s : Session}
    (h : d ∈ op.succeeded (perform model op s).1) : Reported model d (perform model op s).2 := by
  cases op with
  | add d' =>
    have hd : d = d' ∧ (perform model (.add d') s).1 = .flag true := by
      cases hout : (perform model (.add d') s).1 with
      | flag value =>
        rw [hout] at h
        cases value with
        | true => exact ⟨List.mem_singleton.mp h, rfl⟩
        | false => cases h
      | _ =>
        rw [hout] at h
        cases h
    obtain ⟨rfl, hout⟩ := hd
    exact reported_of_flag hout
  | guarded body =>
    by_cases phase : s.phase = .building
    · obtain ⟨closing, heq⟩ : ∃ closing, perform model (.guarded body) s = _ :=
        perform_guarded_of_ok (openGuard_of_building phase)
      have left := perform_guarded model body s
      rw [if_pos phase] at left
      rw [heq] at h
      rw [left]
      exact (Reaches.region _ s.region).reported (reported_of_succeededAll h)
    · obtain ⟨e, he⟩ := openGuard_of_not_building phase
      rw [perform_guarded_of_error he] at h
      cases h
  | _ => simp [Operation.succeeded] at h

theorem reported_of_succeededAll {ops : List Operation} {s : Session}
    (h : d ∈ Operation.succeededAll ops (performAll model ops s).1) :
    Reported model d (performAll model ops s).2 := by
  cases ops with
  | nil => cases h
  | cons op rest =>
    rw [performAll_cons] at h ⊢
    rcases List.mem_append.mp h with hfirst | hrest
    · exact (Reaches.performAll model rest _).reported (reported_of_succeeded hfirst)
    · exact reported_of_succeededAll hrest

end

/-- What was reported by now and what an operation reports is reported after it. -/
theorem reported_after {done : List Discovery} {op : Operation}
    (reported : ∀ d ∈ done, Reported model d s) :
    ∀ d ∈ done ++ op.succeeded (perform model op s).1,
      Reported model d (perform model op s).2 := by
  intro d hd
  rcases List.mem_append.mp hd with hold | hnew
  · exact (Reaches.perform model op s).reported (reported d hold)
  · exact reported_of_succeeded hnew

theorem Repeats.performAll {done : List Discovery} {ops ops' : List Operation}
    (repeats : Repeats model done s ops ops') (reported : ∀ d ∈ done, Reported model d s) :
    (performAll model ops' s).2 = (Session.performAll model ops s).2 := by
  induction repeats with
  | nil => rfl
  | again succeeded _ ih =>
    rw [performAll_cons, (reported _ succeeded).perform.1]
    exact ih reported
  | keep _ ih =>
    rw [performAll_cons, performAll_cons]
    exact ih (reported_after reported)
  | @inside done s body body' ops ops' _ _ ihInner ihRest =>
    have same : (perform model (.guarded body') s).2 = (perform model (.guarded body) s).2 := by
      rw [perform_guarded, perform_guarded,
        ihInner fun d hd => (Reaches.region s _).reported (reported d hd)]
    rw [performAll_cons, performAll_cons, same]
    exact ihRest (reported_after reported)

/-- Operations other than regions of their own are issued as before. -/
theorem Repeats.issuedAll {done : List Discovery} {ops ops' : List Operation} {op : Operation}
    (repeats : Repeats model done s ops ops') (reported : ∀ d ∈ done, Reported model d s)
    (plain : ∀ body, op ≠ .guarded body) (h : (op, t) ∈ issuedAll model ops s) :
    (op, t) ∈ Session.issuedAll model ops' s := by
  induction repeats with
  | nil => exact h
  | again succeeded _ ih =>
    refine mem_issuedAll_cons.mpr (.inr ?_)
    rw [(reported _ succeeded).perform.1]
    exact ih reported h
  | keep _ ih =>
    refine mem_issuedAll_cons.mpr ((mem_issuedAll_cons.mp h).imp_right ?_)
    exact ih (reported_after reported)
  | @inside done s body body' ops ops' inner _ ihInner ihRest =>
    have entered : ∀ d ∈ done, Reported model d s.entered :=
      fun d hd => (Reaches.region s _).reported (reported d hd)
    have same : (perform model (.guarded body') s).2 = (perform model (.guarded body) s).2 := by
      rw [perform_guarded, perform_guarded, inner.performAll entered]
    rcases mem_issuedAll_cons.mp h with hfirst | hrest
    · rcases mem_issued_guarded.mp hfirst with ⟨rfl, -⟩ | ⟨phase, hbody⟩
      · exact absurd rfl (plain body)
      · exact mem_issuedAll_cons.mpr (.inl (mem_issued_guarded.mpr
          (.inr ⟨phase, ihInner entered hbody⟩)))
    · refine mem_issuedAll_cons.mpr (.inr ?_)
      rw [same]
      exact ihRest (reported_after reported) hrest

/-- A report that was answered yes once may be repeated for ever. Wherever it is issued again in
the same run it changes nothing, and as long as the session records and no region is open it is
answered yes again. So a run in which such reports are repeated anywhere ends in the same
session, with the same records, the same IDs and the same list if it is sealed; and all of its
other operations, the sealing of it among them, find the session that they found before. -/
theorem repeated_reports_change_nothing (model : Model) (ops : List Operation) (s₀ : Session) :
    ((issuedAll model ops s₀).Pairwise fun first later => ∀ d, first.1 = .add d →
      later.1 = .add d → (perform model (.add d) first.2).1 = .flag true →
        (perform model (.add d) later.2).2 = later.2 ∧
          (later.2.phase = .building → later.2.region.isOpen = false →
            (perform model (.add d) later.2).1 = .flag true)) ∧
    ∀ ops', Repeats model [] s₀ ops ops' →
      (performAll model ops' s₀).2 = (performAll model ops s₀).2 ∧
      ∀ op t, (∀ body, op ≠ .guarded body) → (op, t) ∈ issuedAll model ops s₀ →
        (op, t) ∈ issuedAll model ops' s₀ := by
  constructor
  · refine (Reaches.pairwise_issuedAll model ops s₀).imp ?_
    rintro ⟨op, s⟩ ⟨op', t⟩ further d rfl rfl done
    have reaches : Reaches (perform model (.add d) s).2 t := further (by rintro _ ⟨⟩)
    exact (reaches.reported (reported_of_flag done)).perform
  · intro ops' repeats
    exact ⟨repeats.performAll (by simp), fun op t => repeats.issuedAll (by simp)⟩

/-- A report that is made again at once, and once more in a region. -/
theorem repeated_reports_change_nothing_of_check :
    let model := Model.uniform ⟨0⟩ ⟨1⟩ none none ⟨List.replicate 32 0, rfl⟩
    let s₀ := forCompile model default
    let d := Discovery.check (.initialized ⟨0⟩ true) rfl
    let asked := Operation.isValidated (.type ⟨7⟩)
    let ops := [.add d, .guarded [asked]]
    let ops' := [.add d, .add d, .guarded [asked, .add d]]
    (perform model (.add d) s₀).1 = .flag true ∧ Repeats model [] s₀ ops ops' ∧
      (performAll model ops' s₀).2 = (performAll model ops s₀).2 ∧
      (perform model (.add d) (perform model (.add d) s₀).2).1 = .flag true := by
  intro model s₀ d asked ops ops'
  have root : (s₀.numbering.id? (.type ⟨0⟩)).isSome :=
    (lists_start model default .building).mem_iff.mp (by decide)
  have premises : ∀ x ∈ (Record.check (.initialized ⟨0⟩ true) : LiveRecord).premises,
      (s₀.numbering.id? x).isSome := by
    intro x hx
    rw [Record.premises_check, Check.operands, List.mem_singleton] at hx
    rw [hx]
    exact root
  have hadd : add model d s₀ = .ok true _ :=
    bind_of_ok ((bind_of_ok (requirePremises_of_known rfl premises)).trans
      (appendIfNew_of_known (by rintro x ⟨⟩)))
  have done : (perform model (.add d) s₀).1 = .flag true := by
    rw [perform, settle, hadd]
  have told : d ∈ (Operation.add d).succeeded (perform model (.add d) s₀).1 := by
    rw [done]
    exact List.mem_singleton_self d
  have repeats : Repeats model [] s₀ ops ops' :=
    .keep (.again (List.mem_append_right _ told)
      (.inside (.keep (.again (List.mem_append_left _ (List.mem_append_right _ told)) (.nil _ _)))
        (.nil _ _)))
  have closed : (perform model (.add d) s₀).2.region.isOpen = false := by
    rw [(steady_perform model rfl s₀).region]
    rfl
  have building : (perform model (.add d) s₀).2.phase = .building :=
    (steady_perform model rfl s₀).phase
  obtain ⟨pairs, -⟩ := repeated_reports_change_nothing model [.add d, .add d] s₀
  obtain ⟨-, ends⟩ := repeated_reports_change_nothing model ops s₀
  have again := List.rel_of_pairwise_cons pairs (List.mem_singleton_self _) d rfl rfl done
  exact ⟨done, repeats, (ends ops' repeats).1, again.2 building closed⟩

end Session

end Provenance
