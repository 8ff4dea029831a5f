import Provenance.Proofs.Repeating
import Provenance.Proofs.RoundTrip

/-!
Finding a type again by its name. A report that a type was found by its name is recorded of the
innermost component, which the model is not asked for, and each array on top of it is recorded as
the array of the one below. So the type is found again exactly if the name that the component has
leads to the component.
-/
namespace Provenance

namespace Derives

variable {T P : Type} [DecidableEq T] [DecidableEq P] {known last : List (Operand T P)}
  {records more : List (Record T P)}

theorem of_append (h : Derives known (records ++ more) last) :
    ∃ mid, Derives known records mid ∧ Derives mid more last := by
  induction records generalizing known with
  | nil => exact ⟨known, .nil known, h⟩
  | cons r records ih =>
    cases h with
    | cons premises rest =>
      obtain ⟨mid, first, later⟩ := ih rest
      exact ⟨mid, .cons premises first, later⟩

end Derives

namespace Embedding

/-- Every program is like itself. -/
def refl (model : Model) : Embedding model model where
  type := id
  procedure := id
  type_injective := Function.injective_id
  procedure_injective := Function.injective_id
  type_rootType := rfl
  type_metaType := rfl

theorem symbol_refl (model : Model) (x : Symbol) : (refl model).symbol x = x := by
  cases x <;> rfl

theorem map_symbol_refl (model : Model) (xs : List Symbol) : xs.map (refl model).symbol = xs :=
  (List.map_congr_left fun x _ => symbol_refl model x).trans (List.map_id xs)

theorem record_refl (model : Model) (r : LiveRecord) : (refl model).record r = r := Record.map_id r

end Embedding

section Recovered

variable {model : Model} {n : Numbering} {σ : Assignment} {t : TypeRef} {p : ProcRef}

/-- The ID of the symbol stands for the symbol. -/
def Recovers (n : Numbering) (σ : Assignment) (x : Symbol) : Prop := σ (n.idOf x) = some x

/-- Read under the assignment, the sealed record is one that the model confirms. -/
def Affirms (model : Model) (n : Numbering) (σ : Assignment) (r : LiveRecord) : Prop :=
  ∃ live, (n.sealed r).under σ = some live ∧ model.Confirms live

/-- What both sessions know from the start is recovered where the second keeps what it knows. -/
theorem Numbering.Lists.recovers {n' : Numbering} {known known' : List Symbol} (h : n.Lists known)
    (h' : n'.Lists known') (front : known' <+: known) (keeps : σ.Extends n'.symbolOf?) :
    ∀ x ∈ known', Recovers n σ x := by
  intro x hx
  obtain ⟨id, hid⟩ := Option.isSome_iff_exists.mp (h'.mem_iff.mp hx)
  rw [Recovers, Numbering.idOf_of_id? (h'.id?_of_front h front hid)]
  exact keeps id x ((h'.isBijection x id).mp hid)

/-- With its operands recovered, a rule leads to what the ID of its symbol stands for. -/
theorem Affirms.type {rule : TypeRule TypeRef ProcRef} (h : Affirms model n σ (.type t rule))
    (premises : ∀ x ∈ rule.operands, Recovers n σ x) :
    ∃ u, σ (n.typeId t) = some (.type u) ∧ model.typeOf rule = some u := by
  obtain ⟨u, rule', hu, hrule, htype⟩ := Model.confirmed_type h
  have same : (rule.map n.typeId n.procedureId).mapM σ.type σ.procedure = some (rule.map id id) :=
    TypeRule.mapM_map_some (fun t ht => Assignment.type_eq_some.mpr (premises _ ht))
      fun p hp => Assignment.procedure_eq_some.mpr (premises _ hp)
  rw [same] at hrule
  cases hrule
  have hid : rule.map id id = rule := by cases rule <;> rfl
  rw [hid] at htype
  exact ⟨u, hu, htype⟩

theorem Affirms.procedure {rule : ProcRule TypeRef ProcRef}
    (h : Affirms model n σ (.procedure p rule)) (premises : ∀ x ∈ rule.operands, Recovers n σ x) :
    ∃ q, σ (n.procedureId p) = some (.procedure q) ∧ model.procedureOf rule = some q := by
  obtain ⟨q, rule', hq, hrule, hprocedure⟩ := Model.confirmed_procedure h
  have same : (rule.map n.typeId n.procedureId).mapM σ.type σ.procedure = some (rule.map id id) :=
    ProcRule.mapM_map_some (fun t ht => Assignment.type_eq_some.mpr (premises _ ht))
      fun p hp => Assignment.procedure_eq_some.mpr (premises _ hp)
  rw [same] at hrule
  cases hrule
  have hid : rule.map id id = rule := by cases rule <;> rfl
  rw [hid] at hprocedure
  exact ⟨q, hq, hprocedure⟩

/-- What records lead to that are answers of the model is recovered if what they start from is. -/
theorem Derives.recovers {known last : List Symbol} {records : List LiveRecord}
    (derives : Derives known records last) (answered : ∀ r ∈ records, model.Confirms r)
    (accepted : ∀ r ∈ records, Affirms model n σ r) (start : ∀ x ∈ known, Recovers n σ x) :
    ∀ x ∈ last, Recovers n σ x := by
  induction derives with
  | nil known => exact start
  | @cons known last r records premises _ ih =>
    obtain ⟨first, answered⟩ := List.forall_mem_cons.mp answered
    obtain ⟨accepts, accepted⟩ := List.forall_mem_cons.mp accepted
    refine ih answered accepted fun x hx => ?_
    rcases Record.mem_learned.mp hx with hknown | hdefined
    · exact start x hknown
    · have premises := fun y hy => start y (premises y hy)
      cases r with
      | type t rule =>
        cases hdefined
        rw [Record.premises_type] at premises
        obtain ⟨u, hu, htype⟩ := accepts.type premises
        cases first.symm.trans htype
        exact hu
      | procedure p rule =>
        cases hdefined
        rw [Record.premises_procedure] at premises
        obtain ⟨q, hq, hprocedure⟩ := accepts.procedure premises
        cases first.symm.trans hprocedure
        exact hq
      | check c => cases hdefined

/-- If all other records are answers of the model, so is a record of a type that is recovered. -/
theorem Derives.answered_of_recovers {known last : List Symbol} {records : List LiveRecord}
    {rule : TypeRule TypeRef ProcRef} (derives : Derives known records last)
    (answered : ∀ r ∈ records, model.Confirms r ∨ r = .type t rule)
    (accepted : ∀ r ∈ records, Affirms model n σ r) (start : ∀ x ∈ known, Recovers n σ x)
    (mem : .type t rule ∈ records) (recovered : Recovers n σ (.type t)) :
    model.typeOf rule = some t := by
  obtain ⟨before, after, rfl, first⟩ := List.eq_append_cons_of_mem mem
  obtain ⟨mid, derives, rest⟩ := derives.of_append
  -- Up to the first time that the record is made, everything is recovered.
  have recovers : ∀ x ∈ mid, Recovers n σ x := by
    refine derives.recovers (fun r hr => ?_) (fun r hr => accepted r ?_) start
    · refine (answered r (List.mem_append_left _ hr)).resolve_right ?_
      rintro rfl
      exact first hr
    · exact List.mem_append_left _ hr
  cases rest with
  | cons premises _ =>
    rw [Record.premises_type] at premises
    obtain ⟨u, hu, htype⟩ := (accepted _ mem).type fun x hx => recovers x (premises x hx)
    cases recovered.symm.trans hu
    exact htype

end Recovered

namespace Model

/-- A type is the array of another exactly if that is its component. -/
def Linked (model : Model) : Prop :=
  ∀ component array, model.arrayType component = some array ↔
    model.componentType array = some component

/-- The array of `dims` dimensions on top of a type. -/
def arrayOn (model : Model) : (dims : Nat) → TypeRef → Option TypeRef
  | 0, t => some t
  | dims + 1, t => (model.arrayType t).bind (arrayOn model dims)

theorem arrayOn_succ (model : Model) (dims : Nat) (t : TypeRef) :
    model.arrayOn (dims + 1) t = (model.arrayOn dims t).bind model.arrayType := by
  induction dims generalizing t with
  | zero => cases h : model.arrayType t <;> simp [arrayOn, h]
  | succ dims ih =>
    rw [arrayOn, arrayOn, Option.bind_assoc]
    exact congrArg _ (funext fun u => ih u)

/-- A type is the array of its dimensions on top of its innermost component. -/
theorem Linked.arrayOn_baseComponent {model : Model} (linked : model.Linked) (t : TypeRef) :
    model.arrayOn (model.baseComponent t).2 (model.baseComponent t).1 = some t := by
  induction t using model.finiteNesting.induction with
  | _ t ih =>
    cases h : model.componentType t with
    | none =>
      rw [model.baseComponent_of_none h]
      rfl
    | some component =>
      rw [model.baseComponent_of_some h, arrayOn_succ, ih component h]
      exact (linked component t).mpr h

end Model

section Arrays

variable {model : Model} {n : Numbering} {σ : Assignment} {ty component : TypeRef} {dims : Nat}
  {records : List LiveRecord}

theorem Model.exists_arrayRecords? (top : model.arrayOn dims component = some ty) :
    ∃ records, arrayRecords? model dims component = some records := by
  induction dims generalizing component with
  | zero => exact ⟨[], rfl⟩
  | succ dims ih =>
    obtain ⟨array, harray, top⟩ := Option.bind_eq_some_iff.mp top
    obtain ⟨records, asks⟩ := ih top
    refine ⟨.type array (.arrayOf component) :: records, ?_⟩
    simp only [arrayRecords?, harray, asks, Option.map_some]

/-- Where the array on top is recovered, so is what is below. -/
theorem Model.Linked.recovers_component (linked : model.Linked)
    (top : model.arrayOn dims component = some ty)
    (asks : arrayRecords? model dims component = some records)
    (accepted : ∀ r ∈ records, Affirms model n σ r) (recovered : Recovers n σ (.type ty)) :
    Recovers n σ (.type component) := by
  induction dims generalizing component records with
  | zero =>
    cases top
    exact recovered
  | succ dims ih =>
    obtain ⟨array, harray, top⟩ := Option.bind_eq_some_iff.mp top
    simp only [arrayRecords?, harray, Option.map_eq_some_iff] at asks
    obtain ⟨records, asks, rfl⟩ := asks
    obtain ⟨first, accepted⟩ := List.forall_mem_cons.mp accepted
    have above : σ (n.typeId array) = some (.type array) := ih top asks accepted
    -- The array leads back to its component, whatever the component is taken for.
    obtain ⟨u, rule, hu, hrule, htype⟩ := Model.confirmed_type first
    obtain ⟨below, hbelow, hrule⟩ := Option.bind_eq_some_iff.mp hrule
    cases hrule
    cases above.symm.trans hu
    have same := ((linked below array).mp htype).symm.trans ((linked component array).mp harray)
    cases same
    exact Assignment.type_eq_some.mp hbelow

/-- Where the component and its arrays stand, the array on top is known. -/
theorem Session.known_of_arrays {s : Session} {rule : TypeRule TypeRef ProcRef}
    (top : model.arrayOn dims component = some ty)
    (asks : arrayRecords? model dims component = some records)
    (stand : ∀ r ∈ .type component rule :: records, Session.Stands r s) :
    (s.numbering.id? (.type ty)).isSome := by
  induction dims generalizing component rule records with
  | zero =>
    cases top
    have first := stand _ List.mem_cons_self
    exact first.known _ (Record.mem_operands_iff.mpr (.inl rfl))
  | succ dims ih =>
    obtain ⟨array, harray, top⟩ := Option.bind_eq_some_iff.mp top
    simp only [arrayRecords?, harray, Option.map_eq_some_iff] at asks
    obtain ⟨records, asks, rfl⟩ := asks
    exact ih top asks (List.forall_mem_cons.mp stand).2

end Arrays

namespace Session

variable {model : Model} {s t : Session} {ty : TypeRef} {naming : Naming}

/-- A session that records, with no region open and with so many IDs left. -/
structure Ready (model : Model) (left : Nat) (s : Session) : Prop where
  recorded : ∃ seeds, Recorded model (fun _ => True) seeds s
  building : s.phase = .building
  closed : s.region.isOpen = false
  room : ∃ known, s.numbering.Lists known ∧ known.length + left ≤ 65535

theorem Ready.entries {left left' : Nat} {s' : Session} (h : Ready model left s)
    (entries : Entries model (fun _ => True) s s')
    (room : ∃ known, s'.numbering.Lists known ∧ known.length + left' ≤ 65535) :
    Ready model left' s' := by
  obtain ⟨seeds, recorded⟩ := h.recorded
  exact ⟨⟨_, recorded.moves (entries.moves fun _ _ => trivial)⟩,
    entries.phase_eq.trans h.building, by rw [entries.region_eq, h.closed], room⟩

theorem addType_of_known {rule : TypeRule TypeRef ProcRef} (closed : s.region.isOpen = false)
    (premises : ∀ x ∈ (Record.type ty rule).premises, (s.numbering.id? x).isSome)
    (known : (s.numbering.id? (.type ty)).isSome) :
    addType model ty rule s =
      .ok () { s with ledger := (s.ledger.insert (.type ty rule)).2 } := by
  rw [addType, bind_of_ok (requirePremises_of_known closed premises), get_bind,
    isValidated_of_closed closed, if_pos known]
  refine appendIfNew_of_known fun x hx => ?_
  cases hx
  exact known

theorem addType_of_fresh {rule : TypeRule TypeRef ProcRef} {id : SymbolId}
    (closed : s.region.isOpen = false)
    (premises : ∀ x ∈ (Record.type ty rule).premises, (s.numbering.id? x).isSome)
    (new : s.numbering.id? (.type ty) = none) (fresh : s.ledger.contains (.type ty rule) = false)
    (next : s.numbering.next = some id) :
    addType model ty rule s =
      .ok () (chained model ty (s.derived (.type ty rule) (.type ty) id)) := by
  rw [addType, bind_of_ok (requirePremises_of_known closed premises), get_bind,
    isValidated_of_closed closed, new, if_neg (by simp)]
  rcases append_of_new (r := .type ty rule) rfl new with ⟨id', -, next', hok⟩ | ⟨e, why, -⟩
  · cases next.symm.trans next'
    rw [bind_of_ok hok]
    unfold chained
    by_cases array : model.isArray ty = true
    · rw [if_pos array, if_pos array]
      rfl
    · rw [if_neg array, if_neg array]
      exact appendIfNew_of_known fun x hx => by cases hx
  · simp [fresh, next] at why

/-- A type that follows from what is known is recorded. -/
theorem Ready.addType {left : Nat} {rule : TypeRule TypeRef ProcRef}
    (h : Ready model (left + 1) s)
    (premises : ∀ x ∈ (Record.type ty rule).premises, (s.numbering.id? x).isSome) :
    ∃ s', addType model ty rule s = .ok () s' ∧ Ready model left s' ∧
      (s'.numbering.id? (.type ty)).isSome := by
  have entries : Entries model (fun _ => True) s (leaves (Session.addType model ty rule) s) :=
    addType_entries trivial h.building h.closed
  obtain ⟨known, lists, room⟩ := h.room
  cases hid : s.numbering.id? (.type ty) with
  | some id =>
    have hok : Session.addType model ty rule s = .ok () _ :=
      addType_of_known h.closed premises (by rw [hid]; rfl)
    rw [leaves_of_ok hok] at entries
    exact ⟨_, hok, h.entries entries ⟨known, lists, by omega⟩, by rw [hid]; rfl⟩
  | none =>
    obtain ⟨seeds, recorded⟩ := h.recorded
    obtain ⟨id, next, -⟩ := lists.exists_next (by omega)
    have hok : Session.addType model ty rule s = .ok () _ :=
      addType_of_fresh h.closed premises hid (recorded.fresh rfl hid) next
    rw [leaves_of_ok hok] at entries
    refine ⟨_, hok, h.entries entries ⟨known ++ [.type ty], ?_, ?_⟩, ?_⟩
    · rw [numbering_chained]
      exact lists.issue hid next
    · rw [List.length_append, List.length_singleton]
      omega
    · rw [numbering_chained, id?_derived_self]
      rfl

theorem Ready.addArrays {dims : Nat} {component : TypeRef} {records : List LiveRecord}
    (h : Ready model dims s) (known : (s.numbering.id? (.type component)).isSome)
    (asks : arrayRecords? model dims component = some records) :
    ∃ s', addArrays model ty dims component s = .ok () s' := by
  induction dims generalizing component records s with
  | zero => exact ⟨s, rfl⟩
  | succ dims ih =>
    cases harray : model.arrayType component with
    | none => simp [arrayRecords?, harray] at asks
    | some array =>
      simp only [arrayRecords?, harray, Option.map_eq_some_iff] at asks
      obtain ⟨records, asks, rfl⟩ := asks
      have premises : ∀ x ∈ (Record.type array (.arrayOf component) : LiveRecord).premises,
          (s.numbering.id? x).isSome := by
        intro x hx
        rw [Record.premises_type, TypeRule.operands, List.mem_singleton] at hx
        rw [hx]
        exact known
      obtain ⟨s₁, hok, ready, known'⟩ := h.addType premises
      obtain ⟨s', hrest⟩ := ih ready known' asks
      refine ⟨s', ?_⟩
      rw [Session.addArrays, harray]
      exact (bind_of_ok hok).trans hrest

/-- With a beholder that is known, arrays that are there and not too deep, and enough IDs left, a
report of a name is answered yes. -/
theorem Ready.told_of_named {component : TypeRef} {dims : Nat} {records : List LiveRecord}
    (nested : model.baseComponent ty = (component, dims)) (h : Ready model (dims + 1) s)
    (premises : ∀ x ∈ (Record.type component (naming.rule model component)).premises,
      (s.numbering.id? x).isSome)
    (limit : dims ≤ s.config.maxArrayDimensions.toNat)
    (asks : arrayRecords? model dims component = some records) :
    (perform model (.add (.named (some ty) naming)) s).1 = .flag true := by
  obtain ⟨s₁, hfirst, ready, known⟩ := h.addType premises
  obtain ⟨s', harrays⟩ :
      ∃ s', Session.addArrays model ty dims component s₁ = .ok () s' := ready.addArrays known asks
  have hnamed : addNamed model ty naming s = .ok () s' := by
    rw [addNamed, nested]
    simp only [get_bind, if_neg (Nat.not_lt.mpr limit)]
    exact (bind_of_ok hfirst).trans harrays
  have hadd : add model (.named (some ty) naming) s = .ok true s' := by
    rw [add, bind_of_ok (gate_of_mem (by simp [h.building])), get_bind, h.closed,
      if_neg Bool.false_ne_true]
    exact bind_of_ok hnamed
  rw [perform, settle, hadd]

/-- After seeds that a report of a name may start from, the report is answered yes. -/
theorem told_after_seeds (naming : Naming) (config : Config) (given : List Symbol)
    {component : TypeRef} {dims : Nat} (linked : model.Linked)
    (nested : model.baseComponent ty = (component, dims))
    (premises : ∀ x ∈ (Record.type component (naming.rule model component)).premises,
      x ∈ seededWith model given)
    (limit : dims ≤ config.maxArrayDimensions.toNat)
    (room : (seededWith model given).length + dims < 65535) :
    (perform model (.add (.named (some ty) naming))
      (performAll model (given.map .seed) (forCompile model config)).2).1 = .flag true := by
  have hfold : given.foldl learn (seededWith model []) = seededWith model given := by
    simp [seededWith]
  obtain ⟨seeded, hseeds, hphase, seedable⟩ := seeds_of_seedable model given
    (seedable_start model config (by decide : Phase.building ∈ _)) (by rw [hfold]; omega)
  rw [hfold] at seedable
  have moves : Moves (fun _ => True) _ (forCompile model config) _ :=
    performAll_moves model (fun _ _ => trivial) (given.map .seed) _ fun _ _ _ _ => trivial
  have recorded := (Recorded.forCompile model (fun _ => True) config).moves moves
  have same := (Reaches.performAll model (given.map .seed) (forCompile model config)).config_eq
  have hregion := region_of_seeds model given (forCompile model config)
  rw [forCompile, hseeds] at recorded same hregion
  rw [forCompile, hseeds]
  have ready : Ready model (dims + 1) seeded :=
    ⟨⟨_, recorded⟩, hphase, by rw [hregion]; rfl, _, seedable.lists, room⟩
  have top := linked.arrayOn_baseComponent ty
  rw [nested] at top
  obtain ⟨records, asks⟩ := Model.exists_arrayRecords? top
  refine ready.told_of_named nested (fun x hx => seedable.lists.mem_iff.mp (premises x hx)) ?_ asks
  rwa [same]

theorem mem_issuedAll_last (op : Operation) (ops : List Operation) (s : Session) :
    (op, (performAll model ops s).2) ∈ issuedAll model (ops ++ [op]) s := by
  induction ops generalizing s with
  | nil => cases op <;> exact List.mem_cons_self
  | cons first ops ih =>
    rw [performAll_cons]
    exact mem_issuedAll_cons.mpr (.inr (ih _))

theorem eq_of_add_mem_atomsAll {d d' : Discovery} {given : List Symbol}
    (h : .add d' ∈ Operation.atomsAll (given.map .seed ++ [.add d])) : d' = d := by
  induction given with
  | nil => simpa [Operation.atomsAll, Operation.atoms] using h
  | cons x given ih =>
    refine ih ?_
    simpa [Operation.atomsAll, Operation.atoms] using h

/-- A new session that is given such seeds and then the report, and can be sealed after it. -/
theorem reported_after_seeds (naming : Naming) (config : Config) (given : List Symbol)
    {component : TypeRef} {dims : Nat} (linked : model.Linked)
    (nested : model.baseComponent ty = (component, dims))
    (premises : ∀ x ∈ (Record.type component (naming.rule model component)).premises,
      x ∈ seededWith model given)
    (limit : dims ≤ config.maxArrayDimensions.toNat)
    (room : (seededWith model given).length + dims < 65535) :
    let named := Discovery.named (some ty) naming
    let ops := given.map Operation.seed ++ [.add named]
    let s := (performAll model ops (forCompile model config)).2
    (∃ t, (.add named, t) ∈ issuedAll model ops (forCompile model config) ∧
      (perform model (.add named) t).1 = .flag true) ∧
    (∀ d, .add d ∈ Operation.atomsAll ops → d ≠ named → ∀ r, d.record? model = some r →
      model.Confirms r) ∧
    s.phase = .building ∧ s.region.isOpen = false := by
  intro named ops s
  have told := told_after_seeds naming config given linked nested premises limit room
  obtain ⟨phase, closed, -⟩ := seeded_and_reported model config given [named] (by omega)
  exact ⟨⟨_, mem_issuedAll_last _ _ _, told⟩,
    fun d hd other => absurd (eq_of_add_mem_atomsAll hd) other, phase, closed⟩

/-- What a report asked for that was answered yes stands in the end. -/
theorem reported_of_issued {d : Discovery} {ops : List Operation} {s₀ : Session}
    (issued : (.add d, t) ∈ issuedAll model ops s₀)
    (told : (perform model (.add d) t).1 = .flag true) :
    Reported model d (performAll model ops s₀).2 :=
  (Reaches.past_issuedAll (by rintro _ ⟨⟩) issued).reported (reported_of_flag told)

/-- The records of a report that was answered yes are the named one and those of the arrays. -/
theorem Reported.named (h : Reported model (.named (some ty) naming) s) :
    let component := (model.baseComponent ty).1
    ∃ arrays, arrayRecords? model (model.baseComponent ty).2 component = some arrays ∧
      ∀ r ∈ .type component (naming.rule model component) :: arrays, Stands r s := by
  obtain ⟨records, asks, stand⟩ := h
  simp only [Discovery.records?] at asks
  split at asks
  · cases asks
  · obtain ⟨arrays, harrays, rfl⟩ := Option.map_eq_some_iff.mp asks
    exact ⟨arrays, harrays, stand⟩

/-- Over the same program, a session that is given the seeds again knows them in the same order. -/
theorem seeds_given_again (config' : Config) {n : Numbering} {given last : List Symbol}
    (lists : n.Lists last) (front : seededWith model given <+: last) :
    ∃ seeded, performAll model (given.map .seed) (forLoad model config') =
        (given.map fun x => .id (n.id? x), seeded) ∧
      seeded.phase = .loading ∧ seeded.numbering.Lists (seededWith model given) := by
  have again := seeds_again (Embedding.refl model) config' lists front
  simpa only [Embedding.symbol_refl, Embedding.map_symbol_refl] using again

/-- Over the same program, answers of the model are replayed to the same symbols. -/
theorem replayed_of_confirmed {n : Numbering} {known last : List Symbol}
    {records : List LiveRecord} (lists : n.Lists last) (derives : Derives known records last)
    (confirmed : ∀ r ∈ records, model.Confirms r) (phase : t.phase = .loading)
    (lists' : t.numbering.Lists known) :
    ∃ done, validateRecords model (records.map n.sealed) t = .ok () done ∧
      ∀ x id, n.id? x = some id → done.numbering.symbolOf? id = some x := by
  obtain ⟨done, hdone, -, -, htable⟩ := replay_of_derives (Embedding.refl model) lists derives
    (fun r hr => by rw [Embedding.record_refl]; exact confirmed r hr) phase
    (by rwa [Embedding.map_symbol_refl])
  refine ⟨done, hdone, fun x id hid => ?_⟩
  rw [htable, Embedding.map_symbol_refl, ← lists.symbolOf?_eq_ofList]
  exact (lists.isBijection x id).mp hid

/-- A type that was reported to be found by its name is found again, and under the same ID,
exactly if the model leads from the name of the innermost component to that component. -/
theorem found_again_iff (linked : model.Linked) {config : Config} (config' : Config)
    {ops : List Operation} {outcomes : List Outcome}
    (run : performAll model ops (forCompile model config) = (outcomes, s))
    (reported : (.add (.named (some ty) naming), t) ∈ issuedAll model ops (forCompile model config))
    (told : (perform model (.add (.named (some ty) naming)) t).1 = .flag true)
    (answered : ∀ d, .add d ∈ Operation.atomsAll ops → d ≠ .named (some ty) naming →
      ∀ r, d.record? model = some r → model.Confirms r)
    (phase : s.phase = .building) (closed : s.region.isOpen = false) :
    let component := (model.baseComponent ty).1
    ∃ records seeded id, sealRecords s = .ok records { s with phase := .sealed } ∧
      performAll model ((Operation.givenAll ops outcomes).map .seed) (forLoad model config') =
        ((Operation.givenAll ops outcomes).map fun x => .id (s.numbering.id? x), seeded) ∧
      s.numbering.id? (.type ty) = some id ∧
      ((∃ done, validateRecords model records seeded = .ok () done ∧
          done.numbering.symbolOf? id = some (.type ty)) ↔
        model.typeOf (naming.rule model component) = some component) := by
  intro component
  let named : LiveRecord := .type component (naming.rule model component)
  have moves : Moves (fun r => model.Confirms r ∨ r = named) _ (forCompile model config) _ :=
    performAll_moves model (fun _ => .inl) ops (forCompile model config) fun d hd r hr => by
      by_cases hd' : d = .named (some ty) naming
      · subst hd'
        exact .inr (Option.some.inj hr).symm
      · exact .inl (answered d hd hd' r hr)
  have recorded := (Recorded.forCompile model _ config).moves moves
  have stands := reported_of_issued reported told
  rw [run] at recorded stands
  rw [List.nil_append] at recorded
  obtain ⟨last, lists, derives⟩ := recorded.lists
  obtain ⟨seeded, seeds, hphase, lists'⟩ := seeds_given_again config' lists derives.isPrefix
  obtain ⟨arrays, asks, stand⟩ := stands.named
  have top := linked.arrayOn_baseComponent ty
  obtain ⟨id, hid⟩ := Option.isSome_iff_exists.mp (known_of_arrays top asks stand)
  have onRecord : ∀ r ∈ named :: arrays, r ∈ s.ledger.records := fun r hr =>
    (recorded.faithful r).mp (stand r hr).recorded
  refine ⟨_, seeded, id, recorded.sealRecords_eq phase closed, seeds, hid, ?_, ?_⟩
  · rintro ⟨done, hdone, hty⟩
    rw [validateRecords_of_loading hphase] at hdone
    obtain ⟨justifies, -⟩ := justifies_of_replay hphase lists'.isBijection hdone
    have accepted : ∀ r ∈ s.ledger.records,
        Affirms model s.numbering done.numbering.symbolOf? r := fun r hr =>
      justifies.confirmed _ (List.mem_map_of_mem hr)
    have start := lists.recovers lists' derives.isPrefix justifies.keeps
    have recovered : Recovers s.numbering done.numbering.symbolOf? (.type ty) := by
      rw [Recovers, Numbering.idOf_of_id? hid]
      exact hty
    refine derives.answered_of_recovers recorded.allowed accepted start
      (onRecord _ List.mem_cons_self) ?_
    exact linked.recovers_component top asks
      (fun r hr => accepted r (onRecord r (List.mem_cons_of_mem _ hr))) recovered
  · intro again
    have confirmed : ∀ r ∈ s.ledger.records, model.Confirms r := by
      intro r hr
      rcases recorded.allowed r hr with confirms | rfl
      · exact confirms
      · exact again
    obtain ⟨done, hdone, recovers⟩ :=
      replayed_of_confirmed lists derives confirmed hphase lists'
    exact ⟨done, hdone, recovers _ _ hid⟩

/-- So after such seeds and the report alone. -/
theorem found_again_after_seeds (naming : Naming) (config config' : Config) (given : List Symbol)
    {component : TypeRef} {dims : Nat} (linked : model.Linked)
    (nested : model.baseComponent ty = (component, dims))
    (premises : ∀ x ∈ (Record.type component (naming.rule model component)).premises,
      x ∈ seededWith model given)
    (limit : dims ≤ config.maxArrayDimensions.toNat)
    (room : (seededWith model given).length + dims < 65535) :
    let named := Discovery.named (some ty) naming
    let ops := given.map Operation.seed ++ [.add named]
    let run := performAll model ops (forCompile model config)
    (∃ t, (.add named, t) ∈ issuedAll model ops (forCompile model config) ∧
      (perform model (.add named) t).1 = .flag true) ∧
    (∀ d, .add d ∈ Operation.atomsAll ops → d ≠ named → ∀ r, d.record? model = some r →
      model.Confirms r) ∧
    ∃ records seeded id, sealRecords run.2 = .ok records { run.2 with phase := .sealed } ∧
      performAll model ((Operation.givenAll ops run.1).map .seed) (forLoad model config') =
        ((Operation.givenAll ops run.1).map fun x => .id (run.2.numbering.id? x), seeded) ∧
      run.2.numbering.id? (.type ty) = some id ∧
      ((∃ done, validateRecords model records seeded = .ok () done ∧
          done.numbering.symbolOf? id = some (.type ty)) ↔
        model.typeOf (naming.rule model component) = some component) := by
  intro named ops run
  obtain ⟨⟨t, issued, told⟩, answered, phase, closed⟩ :=
    reported_after_seeds naming config given linked nested premises limit room
  have again := found_again_iff linked config' rfl issued told answered phase closed
  rw [nested] at again
  exact ⟨⟨t, issued, told⟩, answered, again⟩

end Session

end Provenance
