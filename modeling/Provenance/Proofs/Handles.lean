import Provenance.Artifact.Basic
import Provenance.Proofs.Mirroring

/-!
Handles leave no trace in an artifact. A run on one program and the renamed run on another that
is like it stay in step: each operation has the renamed outcome, and where the one session can
be sealed the other can, with the same list. The order of handles, by which records are kept and
found, has no part in that, for the renaming need not keep it.
-/
namespace Provenance.Session

variable {model model' : Model} {s s' t : Session}

/-- The bytes of the artifact of a session, if it can be sealed. -/
def artifact (s : Session) : Option (List UInt8) :=
  match sealRecords s with
  | .ok records _ => some (Artifact.encode records)
  | .error .. => none

/-- An outcome and the renamed outcome, with sessions of which the second is the renamed of the
first. -/
structure InStep (φ : Likeness model model') (first second : Outcome × Session) : Prop where
  outcome : second.1 = φ.outcome first.1
  mirrors : Mirrors φ first.2 second.2

section Sealing

variable {φ : Likeness model model'} {allowed : LiveRecord → Prop} {seeds : List Symbol}

/-- Where all that records speak of is known, so is all that the renamed records speak of. -/
theorem Mirrors.known_operands (h : Mirrors φ s s')
    (known : ∀ r ∈ s.ledger.records, ∀ x ∈ r.operands, (s.numbering.id? x).isSome) :
    ∀ r ∈ s'.ledger.records, ∀ x ∈ r.operands, (s'.numbering.id? x).isSome := by
  rw [h.ledger.records_eq]
  intro r' hr' x' hx'
  obtain ⟨r, hr, rfl⟩ := List.mem_map.mp hr'
  obtain ⟨x, hx, rfl⟩ := Record.mem_operands_map.mp hx'
  rw [show s'.numbering.id? (Operand.map φ.type φ.procedure x) = s.numbering.id? x from
    h.numbering.id?_eq (h.ledger.covers r hr x hx)]
  exact known r hr x hx

theorem Mirrors.sealed_eq (h : Mirrors φ s s') :
    s'.ledger.records.map s'.numbering.sealed = s.ledger.records.map s.numbering.sealed := by
  rw [h.ledger.records_eq, List.map_map]
  exact List.map_congr_left fun r hr => h.numbering.sealed_eq (h.ledger.covers r hr)

theorem Parallel.sealRecords (h : Mirrors φ s s') (records : Records model allowed seeds s) :
    Parallel φ id (sealRecords s) (Session.sealRecords s') := by
  by_cases hp : s.phase = .building
  · have hp' : s'.phase = .building := h.phase.trans hp
    cases hr : s.region.isOpen with
    | true =>
      rw [sealRecords_of_open hp hr, sealRecords_of_open hp' (by rw [h.region, hr]), h.region]
      exact violate h (.openRegions s.region.depth)
    | false =>
      obtain ⟨last, lists, derives⟩ := records.lists
      have known : ∀ r ∈ s.ledger.records, ∀ x ∈ r.operands, (s.numbering.id? x).isSome :=
        fun r hr x hx => lists.mem_iff.mp (derives.mem_of_mem_operands hr x hx)
      rw [records.sealRecords_eq hp hr, sealRecords_of_some hp' (by rw [h.region, hr])
        (mapM_seal?_of_known (h.known_operands known)), h.sealed_eq]
      exact .ok { h with phase := rfl, compiles := by simp }
  · exact refused h .seal (by simpa using hp)

end Sealing

section Running

variable {φ : Likeness model model'}

/-- All records speak of known symbols, as they do in every session that compiles. -/
theorem Reaches.records (h : Reaches s t)
    (records : ∃ seeds, Records model (fun _ => True) seeds s) :
    ∃ seeds, Records model (fun _ => True) seeds t := by
  refine h.keeps (I := fun s => ∃ seeds, Records model (fun _ => True) seeds s) ?_ records
  rintro given s s' ⟨seeds, records⟩ hmove
  exact ⟨seeds ++ given, records.move hmove⟩

/-- A region of its own is opened and closed alike around bodies that are performed in step. -/
theorem inStep_guarded {body : List Operation} (h : Mirrors φ s s')
    (inner : s.phase = .building →
      (performAll model' (φ.operations body) s'.entered).1 =
          φ.outcomes (performAll model body s.entered).1 ∧
        Mirrors φ (performAll model body s.entered).2
          (performAll model' (φ.operations body) s'.entered).2) :
    InStep φ (perform model (.guarded body) s)
      (perform model' (.guarded (φ.operations body)) s') := by
  by_cases hp : s.phase = .building
  · obtain ⟨told, mirrors⟩ := inner hp
    have hcount : s'.entered.region.count = s.entered.region.count := by
      rw [entered, entered, h.region]
    simp only [perform, openGuard_of_building hp, openGuard_of_building (h.phase.trans hp), hcount,
      told]
    have closing := Parallel.closeGuard mirrors s.entered.region.count
    generalize closeGuard _ (performAll model body s.entered).2 = first at closing ⊢
    generalize closeGuard _ (performAll model' (φ.operations body) s'.entered).2 = second
      at closing ⊢
    cases closing with
    | ok mirrors => exact ⟨rfl, mirrors⟩
    | error mirrors => exact ⟨rfl, mirrors⟩
  · obtain ⟨e, he⟩ := openGuard_of_not_building hp
    obtain ⟨e', he'⟩ := openGuard_of_not_building (show s'.phase ≠ .building by rwa [h.phase])
    have turned : Parallel φ id (openGuard s) (openGuard s') :=
      Parallel.refused h .openGuard (by simpa using hp)
    rw [he, he'] at turned
    rw [perform_guarded_of_error he, perform_guarded_of_error he']
    cases turned with
    | error mirrors => exact ⟨rfl, mirrors⟩

theorem Parallel.settle {α : Type} {f : α → α}
    {action action' : Action α} {outcome outcome' : α → Outcome}
    (h : Parallel φ f (action s) (action' s'))
    (told : ∀ a, outcome' (f a) = φ.outcome (outcome a)) :
    InStep φ (settle action outcome s) (Session.settle action' outcome' s') := by
  rw [Session.settle, Session.settle]
  generalize action s = first at h ⊢
  generalize action' s' = second at h ⊢
  cases h with
  | ok mirrors => exact ⟨told _, mirrors⟩
  | error mirrors => exact ⟨rfl, mirrors⟩

/-- What only a session that loads may do is refused to both. -/
theorem inStep_refused {α : Type} {g : Gated} {next next' : Unit → Action α} {outcome : α → Outcome}
    (h : Mirrors φ s s') (told : ∀ a, outcome a = φ.outcome (outcome a)) :
    InStep φ (settle (gate g [.loading] >>= next) outcome s)
      (settle (gate g [.loading] >>= next') outcome s') := by
  have shut : s.phase ∉ [Phase.loading] := by
    have compiles := h.compiles
    intro hp
    rw [List.mem_singleton.mp hp] at compiles
    simp at compiles
  exact Parallel.settle (f := id) (Parallel.refused h g shut) told

mutual

theorem inStep_perform (op : Operation) {s s' : Session} (h : Mirrors φ s s')
    (symbols : ∀ x ∈ op.symbols, φ.Has x)
    (records : ∃ seeds, Records model (fun _ => True) seeds s) :
    InStep φ (perform model op s) (perform model' (φ.operation op) s') := by
  cases op with
  | add d => exact (Parallel.add h symbols).settle fun _ => rfl
  | seed x => exact (Parallel.seed h (symbols x List.mem_cons_self)).settle fun _ => rfl
  | enterRegion => exact (Parallel.enterRegion h).settle fun _ => rfl
  | exitRegion => exact (Parallel.exitRegion h).settle fun _ => rfl
  | guarded body =>
    refine inStep_guarded h fun _ => ?_
    have entered : Mirrors φ s.entered s'.entered :=
      { h with region := congrArg Region.enter h.region }
    exact inStep_performAll body entered symbols
      ((Reaches.region s s.region.enter).records records)
  | isValidated x =>
    exact ⟨congrArg Outcome.flag (h.isValidated_eq (symbols x List.mem_cons_self)), h⟩
  | findId x => exact ⟨congrArg Outcome.id (h.numbering.id?_eq (symbols x List.mem_cons_self)), h⟩
  | requireId x => exact (Parallel.requireId h (symbols x List.mem_cons_self)).settle fun _ => rfl
  | symbolFor id expected presence =>
    exact (Parallel.symbolFor h id expected presence).settle fun _ => rfl
  | typeFor id presence => exact (Parallel.typeFor h id presence).settle fun _ => rfl
  | procedureFor id presence => exact (Parallel.procedureFor h id presence).settle fun _ => rfl
  | contains r => exact ⟨congrArg Outcome.flag (h.ledger.contains_eq symbols), h⟩
  | records => exact ⟨congrArg Outcome.records h.ledger.records_eq, h⟩
  | sealRecords =>
    obtain ⟨seeds, records⟩ := records
    exact (Parallel.sealRecords h records).settle fun _ => rfl
  | validateSymbol | validateRecords => exact inStep_refused h fun _ => rfl
  | validate r =>
    rw [Renaming.operation, perform, perform, validate_eq, validate_eq]
    exact inStep_refused h fun _ => rfl

theorem inStep_performAll (ops : List Operation) {s s' : Session}
    (h : Mirrors φ s s') (symbols : ∀ x ∈ Operation.symbolsAll ops, φ.Has x)
    (records : ∃ seeds, Records model (fun _ => True) seeds s) :
    (performAll model' (φ.operations ops) s').1 = φ.outcomes (performAll model ops s).1 ∧
      Mirrors φ (performAll model ops s).2
        (performAll model' (φ.operations ops) s').2 := by
  cases ops with
  | nil => exact ⟨rfl, h⟩
  | cons op rest =>
    obtain ⟨symbols, later⟩ := List.forall_mem_append.mp symbols
    have first := inStep_perform op h symbols records
    obtain ⟨told, mirrors⟩ := inStep_performAll rest first.mirrors later
      ((Reaches.perform model op s).records records)
    rw [Renaming.operations, performAll_cons, performAll_cons, first.outcome, told]
    exact ⟨rfl, mirrors⟩

end

/-- Two runs of which the second is the renamed of the first, on programs that are alike under the
renaming: step by step the second is answered the renamed of what the first is answered, with the
same flags and IDs and failures of the same kind. If the first can be sealed in the end, so can the
second, with the same list; and their artifacts are the same to the byte. -/
theorem handles_leave_no_trace (φ : Likeness model model') {config : Config}
    {ops : List Operation} {outcomes : List Outcome}
    (symbols : ∀ x ∈ Operation.symbolsAll ops, φ.Has x)
    (run : performAll model ops (forCompile model config) = (outcomes, s)) :
    ∃ s', performAll model' (φ.operations ops) (forCompile model' config) =
        (φ.outcomes outcomes, s') ∧
      (s.phase = .building → s.region.isOpen = false → ∃ records,
        sealRecords s = .ok records { s with phase := .sealed } ∧
        sealRecords s' = .ok records { s' with phase := .sealed }) ∧
      artifact s' = artifact s := by
  have new : ∃ seeds, Records model (fun _ => True) seeds (forCompile model config) :=
    ⟨[], Records.forCompile model _ config⟩
  obtain ⟨seeds, records⟩ := (Reaches.performAll model ops _).records new
  obtain ⟨told, mirrors⟩ := inStep_performAll ops (Mirrors.forCompile φ config) symbols new
  obtain ⟨s', hrun'⟩ :
      ∃ s', (performAll model' (φ.operations ops) (forCompile model' config)).2 = s' := ⟨_, rfl⟩
  rw [run] at told mirrors records
  rw [hrun'] at mirrors
  have sealing := Parallel.sealRecords mirrors records
  refine ⟨s', Prod.ext told hrun', ?_, ?_⟩
  · intro building closed
    rw [records.sealRecords_eq building closed] at sealing ⊢
    rcases sealRecords_cases s' with ⟨records', -, -, hok⟩ | ⟨e, he⟩
    · rw [hok] at sealing ⊢
      cases sealing
      exact ⟨_, rfl, rfl⟩
    · rw [he] at sealing
      cases sealing
  · rw [artifact, artifact]
    generalize sealRecords s = first at sealing ⊢
    generalize sealRecords s' = second at sealing ⊢
    cases sealing with
    | ok => rfl
    | error => rfl

/-- A program of three types and one procedure, and one that has the types in opposite order. -/
theorem handles_leave_no_trace_of_reversed :
    let model := Model.uniform ⟨0⟩ ⟨1⟩ (some ⟨2⟩) (some ⟨0⟩) ⟨List.replicate 32 0, rfl⟩
    let model' := Model.uniform ⟨2⟩ ⟨1⟩ (some ⟨0⟩) (some ⟨4⟩) ⟨List.replicate 32 0, rfl⟩
    let ops : List Operation :=
      [.add (.named (some ⟨2⟩) (.seenBy ⟨0⟩)), .add (.signed (some ⟨0⟩) ⟨2⟩ ⟨0⟩)]
    let ops' : List Operation :=
      [.add (.named (some ⟨0⟩) (.seenBy ⟨2⟩)), .add (.signed (some ⟨4⟩) ⟨0⟩ ⟨2⟩)]
    let run := performAll model ops (forCompile model default)
    let run' := performAll model' ops' (forCompile model' default)
    run.2.phase = .building ∧ run.2.region.isOpen = false ∧
      (artifact run.2).isSome ∧ artifact run'.2 = artifact run.2 := by
  intro model model' ops ops' run run'
  have grows : Grows (fun _ => True) (forCompile model default) run.2 :=
    adds_grow model [.named (some ⟨2⟩) (.seenBy ⟨0⟩), .signed (some ⟨0⟩) ⟨2⟩ ⟨0⟩] _
  have building : run.2.phase = .building := grows.phase
  have closed : run.2.region.isOpen = false := by
    rw [grows.region]
    rfl
  let all : List Symbol := [.type ⟨0⟩, .type ⟨1⟩, .type ⟨2⟩, .procedure ⟨0⟩]
  let φ : Likeness model model' :=
    { type := fun t => ⟨2 - t.index⟩
      procedure := fun _ => ⟨4⟩
      Has := fun x => x ∈ all
      closed :=
        { rootType := by decide
          metaType := by decide
          componentType := by rintro _ _ _ ⟨⟩
          arrayType := by rintro _ _ _ ⟨⟩
          ownerOf := fun _ _ => List.mem_cons_self }
      injective := by decide
      type_rootType := rfl
      type_metaType := rfl
      componentType_type := fun _ _ => rfl
      arrayType_type := fun _ _ => rfl
      ownerOf_procedure := fun _ _ => rfl
      chainDigest_type := fun _ _ => rfl
      typeName_type := fun _ _ => rfl
      procedureName_procedure := fun _ _ => rfl
      procedureSignature_procedure := fun _ _ => rfl }
  have symbols : ∀ x ∈ Operation.symbolsAll ops, φ.Has x := by decide
  have hrun : performAll model ops (forCompile model default) = (run.1, run.2) := rfl
  obtain ⟨s', hrun', seals, same⟩ := handles_leave_no_trace φ symbols hrun
  have hops : φ.operations ops = ops' := rfl
  rw [hops] at hrun'
  obtain ⟨records, hseal, -⟩ := seals building closed
  refine ⟨building, closed, ?_, ?_⟩
  · rw [artifact, hseal]
    rfl
  · rw [show run'.2 = s' from congrArg Prod.snd hrun', same]

end Running

end Provenance.Session
