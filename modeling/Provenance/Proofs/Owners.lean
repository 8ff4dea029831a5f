import Provenance.Proofs.Answers
import Provenance.Proofs.Correspondence
import Provenance.Proofs.Recording
import Provenance.Proofs.Speculation

/-!
Who owns a procedure. The owner is recorded along with a procedure only where it is not known
already, for the record is there to make the owner known. So a replay may bind a procedure of
another owner, unless the owner came in with the procedure or some record ties the two.
-/
namespace Provenance

/-- Records that are confirmed together only where the type owns the procedure. -/
def Ties {T P : Type} (records : List (Record T P)) (owner : T) (p : P) : Prop :=
  .type owner (.ownerOf p) ∈ records ∨
  (∃ index, .procedure p (.declaredBy owner index) ∈ records) ∨
  .check (.skipFrames owner p true) ∈ records ∨
  ∃ beholder index, .procedure p (.staticFromEntry beholder index) ∈ records ∧
    .type owner (.staticFromEntry beholder index) ∈ records

namespace World

variable {w : World} {t : TypeRef} {p : ProcRef}

/-- Whatever a type declares it owns. -/
def Owns (w : World) : Prop := ∀ t, ∀ p ∈ (w.typeDecl t).procedures, (w.procDecl p).owner = t

theorem Owns.modifyType (h : w.Owns) {f : TypeDecl → TypeDecl}
    (same : ∀ d, (f d).procedures = d.procedures) : (w.modifyType t f).Owns := by
  intro u p hp
  rw [typeDecl_modifyType] at hp
  split at hp
  · rw [same] at hp
    exact h u p hp
  · exact h u p hp

theorem Owns.addType (h : w.Owns) {d : TypeDecl} (none : d.procedures = []) :
    (w.addType d).2.Owns := by
  intro u p hp
  rw [typeDecl_addType] at hp
  split at hp
  · rw [show (w.added d).procedures = [] from none] at hp
    cases hp
  · exact h u p hp

theorem Owns.defineProcedure (h : w.Owns) (wf : w.WellFormed) (spec : ProcSpec) :
    (w.defineProcedure spec).2.Owns := by
  obtain ⟨d, slot, howner, heq⟩ := w.defineProcedure_eq spec
  intro u p hp
  rw [heq] at hp ⊢
  show ((w.addProcedure d).procDecl p).owner = u
  have old (hp : p ∈ (w.typeDecl u).procedures) : ((w.addProcedure d).procDecl p).owner = u := by
    have hne : p.index ≠ w.procedures.size := Nat.ne_of_lt ((wf.covers u).procedures p hp)
    rw [procDecl_addProcedure, if_neg hne]
    exact h u p hp
  rw [typeDecl_modifyType] at hp
  split at hp
  · rename_i hu
    rcases List.mem_append.mp hp with hp | hp
    · exact old hp
    · rw [List.mem_singleton.mp hp, procDecl_addProcedure, if_pos rfl, howner, hu.1]
  · exact old hp

theorem Owns.arrayOf (h : w.Owns) (t : TypeRef) : (w.arrayOf t).2.Owns := by
  rw [World.arrayOf]
  split
  · exact h
  · exact (h.addType rfl).modifyType fun _ => rfl

theorem Owns.rename (h : w.Owns) (t : TypeRef) (name : String) : (w.rename t name).Owns := by
  intro u p hp
  rw [typeDecl_rename] at hp
  split at hp
  · exact h u p hp
  · exact h u p hp

theorem Owns.setMaySkipFrames (h : w.Owns) (p : ProcRef) (value : Bool) :
    (w.setMaySkipFrames p value).Owns := by
  intro u q hq
  rw [World.setMaySkipFrames, procDecl_modifyProcedure]
  split
  · exact h u q hq
  · exact h u q hq

theorem Built.owns (h : w.Built) : w.Owns := by
  induction h with
  | fresh => rintro ⟨_ | _ | n⟩ p hp <;> cases hp
  | newContext _ ih => exact ih
  | defineType _ _ _ _ ih => exact ih.addType rfl
  | arrayOf t _ _ ih => exact ih.arrayOf t
  | rename t name _ _ ih => exact ih.rename t name
  | markInitialized | addEntry => exact Owns.modifyType ‹_› fun _ => rfl
  | defineProcedure spec built _ ih => exact ih.defineProcedure built.wellFormed spec
  | setMaySkipFrames p value _ _ ih => exact ih.setMaySkipFrames p value

/-- The static type of an entry that names a static procedure is the owner of that. -/
theorem entryStaticType_of_entryProcedure {index : UInt32}
    (hp : w.entryProcedure t index .static = some p) :
    w.entryStaticType t index = some (w.procDecl p).owner := by
  obtain ⟨e, he, hrest⟩ := Option.bind_eq_some_iff.mp hp
  split at hrest
  · split at hrest
    · rename_i hstatic
      subst hstatic
      rw [entryStaticType, he]
      simp [hp]
    · cases hrest
  · cases hrest

/-- What ties a procedure to a type is confirmed only where the type owns the procedure. -/
theorem Built.owner_of_ties (h : w.Built) {σ : Assignment} {records : List SealedRecord}
    {ownerId id : SymbolId} (ties : Ties records ownerId id)
    (confirmed : ∀ r ∈ records, ∃ live, r.under σ = some live ∧ w.model.Confirms live) :
    ∃ p, σ id = some (.procedure p) ∧ σ ownerId = some (.type (w.model.ownerOf p)) := by
  rcases ties with hmem | ⟨index, hmem⟩ | hmem | ⟨beholder, index, hmem, hmem'⟩
  · obtain ⟨owner, rule, howner, hrule, htype⟩ := Model.confirmed_type (confirmed _ hmem)
    obtain ⟨p, hp, hrule⟩ := Option.bind_eq_some_iff.mp hrule
    cases hrule
    cases htype
    exact ⟨p, Assignment.procedure_eq_some.mp hp, howner⟩
  · obtain ⟨p, rule, hp, hrule, hprocedure⟩ := Model.confirmed_procedure (confirmed _ hmem)
    obtain ⟨owner, howner, hrule⟩ := Option.bind_eq_some_iff.mp hrule
    cases hrule
    have hdeclared : w.model.ownerOf p = owner :=
      h.owns owner p (List.mem_of_getElem? hprocedure)
    exact ⟨p, hp, by rw [hdeclared, ← Assignment.type_eq_some, howner]⟩
  · obtain ⟨c, hc, satisfied⟩ := Model.confirmed_check (confirmed _ hmem)
    obtain ⟨p, hp, hrest⟩ := Option.bind_eq_some_iff.mp hc
    obtain ⟨owner, howner, hc⟩ := Option.bind_eq_some_iff.mp hrest
    cases hc
    have hskips : w.maySkipFrames p owner = true := satisfied
    have hsame : w.model.ownerOf p = owner := by
      simp only [maySkipFrames, Bool.and_eq_true, decide_eq_true_eq] at hskips
      exact hskips.1
    exact ⟨p, Assignment.procedure_eq_some.mp hp, by rw [hsame, ← Assignment.type_eq_some, howner]⟩
  · obtain ⟨p, rule, hp, hrule, hprocedure⟩ := Model.confirmed_procedure (confirmed _ hmem)
    obtain ⟨owner, rule', howner, hrule', htype⟩ := Model.confirmed_type (confirmed _ hmem')
    obtain ⟨b, hb, hrule⟩ := Option.bind_eq_some_iff.mp hrule
    obtain ⟨b', hb', hrule'⟩ := Option.bind_eq_some_iff.mp hrule'
    cases hrule
    cases hrule'
    cases Option.some.inj (hb.symm.trans hb')
    have hstatic := entryStaticType_of_entryProcedure hprocedure
    rw [show w.entryStaticType b index = some owner from htype] at hstatic
    cases hstatic
    exact ⟨p, hp, howner⟩

variable {owner : TypeRef} {name signature : String} {index : UInt32}

theorem typeByName_of_named (hname : w.named name = [owner])
    (same : w.contextOf owner = w.contextOf t) : w.typeByName t name = some owner := by
  simp [typeByName, hname, same]

/-- The type that an entry names is the first to be searched. -/
theorem entryProcedure_of_declared {ownerName : String} {dispatch : Dispatch}
    (hentry : w.entry t index = some (.procedure ownerName name signature dispatch))
    (howner : w.typeByName t ownerName = some owner)
    (hdeclared : w.declared name signature (fun d => d.isStatic == (dispatch = .static)) owner =
      some p) : w.entryProcedure t index dispatch = some p := by
  have hchain : ∃ above, w.superChain owner = owner :: above := by
    rw [superChain]
    exact ⟨_, rfl⟩
  obtain ⟨above, habove⟩ := hchain
  rw [entryProcedure, hentry]
  simp [howner, findProcedure, searchOrder, habove, hdeclared]

/-- A world in which the root refers, by the name of the owner, to a static procedure. -/
def withStatic (owner : TypeRef) (ownerName : String) : World :=
  ((fresh.defineProcedure ⟨owner, "run", "()V", true, false, false, false⟩).2.addEntry ⟨0⟩
    (.procedure ownerName "run" "()V" .static)).2

theorem built_withStatic (name : String) (howner : fresh.Has (.type owner)) :
    (withStatic owner name).Built := by
  refine .addEntry ⟨0⟩ _ (.defineProcedure _ .fresh howner) ?_
  exact (Built.defineProcedure _ .fresh howner).wellFormed.rootType

/-- Only two types of a fresh world have a name, so either is found by its own. -/
theorem entryProcedure_withStatic
    (h : owner = ⟨0⟩ ∧ name = "Object" ∨ owner = ⟨1⟩ ∧ name = "Type") :
    (withStatic owner name).entryProcedure ⟨0⟩ 0 .static = some ⟨0⟩ := by
  have hnames (other : String) : (withStatic owner name).named other =
      ((empty.addName "Object" ⟨0⟩).addName "Type" ⟨1⟩).named other := rfl
  have hnone (other : String) : empty.named other = [] := by simp [named, empty]
  have hnamed : (withStatic owner name).named name = [owner] := by
    rcases h with ⟨rfl, rfl⟩ | ⟨rfl, rfl⟩
    · simp [hnames, named_addName, hnone]
    · simp [hnames, named_addName, hnone]
  rcases h with ⟨rfl, rfl⟩ | ⟨rfl, rfl⟩
  · exact entryProcedure_of_declared rfl (typeByName_of_named hnamed rfl) rfl
  · exact entryProcedure_of_declared rfl (typeByName_of_named hnamed rfl) rfl

end World

namespace Session

variable {model : Model} {allowed : LiveRecord → Prop} {seeds given : List Symbol}
  {s s' : Session} {p : ProcRef}

/-- Why there may be no record of the owner of a procedure: it was known before the procedure,
or it will never be known. -/
def Accounted (model : Model) (s : Session) (p : ProcRef) : Prop :=
  .type (model.ownerOf p) (.ownerOf p) ∈ s.ledger.records ∨
  (∃ ownerId id, s.numbering.id? (.type (model.ownerOf p)) = some ownerId ∧
    s.numbering.id? (.procedure p) = some id ∧ ownerId.toNat < id.toNat) ∨
  s.numbering.id? (.type (model.ownerOf p)) = none ∧ s.numbering.next = none

theorem Accounted.kept (h : Accounted model s p)
    (records : ∀ r ∈ s.ledger.records, r ∈ s'.ledger.records)
    (ids : ∀ x id, s.numbering.id? x = some id → s'.numbering.id? x = some id)
    (supply : s.numbering.next = none → s'.numbering = s.numbering) : Accounted model s' p := by
  rcases h with hmem | ⟨ownerId, id, howner, hid, hlt⟩ | ⟨unknown, empty⟩
  · exact .inl (records _ hmem)
  · exact .inr (.inl ⟨ownerId, id, ids _ _ howner, ids _ _ hid, hlt⟩)
  · rw [← supply empty] at unknown empty
    exact .inr (.inr ⟨unknown, empty⟩)

theorem mem_records_insert {l : Ledger} {r r' : LiveRecord} (h : r' ∈ l.records) :
    r' ∈ (l.insert r).2.records := by
  rw [Ledger.records_insert]
  split
  · exact h
  · exact List.mem_append_left _ h

theorem id?_derived_of_new {r : LiveRecord} {x y : Symbol} {id other : SymbolId}
    (new : s.numbering.id? x = none) (hy : s.numbering.id? y = some other) :
    (s.derived r x id).numbering.id? y = some other := by
  have hne : x ≠ y := by
    rintro rfl
    rw [new] at hy
    cases hy
  rw [derived, Numbering.id?_issue, Numbering.id?_assign, if_neg hne]
  exact hy

theorem known_of_derived {r : LiveRecord} {x y : Symbol} {id : SymbolId} (hne : x ≠ y)
    (hy : ((s.derived r x id).numbering.id? y).isSome) : (s.numbering.id? y).isSome := by
  rwa [derived, Numbering.id?_issue, Numbering.id?_assign, if_neg hne] at hy

/-- A session that records and accounts for the owner of every procedure it has recorded. -/
structure Owned (model : Model) (seeds : List Symbol) (s : Session) : Prop extends
    Recorded model (fun _ => True) seeds s where
  accounted : ∀ p, (s.numbering.id? (.procedure p)).isSome →
    .procedure p ∉ seededWith model seeds → Accounted model s p

namespace Owned

/-- An owner that is known before its procedure has the smaller ID. -/
theorem accounted_of_known (h : Owned model seeds s) {rule : ProcRule TypeRef ProcRef}
    {id : SymbolId} (next : s.numbering.next = some id)
    (known : (s.numbering.id? (.type (model.ownerOf p))).isSome) :
    Accounted model (s.derived (.procedure p rule) (.procedure p) id) p := by
  obtain ⟨ownerId, howner⟩ := Option.isSome_iff_exists.mp known
  obtain ⟨all, lists, -⟩ := h.lists
  have hlt : ownerId.toNat - 1 < all.length :=
    (List.getElem?_eq_some_iff.mp (lists.getElem?_of_id? howner)).1
  have hid := lists.next_some id next
  refine .inr (.inl ⟨ownerId, id, ?_, id?_derived_self _ _ _ _, by omega⟩)
  rw [derived, Numbering.id?_issue, Numbering.id?_assign, if_neg (by simp)]
  exact howner

/-- A procedure that is recorded alone has no owner to be recorded. -/
theorem accounted_of_settled (h : Owned model seeds s) {rule : ProcRule TypeRef ProcRef}
    {id : SymbolId} (next : s.numbering.next = some id)
    (recorded : Recorded model (fun _ => True) seeds
      (s.derived (.procedure p rule) (.procedure p) id))
    (settled : let s' := s.derived (.procedure p rule) (.procedure p) id
      (s'.numbering.id? (.type (model.ownerOf p))).isSome ∨
        s'.ledger.contains (.type (model.ownerOf p) (.ownerOf p)) = true ∨
        s'.numbering.next = none) :
    Accounted model (s.derived (.procedure p rule) (.procedure p) id) p := by
  rcases settled with known | contained | empty
  · exact h.accounted_of_known next (known_of_derived (by simp) known)
  · exact .inl ((recorded.faithful _).mp contained)
  · cases howner : s.numbering.id? (.type (model.ownerOf p)) with
    | some ownerId => exact h.accounted_of_known next (by rw [howner]; rfl)
    | none =>
      refine .inr (.inr ⟨?_, empty⟩)
      rw [derived, Numbering.id?_issue, Numbering.id?_assign, if_neg (by simp), howner]

theorem entry (h : Owned model seeds s) (hentry : Entry model (fun _ => True) s s') :
    Owned model seeds s' := by
  have recorded := h.toRecorded.entry (fun _ _ => trivial) hentry
  refine { recorded with accounted := fun q hq unseeded => ?_ }
  have taken {id : SymbolId} (next : s.numbering.next = some id) {n : Numbering} :
      s.numbering.next = none → n = s.numbering := by
    intro empty
    rw [next] at empty
    cases empty
  cases hentry with
  | again =>
    exact (h.accounted q hq unseeded).kept (fun _ => mem_records_insert) (fun _ _ => id)
      fun _ => rfl
  | @type ty rule id _ _ _ _ _ new next =>
    rw [numbering_chained] at hq
    refine (h.accounted q (known_of_derived (by simp) hq) unseeded).kept ?_ ?_ (taken next)
    · rw [h.records_chained new]
      exact fun _ => List.mem_append_left _
    · rw [numbering_chained]
      exact fun _ _ => id?_derived_of_new new
  | @procedure p rule id _ _ _ _ _ new next settled =>
    by_cases hp : p = q
    · subst hp
      exact h.accounted_of_settled next recorded settled
    · have known := known_of_derived (by simpa using hp) hq
      exact (h.accounted q known unseeded).kept (fun _ => mem_records_insert)
        (fun _ _ => id?_derived_of_new new) (taken next)
  | @owned p rule id ownerId ok phase closed fresh premises new next owner =>
    obtain ⟨-, new', next'⟩ := owner
    have hmove : Move (fun _ => True) [] s (s.derived (.procedure p rule) (.procedure p) id) :=
      .derive ok phase closed fresh premises rfl new next
    have hrecords : (chained model (model.ownerOf p)
        ((s.derived (.procedure p rule) (.procedure p) id).derived
          (.type (model.ownerOf p) (.ownerOf p)) (.type _) ownerId)).ledger.records = _ :=
      (h.toRecorded.move hmove).records_chained new' ownerId
    by_cases hp : p = q
    · subst hp
      refine .inl ?_
      rw [hrecords]
      exact List.mem_append_right _ List.mem_cons_self
    · rw [numbering_chained] at hq
      have known := known_of_derived (by simpa using hp) (known_of_derived (by simp) hq)
      refine (h.accounted q known unseeded).kept ?_ ?_ (taken next)
      · rw [hrecords]
        exact fun _ hr => List.mem_append_left _ (mem_records_insert hr)
      · rw [numbering_chained]
        exact fun _ _ hy => id?_derived_of_new new' (id?_derived_of_new new hy)

theorem quiet (h : Owned model seeds s) (hquiet : Quiet given s s') :
    Owned model (seeds ++ given) s' := by
  have recorded := h.toRecorded.move (hquiet.mono fun _ _ => trivial)
  refine { recorded with accounted := fun q hq unseeded => ?_ }
  -- As long as nothing is recorded only seeds are known.
  have early (hempty : s'.ledger.records = []) : Accounted model s' q := by
    obtain ⟨known, lists, derives⟩ := recorded.lists
    rw [hempty] at derives
    cases derives
    exact absurd (lists.mem_iff.mpr hq) unseeded
  cases hquiet with
  | reseed hearly | seed _ hearly =>
    have hempty : s.ledger.records = [] := records_of_early hearly
    exact early hempty
  | confirm ok | derive ok => cases ok
  | region | «sealed» =>
    rw [List.append_nil] at unseeded
    exact h.accounted q hq unseeded
  | bind phase | validated phase | reject phase => exact absurd phase h.phase

theorem of_run {config : Config} {ops : List Operation} {outcomes : List Outcome}
    (run : performAll model ops (forCompile model config) = (outcomes, s)) :
    Owned model (Operation.givenAll ops outcomes) s := by
  have invariant : Invariant model (fun _ => True) (Owned model) := ⟨entry, quiet⟩
  have start : Owned model [] (forCompile model config) :=
    { Recorded.forCompile model _ config with
      accounted := fun p hp unseeded =>
        absurd ((lists_start model config .building).mem_iff.mpr hp) unseeded }
  have h := invariant.performAll (fun _ _ => trivial) ops (fun _ _ _ _ => trivial) start
  rw [run] at h
  exact h

/-- An owner that became known after its procedure is tied to it. -/
theorem ties_of_later (h : Owned model seeds s) {ownerId id : SymbolId}
    (howner : s.numbering.id? (.type (model.ownerOf p)) = some ownerId)
    (hid : s.numbering.id? (.procedure p) = some id)
    (unseeded : .procedure p ∉ seededWith model seeds) (later : id.toNat < ownerId.toNat) :
    Ties (s.ledger.records.map s.numbering.sealed) ownerId id := by
  rcases h.accounted p (by rw [hid]; rfl) unseeded with
    hmem | ⟨_, _, howner', hid', hlt⟩ | ⟨hnone, -⟩
  · refine .inl ?_
    have hsealed := List.mem_map_of_mem (f := s.numbering.sealed) hmem
    rw [← Numbering.idOf_of_id? howner, ← Numbering.idOf_of_id? hid]
    exact hsealed
  · rw [howner] at howner'
    rw [hid] at hid'
    cases howner'
    cases hid'
    omega
  · rw [howner] at hnone
    cases hnone

end Owned

/-- A procedure of the root that is reported to a new session is recorded alone, and the list
is replayed on any world that confirms the record, to the same symbols. -/
theorem root_procedure_replayed {w w' : World} {rule : ProcRule TypeRef ProcRef}
    (unsigned : rule.isBySignature = false) (owner : w.model.ownerOf p = World.rootType)
    (premises : ∀ x ∈ (Record.procedure p rule).premises, x ∈ [.type ⟨0⟩, .type ⟨1⟩])
    (confirmed : w'.model.Confirms (.procedure p rule)) :
    let s := (performAll w.model [.add (.procedure (some p) rule unsigned)]
      (forCompile w.model default)).2
    ∃ s' done id ownerId, sealRecords s = .ok [s.numbering.sealed (.procedure p rule)] s' ∧
      s.numbering.id? (.procedure p) = some id ∧
      s.numbering.id? (.type (w.model.ownerOf p)) = some ownerId ∧
      validateRecords w'.model [s.numbering.sealed (.procedure p rule)]
        (forLoad w'.model default) = .ok () done ∧
      done.numbering.symbolOf? id = some (.procedure p) ∧
      done.numbering.symbolOf? ownerId = some (.type World.rootType) := by
  intro s
  have start : (forCompile w.model default).numbering.Lists [.type ⟨0⟩, .type ⟨1⟩] :=
    lists_start w.model default .building
  have unknown : .procedure p ∉ [Operand.type (P := ProcRef) (⟨0⟩ : TypeRef), .type ⟨1⟩] := by simp
  have new := start.not_mem_iff.mp unknown
  have recorded := Recorded.forCompile w.model (fun _ => True) default
  obtain ⟨next, hnext, -⟩ := start.exists_next (by decide)
  have hs : s = (forCompile w.model default).derived (.procedure p rule) (.procedure p) next := by
    show (perform w.model (.add (.procedure (some p) rule unsigned)) _).2 = _
    rw [perform, settle_snd]
    refine recorded.leaves_add_procedure rfl rfl (fun x hx => start.mem_iff.mp (premises x hx))
      new hnext ?_
    rw [owner, ← start.mem_iff]
    exact List.mem_cons_self
  have records : s.ledger.records = [.procedure p rule] := by
    rw [hs, records_derived (recorded.fresh rfl new)]
    rfl
  have sealing := (Owned.of_run (s := s) rfl).sealRecords_eq
    (show s.phase = .building by rw [hs]; rfl) (by rw [hs]; rfl)
  rw [records] at sealing
  have lists : s.numbering.Lists ([.type ⟨0⟩, .type ⟨1⟩] ++ [.procedure p]) := by
    rw [hs]
    exact start.issue new hnext
  have derives : Derives [.type ⟨0⟩, .type ⟨1⟩] [.procedure p rule]
      ([.type ⟨0⟩, .type ⟨1⟩] ++ [.procedure p]) := by
    have learned : (Record.procedure p rule).learned [.type ⟨0⟩, .type ⟨1⟩] = _ :=
      learn_of_not_mem unknown
    rw [← learned]
    exact .cons premises (.nil _)
  obtain ⟨done, replayed, -, -, hdone⟩ := replay_of_derives (World.alike w w') lists derives
    (fun r hr => by rwa [List.mem_singleton.mp hr, World.record_alike]) rfl
    (lists_start w'.model default .loading)
  obtain ⟨id, hid, htoNat⟩ := lists.id?_of_getElem? (i := 2) rfl
  obtain ⟨ownerId, howner, hownerNat⟩ := lists.id?_of_getElem? (i := 0) rfl
  refine ⟨_, done, id, ownerId, sealing, hid, owner ▸ howner, replayed, ?_, ?_⟩
  · rw [hdone, Assignment.ofList, htoNat]
    rfl
  · rw [hdone, Assignment.ofList, hownerNat]
    rfl

/-- Whatever was done to a new session, and whatever program replays the sealed list to its end:
a procedure that was recorded there stands, under its ID, for one that is owned by what the ID
of its owner stands for. This holds where the owner became known after the procedure, and where
records tie the two; an owner that was known before is not recorded again. -/
theorem validated_procedures_keep_their_owner {w w' : World} {config : Config}
    {ops : List Operation} {outcomes : List Outcome} {records : List SealedRecord}
    {ownerId id : SymbolId} (built : w'.Built)
    (run : performAll w.model ops (forCompile w.model config) = (outcomes, s))
    (sealing : sealRecords s = .ok records s')
    (hid : s.numbering.id? (.procedure p) = some id)
    (unseeded : .procedure p ∉ seededWith w.model (Operation.givenAll ops outcomes))
    (howner : s.numbering.id? (.type (w.model.ownerOf p)) = some ownerId)
    (tied : id.toNat < ownerId.toNat ∨ Ties records ownerId id) :
    ∀ t done, validateRecords w'.model records t = .ok () done →
      ∃ p', done.numbering.symbolOf? id = some (.procedure p') ∧
        done.numbering.symbolOf? ownerId = some (.type (w'.model.ownerOf p')) := by
  intro t done replayed
  have owned := Owned.of_run run
  obtain ⟨phase, closed⟩ := of_sealRecords sealing
  rw [owned.sealRecords_eq phase closed] at sealing
  cases sealing
  have ties : Ties (s.ledger.records.map s.numbering.sealed) ownerId id :=
    tied.elim (owned.ties_of_later howner hid unseeded) fun ties => ties
  exact built.owner_of_ties ties (replayed_of_validateRecords replayed).confirmed

/-- A procedure that was found among those its owner declares. -/
theorem validated_procedures_keep_their_owner_of_declared :
    let w := World.withStatic ⟨0⟩ "Object"
    let ops : List Operation := [.add (.procedure (some ⟨0⟩) (.declaredBy ⟨0⟩ 0) rfl)]
    let run := performAll w.model ops (forCompile w.model default)
    ∃ records s' id ownerId done p', w.Built ∧ sealRecords run.2 = .ok records s' ∧
      run.2.numbering.id? (.procedure ⟨0⟩) = some id ∧
      .procedure ⟨0⟩ ∉ seededWith w.model (Operation.givenAll ops run.1) ∧
      run.2.numbering.id? (.type (w.model.ownerOf ⟨0⟩)) = some ownerId ∧
      Ties records ownerId id ∧
      validateRecords w.model records (forLoad w.model default) = .ok () done ∧
      done.numbering.symbolOf? id = some (.procedure p') ∧
      done.numbering.symbolOf? ownerId = some (.type (w.model.ownerOf p')) := by
  intro w ops run
  have built : w.Built := World.built_withStatic _ (by decide)
  have unseeded : .procedure ⟨0⟩ ∉ seededWith w.model (Operation.givenAll ops run.1) := by decide
  obtain ⟨s', done, id, ownerId, sealing, hid, howner, replayed, -, -⟩ :=
    root_procedure_replayed (w := w)
      (show (ProcRule.declaredBy ⟨0⟩ 0).isBySignature = false from rfl) rfl (by decide)
      (show w.model.procedureOf _ = some ⟨0⟩ from rfl)
  have hroot : run.2.numbering.id? (.type ⟨0⟩) = some ownerId := howner
  have hsealed (n : Numbering) : n.sealed (.procedure ⟨0⟩ (.declaredBy ⟨0⟩ 0)) =
      .procedure (n.idOf (.procedure ⟨0⟩)) (.declaredBy (n.idOf (.type ⟨0⟩)) 0) := rfl
  rw [hsealed, Numbering.idOf_of_id? hid, Numbering.idOf_of_id? hroot] at sealing replayed
  have ties : Ties [.procedure id (.declaredBy ownerId 0)] ownerId id :=
    .inr (.inl ⟨0, List.mem_singleton_self _⟩)
  obtain ⟨p', hprocedure, htype⟩ := validated_procedures_keep_their_owner built rfl sealing hid
    unseeded howner (.inr ties) _ done replayed
  exact ⟨_, s', id, ownerId, done, p', built, sealing, hid, unseeded, howner, ties, replayed,
    hprocedure, htype⟩

/-- The root had declared the procedure, and later another type does. As the owner was known
from the start, no record tells of it, and the list is replayed to its end. -/
theorem owner_changes_where_known_before :
    let w := World.withStatic ⟨0⟩ "Object"
    let w' := World.withStatic ⟨1⟩ "Type"
    let run := performAll w.model
      [.add (.procedure (some ⟨0⟩) (.staticFromEntry ⟨0⟩ 0) rfl)] (forCompile w.model default)
    w.Built ∧ w'.Built ∧ w.model.Confirms (.procedure ⟨0⟩ (.staticFromEntry ⟨0⟩ 0)) ∧
      .procedure ⟨0⟩ ∉ seededWith w.model (Operation.givenAll [.add
        (.procedure (some ⟨0⟩) (.staticFromEntry ⟨0⟩ 0) rfl)] run.1) ∧
      ∃ records s' done id ownerId p', sealRecords run.2 = .ok records s' ∧
        run.2.numbering.id? (.procedure ⟨0⟩) = some id ∧
        run.2.numbering.id? (.type (w.model.ownerOf ⟨0⟩)) = some ownerId ∧
        validateRecords w'.model records (forLoad w'.model default) = .ok () done ∧
        done.numbering.symbolOf? id = some (.procedure p') ∧
        done.numbering.symbolOf? ownerId ≠ some (.type (w'.model.ownerOf p')) := by
  intro w w' run
  have howner : World.fresh.Has (.type ⟨0⟩) ∧ World.fresh.Has (.type ⟨1⟩) := by decide
  have confirmed : w.model.Confirms (.procedure ⟨0⟩ (.staticFromEntry ⟨0⟩ 0)) :=
    World.entryProcedure_withStatic (.inl ⟨rfl, rfl⟩)
  have confirmed' : w'.model.Confirms (.procedure ⟨0⟩ (.staticFromEntry ⟨0⟩ 0)) :=
    World.entryProcedure_withStatic (.inr ⟨rfl, rfl⟩)
  obtain ⟨s', done, id, ownerId, sealing, hid, hownerId, replayed, hprocedure, htype⟩ :=
    root_procedure_replayed (w := w) rfl rfl (by decide) confirmed'
  refine ⟨World.built_withStatic _ howner.1, World.built_withStatic _ howner.2, confirmed,
    by decide, _, s', done, id, ownerId, ⟨0⟩, sealing, hid, hownerId, replayed, hprocedure, ?_⟩
  rw [htype]
  decide

end Session

end Provenance
