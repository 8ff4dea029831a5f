import Provenance.Proofs.Lateness
import Provenance.Proofs.Refusing

/-!
Reporting a procedure again after a failure. The first record of a procedure is followed by one of
its owner unless that is known, so once the report is answered yes both are known. But the last ID
may go to the procedure, and then the report fails with the procedure known and the owner not. A
later report finds the procedure known, asks for nothing more and is answered yes.
-/
namespace Provenance.Session

variable {model : Model} {config : Config} {s s' t : Session} {d : Discovery} {op : Operation}
  {p : ProcRef} {past : List (Operation × Session)}

/-- A session that records goes through these phases only. -/
abbrev Compiles (s : Session) : Prop := s.phase ∈ [Phase.building, .sealed]

/-- While a session records, a move gives out the next ID, to a seed or to what a record defines, or
it leaves the numbering as it is. -/
theorem Move.numbering_cases {allowed : LiveRecord → Prop} {given : List Symbol}
    (h : Move allowed given s s') (compiles : s.Compiles) :
    s'.Compiles ∧ (s'.numbering = s.numbering ∨
      ∃ x id, s.numbering.next = some id ∧ s'.numbering = s.numbering.issue x id ∧
        (given = [x] ∨ ∃ r, allowed r ∧ r.defined = some x)) := by
  cases h with
  | region | reseed | confirm => exact ⟨compiles, .inl rfl⟩
  | «sealed» => exact ⟨by simp [Compiles], .inl rfl⟩
  | seed _ _ _ next => exact ⟨compiles, .inr ⟨_, _, next, rfl, .inl rfl⟩⟩
  | derive ok _ _ _ _ defined _ next =>
    exact ⟨compiles, .inr ⟨_, _, next, rfl, .inr ⟨_, ok, defined⟩⟩⟩
  | bind loading | validated loading | reject loading => simp [Compiles, loading] at compiles

theorem Reaches.known (h : Reaches s s') (compiles : s.Compiles) {x : Symbol}
    (known : (s.numbering.id? x).isSome) : (s'.numbering.id? x).isSome := by
  refine (h.keeps (I := fun s => s.Compiles ∧ (s.numbering.id? x).isSome) ?_ ⟨compiles, known⟩).2
  rintro given s s' ⟨compiles, known⟩ hmove
  obtain ⟨compiles, same | ⟨y, id, -, issued, -⟩⟩ := hmove.numbering_cases compiles
  · exact ⟨compiles, by rwa [same]⟩
  · exact ⟨compiles, by rw [issued]; exact isSome_id?_issue id known⟩

theorem Reaches.numbering_eq_of_no_next (h : Reaches s s') (compiles : s.Compiles)
    (empty : s.numbering.next = none) : s'.numbering = s.numbering := by
  refine (h.keeps (I := fun s' => s'.Compiles ∧ s'.numbering = s.numbering) ?_ ⟨compiles, rfl⟩).2
  rintro given s₁ s₂ ⟨compiles, same⟩ hmove
  obtain ⟨compiles, same' | ⟨y, id, next, -⟩⟩ := hmove.numbering_cases compiles
  · exact ⟨compiles, same'.trans same⟩
  · rw [same] at next
    cases empty.symm.trans next

theorem numbering_eq_of_quiet (compiles : s.Compiles) (h : Moves (fun _ => False) [] s s') :
    s'.numbering = s.numbering := by
  refine ((h.invariant (I := fun seeds s' => seeds = [] → s'.Compiles ∧ s'.numbering = s.numbering)
    ?_ fun _ => ⟨compiles, rfl⟩ : [] ++ [] = [] → _) rfl).2
  intro seeds given s₁ s₂ ih hmove none
  obtain ⟨none, nothing⟩ := List.append_eq_nil_iff.mp none
  obtain ⟨compiles, same⟩ := ih none
  obtain ⟨compiles, same' | ⟨y, id, -, -, seed | ⟨r, ok, -⟩⟩⟩ := hmove.numbering_cases compiles
  · exact ⟨compiles, same'.trans same⟩
  · cases nothing.symm.trans seed
  · exact ok.elim

/-- A report that changes something, or runs out of IDs, is heard. -/
theorem heard (acts : (perform model (.add d) s).2 ≠ s ∨
    (perform model (.add d) s).1 = .failed (.refused (.limit .symbolIds))) :
    s.phase = .building ∧ s.region.isOpen = false := by
  by_cases building : s.phase = .building
  · refine ⟨building, Bool.eq_false_iff.mpr fun inside => ?_⟩
    rw [perform_add_of_open model d building inside] at acts
    rcases acts with acts | failed
    · exact acts rfl
    · cases failed
  · have refused : add model d s = .error (s.failing (.wrongPhase (.add d.kind) s.phase)) s :=
      bind_of_error (gate_of_not_mem (by simpa using building))
    rw [perform, settle, refused] at acts
    rcases acts with acts | failed
    · exact absurd rfl acts
    · have other := congrArg Failure.error (Outcome.failed.inj failed)
      rw [error_failing] at other
      cases other

/-- Records of other symbols leave the ID of a procedure, or the want of one, as it is. -/
theorem Entries.procedure_eq {allowed : LiveRecord → Prop} (h : Entries model allowed s s')
    (other : ∀ rule, ¬allowed (.procedure p rule)) :
    s'.numbering.id? (.procedure p) = s.numbering.id? (.procedure p) := by
  have apart {s : Session} {r : LiveRecord} {x : Symbol} {id : SymbolId} (hne : x ≠ .procedure p) :
      (s.derived r x id).numbering.id? (.procedure p) = s.numbering.id? (.procedure p) := by
    rw [Session.derived, Numbering.id?_issue, Numbering.id?_assign, if_neg hne]
  have another {q : ProcRef} {rule : ProcRule TypeRef ProcRef} (ok : allowed (.procedure q rule)) :
      (.procedure q : Symbol) ≠ .procedure p := by
    rintro ⟨⟩
    exact other rule ok
  induction h with
  | refl => rfl
  | step _ entry ih =>
    rw [← ih]
    cases entry with
    | again => rfl
    | type => rw [numbering_chained, apart (by simp)]
    | procedure ok => exact apart (another ok)
    | owned ok => rw [numbering_chained, apart (by simp), apart (another ok)]

/-- The procedure was answered with an ID when it was asked for as a seed. -/
def Seeded (model : Model) (p : ProcRef) (past : List (Operation × Session)) : Prop :=
  ∃ s id, (.seed (.procedure p), s) ∈ past ∧
    (perform model (.seed (.procedure p)) s).1 = .id (some id)

/-- A report of the procedure failed for want of an ID. -/
def RanOut (model : Model) (p : ProcRef) (past : List (Operation × Session)) : Prop :=
  ∃ d rule s, (.add d, s) ∈ past ∧ d.record? model = some (.procedure p rule) ∧
    (perform model (.add d) s).1 = .failed (.refused (.limit .symbolIds))

/-- A session that records, in which a procedure is known with its owner unless it is a seed or a
report of it ran out of IDs. -/
structure Accompanied (model : Model) (p : ProcRef) (past : List (Operation × Session))
    (s : Session) : Prop where
  recorded : ∃ seeds, Recorded model (fun _ => True) seeds s
  compiles : s.Compiles
  owner : (s.numbering.id? (.procedure p)).isSome →
    Seeded model p past ∨ (s.numbering.id? (.type (model.ownerOf p))).isSome ∨ RanOut model p past

theorem Seeded.mono (h : Seeded model p past) (more : List (Operation × Session)) :
    Seeded model p (past ++ more) := by
  obtain ⟨s, id, mem, answered⟩ := h
  exact ⟨s, id, List.mem_append_left _ mem, answered⟩

theorem RanOut.mono (h : RanOut model p past) (more : List (Operation × Session)) :
    RanOut model p (past ++ more) := by
  obtain ⟨d, rule, s, mem, asked, failed⟩ := h
  exact ⟨d, rule, s, List.mem_append_left _ mem, asked, failed⟩

namespace Accompanied

theorem start (model : Model) (config : Config) (p : ProcRef) :
    Accompanied model p [] (forCompile model config) where
  recorded := ⟨[], Recorded.forCompile model _ config⟩
  compiles := List.mem_cons_self
  owner known := by
    have hmem := (lists_start model config .building).mem_iff.mpr known
    simp [seededWith, mem_learn, seeds] at hmem

/-- It suffices to account for a procedure that was not known before. -/
theorem further (h : Accompanied model p past s) (reaches : Reaches s s')
    (more : List (Operation × Session))
    (first : s.numbering.id? (.procedure p) = none → (s'.numbering.id? (.procedure p)).isSome →
      Seeded model p (past ++ more) ∨ (s'.numbering.id? (.type (model.ownerOf p))).isSome ∨
        RanOut model p (past ++ more)) :
    Accompanied model p (past ++ more) s' := by
  obtain ⟨seeds, recorded⟩ := h.recorded
  obtain ⟨given, moves⟩ := id reaches
  refine ⟨⟨_, recorded.moves moves⟩, reaches.compiles h.compiles, fun known => ?_⟩
  cases hid : s.numbering.id? (.procedure p) with
  | none => exact first hid known
  | some id =>
    rcases h.owner (by rw [hid]; rfl) with seeded | owner | ranOut
    · exact .inl (seeded.mono more)
    · exact .inr (.inl (reaches.known h.compiles owner))
    · exact .inr (.inr (ranOut.mono more))

theorem add (h : Accompanied model p past s) (d : Discovery) :
    Accompanied model p (past ++ [(.add d, s)]) (perform model (.add d) s).2 := by
  refine h.further (Reaches.perform model (.add d) s) _ fun unknown known => ?_
  have first : (perform model (.add d) s).2 ≠ s := by
    intro same
    rw [same, unknown] at known
    cases known
  obtain ⟨building, closed⟩ := heard (.inl first)
  by_cases asks : ∃ rule, d.record? model = some (.procedure p rule)
  · obtain ⟨rule, asked⟩ := asks
    have recording : Recording model s := ⟨h.recorded, building, closed⟩
    rcases (recording.ends_add_of_procedure asked).perform with
      ⟨-, -, owner⟩ | ⟨failed, -⟩ | ⟨same, -⟩
    · exact .inr (.inl (owner unknown))
    · exact .inr (.inr ⟨d, rule, s, by simp, asked, failed⟩)
    · exact absurd same first
  · have entries : Entries model (fun r => ∀ rule, r ≠ .procedure p rule) s
        (leaves (Session.add model d) s) :=
      add_entries (fun _ _ _ => nofun) d (fun _ asked rule hr =>
        asks ⟨rule, asked.trans (congrArg some hr)⟩) s
    rw [perform, settle_snd, entries.procedure_eq fun rule ok => ok rule rfl, unknown] at known
    cases known

theorem seed (h : Accompanied model p past s) (x : Symbol) :
    Accompanied model p (past ++ [(.seed x, s)]) (perform model (.seed x) s).2 := by
  refine h.further (Reaches.perform model (.seed x) s) _ fun unknown known => ?_
  rcases perform_seed_same_or_new model x s with same | ⟨id, -, -, heq⟩
  · rw [same, unknown] at known
    cases known
  · by_cases hx : x = .procedure p
    · rw [hx] at heq ⊢
      exact .inl ⟨s, id, by simp, congrArg Prod.fst heq⟩
    · rw [heq, Numbering.id?_issue, Numbering.id?_assign, if_neg hx, unknown] at known
      cases known

theorem quiet (h : Accompanied model p past s) (hquiet : op.isQuiet = true) :
    Accompanied model p (past ++ [(op, s)]) (perform model op s).2 := by
  refine h.further (Reaches.perform model op s) _ fun unknown known => ?_
  have same : (perform model op s).2.numbering = s.numbering :=
    numbering_eq_of_quiet h.compiles (perform_quiet model hquiet s)
  rw [same, unknown] at known
  cases known

end Accompanied

theorem history_accompanied (model : Model) (p : ProcRef) :
    History model (Accompanied model p) where
  plain := by
    intro past op s hplain h
    cases op with
    | add d => exact h.add d
    | seed x => exact h.seed x
    | guarded body => exact absurd rfl (hplain body)
    | _ => exact h.quiet rfl
  opened h := h.further (Reaches.refl _) _ fun unknown known => by
    rw [unknown] at known
    cases known
  region h region := by
    obtain ⟨seeds, recorded⟩ := h.recorded
    exact ⟨⟨_, recorded.move (.region _ region)⟩, h.compiles, h.owner⟩

/-- A report of a procedure that was answered yes has left its record behind. -/
theorem stands_of_flag {rule : ProcRule TypeRef ProcRef}
    (asked : d.record? model = some (.procedure p rule))
    (told : (perform model (.add d) s).1 = .flag true) :
    Stands (.procedure p rule) (perform model (.add d) s).2 := by
  obtain ⟨records, asks, stand⟩ := reported_of_flag told
  refine stand _ ?_
  cases d with
  | named ty | type ty => cases ty <;> cases asked
  | check => cases asked
  | signed | procedure =>
    rw [Discovery.records?, asked] at asks
    · cases asks
      exact List.mem_cons_self
    · rintro _ _ ⟨⟩

/-- Where a report of a procedure ran out of IDs there are none afterwards, and the procedure is
not known, or its owner is not. -/
theorem short_of_limit {rule : ProcRule TypeRef ProcRef}
    (reaches : Reaches (forCompile model config) s)
    (asked : d.record? model = some (.procedure p rule))
    (failed : (perform model (.add d) s).1 = .failed (.refused (.limit .symbolIds))) :
    let s' := (perform model (.add d) s).2
    s'.numbering.next = none ∧ (s'.numbering.id? (.procedure p) = none ∨
      s'.numbering.id? (.type (model.ownerOf p)) = none) := by
  obtain ⟨building, closed⟩ := heard (.inr failed)
  have recording : Recording model s := reaches.recording (.inl rfl) building closed
  rcases (recording.ends_add_of_procedure asked).perform with
    ⟨told, answered, -⟩ | ⟨-, short⟩ | ⟨-, e, objection, answered⟩
  · cases failed.symm.trans answered
  · exact short
  · have same := congrArg Failure.error (Outcome.failed.inj (failed.symm.trans answered))
    rw [error_failing] at same
    cases same
    cases objection

/-- Once a report of a procedure ran out of IDs, the procedure and its owner are never both
known. -/
theorem RanOut.not_both {ops : List Operation} {before later : List (Operation × Session)}
    (h : RanOut model p before)
    (trace : issuedAll model ops (forCompile model config) = before ++ (op, t) :: later)
    (on : Reaches t s') : s'.numbering.id? (.procedure p) = none ∨
      s'.numbering.id? (.type (model.ownerOf p)) = none := by
  obtain ⟨d, rule, u, mem, asked, failed⟩ := h
  have reaches : Reaches (forCompile model config) u :=
    Reaches.issuedAll (by rw [trace]; exact List.mem_append_left _ mem)
  have since : Reaches (perform model (.add d) u).2 s' :=
    (Reaches.of_trace trace mem (by rintro _ ⟨⟩)).trans on
  have compiles : (perform model (.add d) u).2.Compiles :=
    (reaches.trans (Reaches.perform model (.add d) u)).compiles List.mem_cons_self
  obtain ⟨empty, missing⟩ := short_of_limit reaches asked failed
  rwa [since.numbering_eq_of_no_next compiles empty]

/-- When a report of a procedure that is no seed is answered yes, the procedure is known, and so is
its owner unless an earlier report of the procedure ran out of IDs, in which case it is not. -/
theorem told_procedure_has_owner_iff {ops : List Operation}
    {before later : List (Operation × Session)} {rule : ProcRule TypeRef ProcRef}
    (trace : issuedAll model ops (forCompile model config) = before ++ (.add d, t) :: later)
    (asked : d.record? model = some (.procedure p rule))
    (told : (perform model (.add d) t).1 = .flag true) (unseeded : ¬Seeded model p before) :
    let after := (perform model (.add d) t).2
    (after.numbering.id? (.procedure p)).isSome ∧
      ((after.numbering.id? (.type (model.ownerOf p))).isSome ↔ ¬RanOut model p before) := by
  intro after
  have accompanied : Accompanied model p before t :=
    (history_accompanied model p).found (Accompanied.start model config p) trace
  have known : (after.numbering.id? (.procedure p)).isSome :=
    (stands_of_flag asked told).known _ (Record.mem_operands_iff.mpr (.inl rfl))
  refine ⟨known, fun owner ranOut => ?_, fun never => ?_⟩
  · rcases ranOut.not_both trace (Reaches.perform model (.add d) t) with missing | missing
    · rw [missing] at known
      cases known
    · rw [missing] at owner
      cases owner
  · rcases (accompanied.add d).owner known with
      ⟨s, id, mem, answered⟩ | owner | ⟨d', rule', u, mem, asked', failed⟩
    · exact absurd ⟨s, id, by simpa using mem, answered⟩ unseeded
    · exact owner
    · rcases List.mem_append.mp mem with earlier | last
      · exact absurd ⟨d', rule', u, earlier, asked', failed⟩ never
      · cases List.mem_singleton.mp last
        cases told.symm.trans failed

/-- A procedure that is new is recorded first, and then its owner if that is not known. -/
theorem Recording.addProcedure_of_unknown_owner {rule : ProcRule TypeRef ProcRef} {id : SymbolId}
    (h : Recording model s)
    (premises : ∀ x ∈ (Record.procedure p rule).premises, (s.numbering.id? x).isSome)
    (next : s.numbering.next = some id) (new : s.numbering.id? (.procedure p) = none)
    (owner : s.numbering.id? (.type (model.ownerOf p)) = none) :
    let first := s.derived (.procedure p rule) (.procedure p) id
    Recording model first ∧ first.numbering.id? (.type (model.ownerOf p)) = none ∧
      Session.addProcedure model p rule s =
        Session.addType model (model.ownerOf p) (.ownerOf p) first := by
  intro first
  have missing : first.numbering.id? (.type (model.ownerOf p)) = none := by
    show (s.numbering.issue _ id).id? _ = none
    rw [Numbering.id?_issue, Numbering.id?_assign, if_neg nofun]
    exact owner
  have unknown : ¬(first.numbering.id? (.type (model.ownerOf p))).isSome := by simp [missing]
  exact ⟨h.derived rfl premises new next, missing,
    (h.addProcedure_of_next premises new next).trans (if_neg unknown)⟩

/-- Where two IDs are left, a report of a new procedure is answered yes, though the owner is not
known. -/
theorem told_with_new_owner {rule : ProcRule TypeRef ProcRef} {id ownerId : SymbolId}
    (recording : Recording model s) (asked : d.record? model = some (.procedure p rule))
    (premises : ∀ x ∈ (Record.procedure p rule).premises, (s.numbering.id? x).isSome)
    (next : s.numbering.next = some id) (more : id.next? = some ownerId)
    (new : s.numbering.id? (.procedure p) = none)
    (owner : s.numbering.id? (.type (model.ownerOf p)) = none) :
    (perform model (.add d) s).1 = .flag true := by
  obtain ⟨recorded, missing, goesOn⟩ :=
    recording.addProcedure_of_unknown_owner premises next new owner
  obtain ⟨seeds, records⟩ := recorded.recorded
  have ok : addProcedure model p rule s = .ok () _ :=
    goesOn.trans (addType_of_fresh recorded.closed (premises_ownerOf _ p rule s id) missing
      (records.fresh rfl missing) more)
  rw [perform, settle, recording.add_of_procedure asked, bind_of_ok ok]
  rfl

/-- After a seed, the first report of a procedure, which makes its owner known. -/
theorem told_procedure_has_owner_iff_of_new_owner :
    let model := { Model.uniform ⟨0⟩ ⟨1⟩ none none ⟨List.replicate 32 0, rfl⟩ with
      ownerOf := fun _ => ⟨7⟩ }
    let s₀ := forCompile model default
    let ops := [Operation.seed (.type ⟨5⟩)]
    let report := Discovery.procedure (some ⟨0⟩) (.declaredBy ⟨5⟩ 0) rfl
    let t := (performAll model ops s₀).2
    let before := [(Operation.seed (.type ⟨5⟩), s₀)]
    let after := (perform model (.add report) t).2
    issuedAll model (ops ++ [.add report]) s₀ = before ++ (.add report, t) :: [] ∧
      report.record? model = some (.procedure ⟨0⟩ (.declaredBy ⟨5⟩ 0)) ∧
      (perform model (.add report) t).1 = .flag true ∧ ¬Seeded model ⟨0⟩ before ∧
      t.numbering.id? (.type (model.ownerOf ⟨0⟩)) = none ∧
      (after.numbering.id? (.procedure ⟨0⟩)).isSome ∧
      (after.numbering.id? (.type (model.ownerOf ⟨0⟩))).isSome := by
  intro model s₀ ops report t before after
  obtain ⟨t', hseeds, building, seedable⟩ := seeds_of_seedable model [.type ⟨5⟩]
    (seedable_start model default (by decide : Phase.building ∈ _)) (by decide)
  have ht : t = t' := congrArg Prod.snd hseeds
  rw [← ht] at building seedable
  have lists : t.numbering.Lists [.type ⟨0⟩, .type ⟨1⟩, .type ⟨5⟩] := seedable.lists
  have closed : t.region.isOpen = false :=
    congrArg Region.isOpen (region_of_seeds model [.type ⟨5⟩] s₀)
  have recording : Recording model t :=
    (Reaches.performAll model ops s₀).recording (.inl rfl) building closed
  obtain ⟨id, next, -⟩ := lists.exists_next (by decide)
  obtain ⟨ownerId, more⟩ : ∃ ownerId, id.next? = some ownerId := by
    refine Option.ne_none_iff_exists'.mp fun last => ?_
    rw [SymbolId.next?_eq_none, lists.next_some id next] at last
    cases last
  have asked : report.record? model = some (.procedure ⟨0⟩ (.declaredBy ⟨5⟩ 0)) := rfl
  have premises : ∀ x ∈ (.procedure ⟨0⟩ (.declaredBy ⟨5⟩ 0) : LiveRecord).premises,
      (t.numbering.id? x).isSome := by
    have beholder : (t.numbering.id? (.type ⟨5⟩)).isSome := lists.mem_iff.mp (by decide)
    simpa [Record.premises_procedure, ProcRule.operands] using beholder
  have owner : t.numbering.id? (.type ⟨7⟩) = none := lists.not_mem_iff.mp (by decide)
  have told : (perform model (.add report) t).1 = .flag true :=
    told_with_new_owner recording asked premises next more (lists.not_mem_iff.mp (by decide)) owner
  have trace : issuedAll model (ops ++ [.add report]) s₀ = before ++ (.add report, t) :: [] := rfl
  have unseeded : ¬Seeded model ⟨0⟩ before := by
    rintro ⟨s, id, mem, -⟩
    simp [before] at mem
  have never : ¬RanOut model ⟨0⟩ before := by
    rintro ⟨d, rule, s, mem, -⟩
    simp [before] at mem
  obtain ⟨known, iff⟩ := told_procedure_has_owner_iff trace asked told unseeded
  exact ⟨trace, asked, told, unseeded, owner, known, iff.mpr never⟩

/-- Where the last ID goes to a procedure, and its owner is not known, the report fails. Made once
more it is answered yes, and the owner is not known then either. -/
theorem told_without_owner_of_last {rule : ProcRule TypeRef ProcRef} {id : SymbolId}
    (recording : Recording model s) (asked : d.record? model = some (.procedure p rule))
    (premises : ∀ x ∈ (Record.procedure p rule).premises, (s.numbering.id? x).isSome)
    (next : s.numbering.next = some id) (last : id.next? = none)
    (new : s.numbering.id? (.procedure p) = none)
    (owner : s.numbering.id? (.type (model.ownerOf p)) = none) :
    ∃ s', perform model (.add d) s = (.failed (.refused (.limit .symbolIds)), s') ∧
      perform model (.add d) s' = (.flag true, s') ∧
      s'.numbering.id? (.type (model.ownerOf p)) = none := by
  let first := s.derived (.procedure p rule) (.procedure p) id
  obtain ⟨recorded, missing, goesOn⟩ :=
    recording.addProcedure_of_unknown_owner premises next new owner
  refine ⟨first, ?_, ?_, missing⟩
  · have fails : addProcedure model p rule s = .error (.refused (.limit .symbolIds)) first :=
      goesOn.trans (recorded.addType_of_no_next (premises_ownerOf _ p rule s id) missing last)
    rw [perform, settle, recording.add_of_procedure asked, bind_of_error fails]
  · have stands : Stands (.procedure p rule) first :=
      stands_derived id recording.building premises rfl
    rw [perform, settle, recorded.add_of_procedure asked,
      bind_of_ok (addProcedure_of_stands recorded.closed model stands)]
    rfl

/-- A session that was given as many seeds as leave one ID. A report that fails for want of a second
one is answered yes when it is made once more, though its owner still has no ID. -/
theorem told_without_owner_when_repeated :
    let model := { Model.uniform ⟨0⟩ ⟨1⟩ none none ⟨List.replicate 32 0, rfl⟩ with
      ownerOf := fun _ => ⟨65534⟩ }
    let given : List Symbol := (List.range 65532).map fun i => .type ⟨i + 2⟩
    let report := Discovery.procedure (some ⟨0⟩) (.declaredBy ⟨0⟩ 0) rfl
    let s := (performAll model (given.map .seed) (forCompile model default)).2
    .procedure ⟨0⟩ ∉ given ∧
      ∃ s', perform model (.add report) s = (.failed (.refused (.limit .symbolIds)), s') ∧
        perform model (.add report) s' = (.flag true, s') ∧
        s'.numbering.id? (.type (model.ownerOf ⟨0⟩)) = none := by
  intro model given report s
  have hstart : seededWith model [] = [.type ⟨0⟩, .type ⟨1⟩] := rfl
  have nodup : (seededWith model [] ++ given).Nodup := by
    have hgiven : given.Nodup := List.Pairwise.map _ (by simp) List.nodup_range
    rw [hstart]
    simpa [given] using hgiven
  have hfold := foldl_learn_of_nodup nodup
  have hlength : (given.foldl learn (seededWith model [])).length = 65534 := by
    rw [hfold, List.length_append, List.length_map, List.length_range, hstart]
    rfl
  obtain ⟨s', hseeds, hphase, seedable⟩ := seeds_of_seedable model given
    (seedable_start model default (by decide : Phase.building ∈ _)) (by rw [hlength]; decide)
  have hs : s = s' := congrArg Prod.snd hseeds
  have reaches : Reaches (forCompile model default) s :=
    Reaches.performAll model (given.map .seed) (forCompile model default)
  rw [← hs] at hphase seedable
  have lists := seedable.lists
  have closed : s.region.isOpen = false :=
    congrArg Region.isOpen (region_of_seeds model given (forCompile model default))
  have recording : Recording model s := reaches.recording (.inl rfl) hphase closed
  obtain ⟨id, next, -⟩ := lists.exists_next (by rw [hlength]; decide)
  have last : id.next? = none := by
    rw [SymbolId.next?_eq_none, lists.next_some id next, hlength]
  have new : s.numbering.id? (.procedure ⟨0⟩) = none := by
    rw [← lists.not_mem_iff, hfold, hstart]
    simp [given]
  have owner : s.numbering.id? (.type ⟨65534⟩) = none := by
    rw [← lists.not_mem_iff, hfold, hstart]
    simp [given]
  have root : (s.numbering.id? (.type ⟨0⟩)).isSome := by
    rw [← lists.mem_iff, hfold, hstart]
    simp
  refine ⟨by simp [given], told_without_owner_of_last recording rfl ?_ next last new owner⟩
  simpa [Record.premises_procedure, ProcRule.operands] using root

end Provenance.Session
