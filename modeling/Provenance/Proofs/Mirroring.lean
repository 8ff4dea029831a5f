import Mathlib.Data.List.Find
import Provenance.Proofs.Issuing
import Provenance.Proofs.Recording
import Provenance.Proofs.Renaming

/-!
Two sessions in step. One runs on a program, the other on one that is like it under a renaming,
and the second is told the renamed of what the first is told. They give out IDs in the same
order and make the same records up to the renaming, so that each answers the renamed of what the
other does. In a sealed list there is nothing to rename: it is the same, and so is the artifact.
-/
namespace Provenance

variable {model model' : Model} {φ : Likeness model model'}

namespace Likeness

theorem has_seeds (φ : Likeness model model') : ∀ x ∈ Session.seeds model, φ.Has x :=
  List.forall_mem_cons.mpr ⟨φ.closed.rootType, by simpa using φ.closed.metaType⟩

theorem has_seededWith (φ : Likeness model model') :
    ∀ x ∈ Session.seededWith model [], φ.Has x := by
  intro x hx
  rw [Session.seededWith, mem_foldl_learn, List.append_nil] at hx
  exact φ.has_seeds x (hx.resolve_left List.not_mem_nil)

/-- Sessions start out with the renamed symbols, in the same order. -/
theorem seededWith_map (φ : Likeness model model') :
    Session.seededWith model' [] = (Session.seededWith model []).map φ.symbol := by
  have hseeds : Session.seeds model' = (Session.seeds model).map φ.symbol := by
    rw [Session.seeds, ← φ.type_rootType, ← φ.type_metaType]
    rfl
  rw [Session.seededWith, Session.seededWith, List.append_nil, List.append_nil, hseeds]
  exact foldl_learn_map [] (Session.seeds model) fun x hx y hy =>
    φ.injective x (φ.has_seeds x hx) y (φ.has_seeds y hy)

end Likeness

namespace Numbering

variable {n n' : Numbering} {x : Symbol} {id : SymbolId}

/-- The one has listed symbols, the other the renamed symbols in the same order. -/
def Mirrors (φ : Likeness model model') (n n' : Numbering) : Prop :=
  ∃ known, n.Lists known ∧ n'.Lists (known.map φ.symbol) ∧ ∀ x ∈ known, φ.Has x

namespace Mirrors

theorem id?_eq (h : Mirrors φ n n') (hx : φ.Has x) : n'.id? (φ.symbol x) = n.id? x := by
  obtain ⟨known, lists, lists', has⟩ := h
  by_cases hknown : x ∈ known
  · obtain ⟨i, hi⟩ := List.mem_iff_getElem?.mp hknown
    exact lists.id?_map (List.prefix_refl known) lists' hi
  · have hknown' : φ.symbol x ∉ known.map φ.symbol := by
      intro hmem
      obtain ⟨y, hy, hyx⟩ := List.mem_map.mp hmem
      rw [φ.injective y (has y hy) x hx hyx] at hy
      exact hknown hy
    rw [lists.not_mem_iff.mp hknown, lists'.not_mem_iff.mp hknown']

theorem symbolOf?_eq (h : Mirrors φ n n') (id : SymbolId) :
    n'.symbolOf? id = (n.symbolOf? id).map φ.symbol := by
  obtain ⟨known, lists, lists', -⟩ := h
  rw [lists.symbolOf?_eq, lists'.symbolOf?_eq, List.getElem?_map]

theorem size_eq (h : Mirrors φ n n') : n'.size = n.size := by
  obtain ⟨known, lists, lists', -⟩ := h
  rw [lists.size_eq, lists'.size_eq, List.length_map]

theorem next_eq (h : Mirrors φ n n') : n'.next = n.next := by
  obtain ⟨known, lists, lists', -⟩ := h
  have hlength : (known.map φ.symbol).length = known.length := List.length_map _
  cases hn : n.next with
  | none =>
    have hfull := lists.next_none hn
    cases hn' : n'.next with
    | none => rfl
    | some id =>
      have hid := lists'.next_some id hn'
      have hlt := id.toNat_lt
      omega
  | some id =>
    have hid := lists.next_some id hn
    have hlt := id.toNat_lt
    obtain ⟨id', hn', hid'⟩ := lists'.exists_next (by omega)
    rw [hn', SymbolId.toNat_inj.mp (show id'.toNat = id.toNat by omega)]

/-- Symbol and renamed symbol take the same ID. -/
theorem issue (h : Mirrors φ n n') (hx : φ.Has x) (new : n.id? x = none)
    (next : n.next = some id) : Mirrors φ (n.issue x id) (n'.issue (φ.symbol x) id) := by
  have new' : n'.id? (φ.symbol x) = none := by rw [h.id?_eq hx, new]
  have next' : n'.next = some id := by rw [h.next_eq, next]
  obtain ⟨known, lists, lists', has⟩ := h
  refine ⟨known ++ [x], lists.issue new next, ?_, List.forall_mem_append.mpr ⟨has, by simpa⟩⟩
  rw [List.map_append]
  exact lists'.issue new' next'

/-- A record and the renamed record have the same sealed form. -/
theorem sealed_eq (h : Mirrors φ n n') {r : LiveRecord} (covers : φ.Covers r) :
    n'.sealed (φ.record r) = n.sealed r := by
  have hidOf (x : Symbol) (hx : x ∈ r.operands) : n'.idOf (φ.symbol x) = n.idOf x := by
    rw [idOf, idOf, h.id?_eq (covers x hx)]
  rw [Numbering.sealed, Renaming.record, Record.map_map]
  exact Record.map_congr (fun t ht => hidOf (.type t) ht) fun p hp => hidOf (.procedure p) hp

end Mirrors

end Numbering

namespace Ledger

variable {l l' : Ledger} {r : LiveRecord}

/-- The one has records, the other the renamed records in the same order, and both find what
they have. -/
structure Mirrors (φ : Likeness model model') (l l' : Ledger) : Prop where
  records_eq : l'.records = l.records.map φ.record
  covers : ∀ r ∈ l.records, φ.Covers r
  faithful : l.Faithful
  faithful' : l'.Faithful

namespace Mirrors

theorem contains_eq (h : Mirrors φ l l') (covers : φ.Covers r) :
    l'.contains (φ.record r) = l.contains r := by
  rw [Bool.eq_iff_iff, h.faithful r, h.faithful' (φ.record r), h.records_eq, List.mem_map]
  constructor
  · rintro ⟨other, hother, heq⟩
    rwa [φ.record_injective (h.covers other hother) covers heq] at hother
  · exact fun hr => ⟨r, hr, rfl⟩

theorem isEmpty_eq (h : Mirrors φ l l') : l'.isEmpty = l.isEmpty := by
  have hrecords := congrArg List.isEmpty h.records_eq
  rw [List.isEmpty_map] at hrecords
  simpa only [Ledger.isEmpty, Ledger.records, Array.isEmpty_toList] using hrecords

theorem insert (h : Mirrors φ l l') (covers : φ.Covers r) :
    Mirrors φ (l.insert r).2 (l'.insert (φ.record r)).2 where
  records_eq := by
    rw [records_insert, records_insert, h.contains_eq covers, h.records_eq]
    split
    · rfl
    · rw [List.map_append]
      rfl
  covers := by
    rw [records_insert]
    split
    · exact h.covers
    · exact List.forall_mem_append.mpr ⟨h.covers, by simpa⟩
  faithful := h.faithful.insert r
  faithful' := h.faithful'.insert (φ.record r)

end Mirrors

end Ledger

namespace Session

variable {s s' t t' : Session} {x : Symbol} {r : LiveRecord}

/-- Two sessions that compile, the second the renamed of the first. -/
structure Mirrors (φ : Likeness model model') (s s' : Session) : Prop where
  config : s'.config = s.config
  phase : s'.phase = s.phase
  region : s'.region = s.region
  seeded : s'.seeded = s.seeded
  compiles : s.phase ∈ [Phase.building, .sealed]
  numbering : s.numbering.Mirrors φ s'.numbering
  ledger : s.ledger.Mirrors φ s'.ledger

namespace Mirrors

theorem forCompile (φ : Likeness model model') (config : Config) :
    Mirrors φ (forCompile model config) (Session.forCompile model' config) where
  config := rfl
  phase := rfl
  region := rfl
  seeded := rfl
  compiles := List.mem_cons_self
  numbering := by
    refine ⟨seededWith model [], lists_start model config .building, ?_, φ.has_seededWith⟩
    rw [← φ.seededWith_map]
    exact lists_start model' config .building
  ledger := ⟨rfl, fun _ hr => absurd hr List.not_mem_nil, Ledger.faithful_empty,
    Ledger.faithful_empty⟩

theorem isValidated_eq (h : Mirrors φ s s') (hx : φ.Has x) :
    s'.isValidated (φ.symbol x) = s.isValidated x := by
  rw [isValidated, isValidated, h.region, h.numbering.id?_eq hx]

theorem isLate_eq (h : Mirrors φ s s') : s'.isLate = s.isLate := by
  rw [isLate, isLate, h.ledger.isEmpty_eq, h.seeded, h.numbering.size_eq]

theorem withRegion (h : Mirrors φ s s') (region : Region) :
    Mirrors φ { s with region := region } { s' with region := region } :=
  { h with region := rfl }

theorem insert (h : Mirrors φ s s') (covers : φ.Covers r) :
    Mirrors φ { s with ledger := (s.ledger.insert r).2 }
      { s' with ledger := (s'.ledger.insert (φ.record r)).2 } :=
  { h with ledger := h.ledger.insert covers }

theorem issued {id : SymbolId} (h : Mirrors φ s s') (hx : φ.Has x)
    (new : s.numbering.id? x = none) (next : s.numbering.next = some id) :
    Mirrors φ { s with numbering := s.numbering.issue x id }
      { s' with numbering := s'.numbering.issue (φ.symbol x) id } :=
  { h with numbering := h.numbering.issue hx new next }

theorem derived {id : SymbolId} (h : Mirrors φ s s') (covers : φ.Covers r) (hx : φ.Has x)
    (new : s.numbering.id? x = none) (next : s.numbering.next = some id) :
    Mirrors φ (s.derived r x id) (s'.derived (φ.record r) (φ.symbol x) id) :=
  (h.issued hx new next).insert covers

end Mirrors

section Parallel

variable {α β : Type} {f : α → α} {g : β → β}

/-- Two actions are both done, the second with the renamed answer, or both fail, the second with
the renamed failure; and they leave sessions of which the second is the renamed of the first. -/
inductive Parallel (φ : Likeness model model') (f : α → α) :
    EStateM.Result Failure Session α → EStateM.Result Failure Session α → Prop where
  | ok {a : α} {s s' : Session} (mirrors : Mirrors φ s s') : Parallel φ f (.ok a s) (.ok (f a) s')
  | error {e : Failure} {s s' : Session} (mirrors : Mirrors φ s s') :
      Parallel φ f (.error e s) (.error (φ.failure e) s')

namespace Parallel

theorem bind {action action' : Action α} {next next' : α → Action β}
    (h : Parallel φ f (action s) (action' s'))
    (hnext : ∀ a t t', Mirrors φ t t' → Parallel φ g (next a t) (next' (f a) t')) :
    Parallel φ g ((action >>= next) s) ((action' >>= next') s') := by
  cases ha : action s with
  | ok a t =>
    rw [ha] at h
    generalize ha' : action' s' = result at h
    cases h with
    | ok mirrors =>
      rw [bind_of_ok ha, bind_of_ok ha']
      exact hnext a _ _ mirrors
  | error e t =>
    rw [ha] at h
    generalize ha' : action' s' = result at h
    cases h with
    | error mirrors =>
      rw [bind_of_error ha, bind_of_error ha']
      exact .error mirrors

/-- One thing after another, where there is nothing to rename in the answer to the first. -/
theorem andThen {action action' : Action α} {next next' : α → Action β}
    (h : Parallel φ id (action s) (action' s'))
    (hnext : ∀ a t t', Mirrors φ t t' → Parallel φ g (next a t) (next' a t')) :
    Parallel φ g ((action >>= next) s) ((action' >>= next') s') := h.bind hnext

theorem get_bind {next next' : Session → Action α} (h : Parallel φ f (next s s) (next' s' s')) :
    Parallel φ f (((get : Action Session) >>= next) s) (((get : Action Session) >>= next') s') := h

theorem refuse (h : Mirrors φ s s') (e : SessionError) :
    Parallel φ f (refuse e s) (Session.refuse (φ.error e) s') := by
  rw [Session.refuse, Session.refuse, h.config, φ.isLogic_error]
  split
  · exact .error (e := .fatal e) h
  · exact .error (e := .refused e) h

theorem violate (h : Mirrors φ s s') (v : Violation) :
    Parallel φ f (violate v s) (Session.violate (φ.violation v) s') := refuse h (.invariant v)

theorem gate (h : Mirrors φ s s') (operation : Gated) (allowed : List Phase) :
    Parallel φ id (gate operation allowed s) (Session.gate operation allowed s') := by
  by_cases hp : s.phase ∈ allowed
  · rw [gate_of_mem hp, gate_of_mem (by rwa [h.phase])]
    exact .ok h
  · rw [gate_of_not_mem hp, gate_of_not_mem (by rwa [h.phase]), h.phase]
    exact refuse h (.wrongPhase operation s.phase)

/-- Behind a gate that is shut both are turned away. -/
theorem refused {next next' : Unit → Action α} {allowed : List Phase} (h : Mirrors φ s s')
    (operation : Gated) (shut : s.phase ∉ allowed) :
    Parallel φ f ((Session.gate operation allowed >>= next) s)
      ((Session.gate operation allowed >>= next') s') := by
  have shut' : s'.phase ∉ allowed := by rwa [h.phase]
  rw [bind_of_error (gate_of_not_mem shut), bind_of_error (gate_of_not_mem shut'), h.phase]
  exact refuse h (.wrongPhase operation s.phase)

theorem requirePremises (h : Mirrors φ s s') (covers : φ.Covers r) :
    Parallel φ id (requirePremises r s) (Session.requirePremises (φ.record r) s') := by
  have hfind : (φ.record r).premises.find? (fun x => !s'.isValidated x) =
      (r.premises.find? fun x => !s.isValidated x).map φ.symbol := by
    rw [Renaming.record, Record.premises_map, List.find?_map]
    refine congrArg _ (List.find?_congr fun x hx => congrArg not ?_)
    exact h.isValidated_eq (covers x (Record.mem_operands_iff.mpr (.inr hx)))
  rw [requirePremises_eq, requirePremises_eq, hfind]
  cases r.premises.find? fun x => !s.isValidated x with
  | none => exact .ok h
  | some x =>
    simp only [Option.map_some, Renaming.record, Record.kind_map]
    exact violate h (.unknownPremise x r.kind)

theorem append (h : Mirrors φ s s') (covers : φ.Covers r) :
    Parallel φ id (append r s) (Session.append (φ.record r) s') := by
  rw [append_eq, append_eq, h.ledger.contains_eq covers]
  by_cases hc : s.ledger.contains r = true
  · rw [if_pos hc, if_pos hc]
    exact violate h (.appendedTwice r)
  · rw [if_neg hc, if_neg hc, Renaming.record, Record.defined_map]
    cases hd : r.defined with
    | none => exact .ok (h.insert covers)
    | some x =>
      have hx : φ.Has x := covers x (Record.mem_operands_iff.mpr (.inl hd))
      simp only [Option.map_some]
      rw [show s'.numbering.id? (Operand.map φ.type φ.procedure x) = s.numbering.id? x from
        h.numbering.id?_eq hx, h.numbering.next_eq]
      cases hid : s.numbering.id? x with
      | some id => exact .ok (h.insert covers)
      | none =>
        cases hn : s.numbering.next with
        | none => exact refuse h (.limit .symbolIds)
        | some id => exact .ok (h.derived covers hx hid hn)

theorem appendIfNew (h : Mirrors φ s s') (covers : φ.Covers r) :
    Parallel φ id (appendIfNew r s) (Session.appendIfNew (φ.record r) s') := by
  rw [Session.appendIfNew, Session.appendIfNew]
  apply get_bind
  rw [h.ledger.contains_eq covers]
  by_cases hc : s.ledger.contains r = true
  · rw [if_pos hc, if_pos hc]
    exact .ok h
  · rw [if_neg hc, if_neg hc]
    exact append h covers

theorem requireId (h : Mirrors φ s s') (hx : φ.Has x) :
    Parallel φ id (requireId x s) (Session.requireId (φ.symbol x) s') := by
  rw [Session.requireId, Session.requireId]
  apply get_bind
  rw [h.numbering.id?_eq hx]
  cases s.numbering.id? x with
  | some id => exact .ok h
  | none => exact violate h (.noId x)

theorem symbolFor (h : Mirrors φ s s') (id : SymbolId) (expected : Category)
    (presence : Presence) :
    Parallel φ (Option.map φ.symbol) (symbolFor id expected presence s)
      (Session.symbolFor id expected presence s') := by
  rw [Session.symbolFor]
  apply get_bind
  rw [h.numbering.symbolOf?_eq]
  cases s.numbering.symbolOf? id with
  | none =>
    cases presence with
    | required => exact violate h (.unboundId id)
    | optional => exact .ok (a := none) h
  | some x =>
    have hcategory : (φ.symbol x).category = x.category := Operand.category_map _ _ x
    simp only [Option.map_some, hcategory]
    split
    · exact .ok (a := some x) h
    · exact violate h (.wrongCategory id x expected)

theorem typeFor (h : Mirrors φ s s') (id : SymbolId) (presence : Presence) :
    Parallel φ (Option.map φ.type) (typeFor id presence s) (Session.typeFor id presence s') := by
  refine (symbolFor h id .type presence).bind fun x t t' h => ?_
  have hx : (x.map φ.symbol).bind Operand.asType = (x.bind Operand.asType).map φ.type := by
    cases x with
    | none => rfl
    | some x => exact φ.asType_symbol x
  rw [hx]
  exact .ok h

theorem procedureFor (h : Mirrors φ s s') (id : SymbolId) (presence : Presence) :
    Parallel φ (Option.map φ.procedure) (procedureFor id presence s)
      (Session.procedureFor id presence s') := by
  refine (symbolFor h id .procedure presence).bind fun x t t' h => ?_
  have hx : (x.map φ.symbol).bind Operand.asProcedure =
      (x.bind Operand.asProcedure).map φ.procedure := by
    cases x with
    | none => rfl
    | some x => exact φ.asProcedure_symbol x
  rw [hx]
  exact .ok h

theorem seed (h : Mirrors φ s s') (hx : φ.Has x) :
    Parallel φ id (seed x s) (Session.seed (φ.symbol x) s') := by
  refine (gate h .seed _).andThen fun _ t t' h => get_bind ?_
  rw [h.isLate_eq]
  by_cases hl : t.isLate = true
  · rw [if_pos hl, if_pos hl]
    exact violate h (.lateSeed x)
  · rw [if_neg hl, if_neg hl]
    apply get_bind
    rw [h.numbering.id?_eq hx]
    cases hid : t.numbering.id? x with
    | some id => exact .ok h
    | none =>
      have issued : Parallel φ id (issue x t) (issue (φ.symbol x) t') := by
        rw [issue, issue, h.numbering.next_eq]
        cases hn : t.numbering.next with
        | none => exact refuse h (.limit .symbolIds)
        | some id => exact .ok (h.issued hx hid hn)
      refine issued.andThen fun id u u' h => ?_
      exact .ok { h with seeded := congrArg (· + 1) h.seeded }

theorem enterRegion (h : Mirrors φ s s') :
    Parallel φ id (enterRegion s) (Session.enterRegion s') := by
  refine (gate h .enterRegion _).andThen fun _ t t' h => ?_
  exact .ok { h with region := congrArg Region.enter h.region }

theorem exitRegion (h : Mirrors φ s s') :
    Parallel φ id (exitRegion s) (Session.exitRegion s') := by
  rw [Session.exitRegion]
  apply get_bind
  rw [h.region]
  cases s.region.exit? with
  | none => exact violate h .unbalancedExit
  | some region => exact .ok (h.withRegion region)

theorem closeGuard (h : Mirrors φ s s') (opened : UInt32) :
    Parallel φ id (closeGuard opened s) (Session.closeGuard opened s') := by
  have closed := h.withRegion ⟨opened - 1⟩
  rw [Session.closeGuard]
  apply get_bind
  rw [h.region]
  show Parallel φ id
    ((if (s.region.count ≠ opened && s.config.assertionsAreFatal) = true then
      throw (.fatal (.invariant (.unbalancedGuard opened.toNat s.region.count.toNat))) else pure () :
        Action Unit) { s with region := ⟨opened - 1⟩ })
    ((if (s.region.count ≠ opened && s'.config.assertionsAreFatal) = true then
      throw (.fatal (.invariant (.unbalancedGuard opened.toNat s.region.count.toNat))) else pure () :
        Action Unit) { s' with region := ⟨opened - 1⟩ })
  have hfatal : s'.config.assertionsAreFatal = s.config.assertionsAreFatal := by rw [h.config]
  rw [hfatal]
  split
  · exact .error (e := .fatal (.invariant (.unbalancedGuard opened.toNat s.region.count.toNat))) closed
  · exact .ok closed

theorem addType (h : Mirrors φ s s') {ty : TypeRef} {rule : TypeRule TypeRef ProcRef}
    (covers : φ.Covers (.type ty rule)) :
    Parallel φ id (addType model ty rule s)
      (Session.addType model' (φ.type ty) (rule.map φ.type φ.procedure) s') := by
  have has : φ.Has (.type ty) := (Likeness.covers_type.mp covers).1
  refine (requirePremises h covers).andThen fun _ t t' h => get_bind ?_
  rw [show t'.isValidated (.type (φ.type ty)) = t.isValidated (.type ty) from
    h.isValidated_eq has]
  by_cases hv : t.isValidated (.type ty) = true
  · rw [if_pos hv, if_pos hv]
    exact appendIfNew h covers
  · rw [if_neg hv, if_neg hv]
    refine (append h covers).andThen fun _ u u' h => ?_
    rw [φ.isArray_type has, φ.chainDigest_type ty has]
    by_cases ha : model.isArray ty = true
    · rw [if_pos ha, if_pos ha]
      exact .ok h
    · have chained : φ.Covers (.check (.chain ty (model.chainDigest ty))) :=
        Likeness.covers_check.mpr (by simpa [Check.operands] using has)
      rw [if_neg ha, if_neg ha]
      exact appendIfNew h chained

theorem addProcedure (h : Mirrors φ s s') {p : ProcRef} {rule : ProcRule TypeRef ProcRef}
    (covers : φ.Covers (.procedure p rule)) :
    Parallel φ id (addProcedure model p rule s)
      (Session.addProcedure model' (φ.procedure p) (rule.map φ.type φ.procedure) s') := by
  have has : φ.Has (.procedure p) := (Likeness.covers_procedure.mp covers).1
  have owner : φ.Has (.type (model.ownerOf p)) := φ.closed.ownerOf p has
  have owned : φ.Covers (.type (model.ownerOf p) (.ownerOf p)) :=
    Likeness.covers_type.mpr ⟨owner, by simpa [TypeRule.operands] using has⟩
  refine (requirePremises h covers).andThen fun _ t t' h => get_bind ?_
  rw [show t'.isValidated (.procedure (φ.procedure p)) = t.isValidated (.procedure p) from
    h.isValidated_eq has]
  by_cases hv : t.isValidated (.procedure p) = true
  · rw [if_pos hv, if_pos hv]
    exact appendIfNew h covers
  · rw [if_neg hv, if_neg hv]
    refine (append h covers).andThen fun _ u u' h => get_bind ?_
    rw [φ.ownerOf_procedure p has, show u'.isValidated (.type (φ.type (model.ownerOf p))) =
      u.isValidated (.type (model.ownerOf p)) from h.isValidated_eq owner]
    split
    · exact .ok h
    · exact addType h owned

theorem addCheck (h : Mirrors φ s s') {c : Check TypeRef ProcRef} (covers : φ.Covers (.check c)) :
    Parallel φ id (addCheck c s) (Session.addCheck (c.map φ.type φ.procedure) s') :=
  (requirePremises h covers).andThen fun _ _ _ h => appendIfNew h covers

theorem addArrays (h : Mirrors φ s s') (ty : TypeRef) (dims : Nat) {component : TypeRef}
    (has : φ.Has (.type component)) :
    Parallel φ id (addArrays model ty dims component s)
      (Session.addArrays model' (φ.type ty) dims (φ.type component) s') := by
  induction dims generalizing component s s' with
  | zero => exact .ok h
  | succ dims ih =>
    rw [Session.addArrays, Session.addArrays, φ.arrayType_type component has]
    cases ha : model.arrayType component with
    | none => exact violate h (.lostArray component ty)
    | some array =>
      have hasArray : φ.Has (.type array) := φ.closed.arrayType component array has ha
      have covers : φ.Covers (.type array (.arrayOf component)) :=
        Likeness.covers_type.mpr ⟨hasArray, by simpa [TypeRule.operands] using has⟩
      exact (addType h covers).andThen fun _ _ _ h => ih h hasArray

theorem addNamed (h : Mirrors φ s s') {ty : TypeRef} {naming : Naming} (has : φ.Has (.type ty))
    (symbols : ∀ x ∈ naming.symbols, φ.Has x) :
    Parallel φ id (addNamed model ty naming s)
      (Session.addNamed model' (φ.type ty) (φ.naming naming) s') := by
  have hasComponent := φ.closed.baseComponent has
  rw [Session.addNamed, Session.addNamed, φ.baseComponent_type has]
  generalize model.baseComponent ty = nested at hasComponent ⊢
  obtain ⟨component, dims⟩ := nested
  have covers : φ.Covers (.type component (naming.rule model component)) := by
    refine Likeness.covers_type.mpr ⟨hasComponent, ?_⟩
    rwa [naming.operands_rule]
  apply get_bind
  simp only [h.config, φ.rule_naming hasComponent]
  by_cases hd : s.config.maxArrayDimensions.toNat < dims
  · rw [if_pos hd, if_pos hd]
    have refused := refuse (f := id) (α := Unit) h
      (.limit (.arrayDimensions ty dims s.config.maxArrayDimensions.toNat))
    exact refused.andThen fun _ _ _ h => (addType h covers).andThen fun _ _ _ h =>
      addArrays h ty dims hasComponent
  · rw [if_neg hd, if_neg hd]
    exact (addType h covers).andThen fun _ _ _ h => addArrays h ty dims hasComponent

theorem add (h : Mirrors φ s s') {d : Discovery} (symbols : ∀ x ∈ d.symbols, φ.Has x) :
    Parallel φ id (add model d s) (Session.add model' (φ.discovery d) s') := by
  rw [Session.add, Session.add, φ.kind_discovery]
  refine (gate h _ _).andThen fun _ t t' h => get_bind ?_
  rw [h.region]
  by_cases hr : t.region.isOpen = true
  · rw [if_pos hr, if_pos hr]
    exact .ok (a := false) h
  · rw [if_neg hr, if_neg hr]
    -- All that is left to do after the records are made is to say so.
    have told {action action' : Action Unit} (h : Parallel φ id (action t) (action' t')) :
        Parallel φ id ((action >>= fun _ => pure true) t)
          ((action' >>= fun _ => pure true) t') := h.andThen fun _ _ _ h => .ok (a := true) h
    cases d with
    | named ty naming =>
      cases ty with
      | none => exact .ok (a := false) h
      | some ty =>
        obtain ⟨has, symbols⟩ := List.forall_mem_cons.mp symbols
        exact told (addNamed h has symbols)
    | type ty rule unnamed =>
      cases ty with
      | none => exact .ok (a := false) h
      | some ty =>
        have covers := Likeness.covers_type.mpr (List.forall_mem_cons.mp symbols)
        exact told (addType h covers)
    | signed p owner beholder =>
      cases p with
      | none => exact .ok (a := false) h
      | some p =>
        obtain ⟨has, symbols⟩ := List.forall_mem_cons.mp symbols
        simp only [Renaming.discovery, Option.map_some, φ.rule_signed has]
        exact told (addProcedure h (Likeness.covers_procedure.mpr ⟨has, symbols⟩))
    | procedure p rule unsigned =>
      cases p with
      | none => exact .ok (a := false) h
      | some p =>
        have covers := Likeness.covers_procedure.mpr (List.forall_mem_cons.mp symbols)
        exact told (addProcedure h covers)
    | check c unchained => exact told (addCheck h (Likeness.covers_check.mpr symbols))

end Parallel

end Parallel

end Session

end Provenance
