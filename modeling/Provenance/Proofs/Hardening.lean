import Provenance.Proofs.Confirming

/-!
One action on a lenient session and on the strict one. The only thing that an action does with
the strictness of a session is to choose the form of a logic error, so wherever nobody is to
blame the two have the same result.
-/
namespace Provenance

namespace Session

variable {α β : Type} {model : Model} {s t : Session}

/-- The same session with fatal assertions. -/
def hardened (s : Session) : Session := { s with config := s.config.withStrictness .strict }

def IsLenient (s : Session) : Prop := s.config.strictness = .lenient

theorem IsLenient.fatal_eq_false (lenient : s.IsLenient) : s.config.assertionsAreFatal = false := by
  rw [Config.assertionsAreFatal, lenient]
  rfl

/-- The strict result for a lenient one: the same if nobody is to blame, and a fatal error for
each logic error. -/
inductive Hardened :
    EStateM.Result Failure Session α → EStateM.Result Failure Session α → Prop where
  | ok {a : α} {s : Session} (lenient : s.IsLenient) : Hardened (.ok a s) (.ok a s.hardened)
  | refused {e : SessionError} {s : Session} (lenient : s.IsLenient)
      (harmless : e.isLogic = false) :
      Hardened (.error (.refused e) s) (.error (.refused e) s.hardened)
  | blamed {e : SessionError} {s t : Session} (lenient : s.IsLenient) (logic : e.isLogic = true) :
      Hardened (.error (.refused e) s) (.error (.fatal e) t)

/-- On every lenient session and the strict one the action has corresponding results. -/
def Hardens (action : Action α) : Prop :=
  ∀ s, s.IsLenient → Hardened (action s) (action s.hardened)

namespace Hardens

theorem pure (a : α) : Hardens (pure a) := fun _ lenient => .ok lenient

theorem bind {action : Action α} {next : α → Action β} (h : Hardens action)
    (hnext : ∀ a, Hardens (next a)) : Hardens (action >>= next) := by
  intro s lenient
  have hs := h s lenient
  generalize ha : action s = result at hs
  generalize ha' : action s.hardened = result' at hs
  cases hs with
  | ok lenient =>
    rw [bind_of_ok ha, bind_of_ok ha']
    exact hnext _ _ lenient
  | refused lenient harmless =>
    rw [bind_of_error ha, bind_of_error ha']
    exact .refused lenient harmless
  | blamed lenient logic =>
    rw [bind_of_error ha, bind_of_error ha']
    exact .blamed lenient logic

/-- Looking at a session shows no difference, unless one looks at how strict it is. -/
theorem get_bind {next : Session → Action α} (blind : ∀ s, next s.hardened = next s)
    (h : ∀ s, Hardens (next s)) : Hardens ((get : Action Session) >>= next) := by
  intro s lenient
  rw [Session.get_bind, Session.get_bind, blind]
  exact h s s lenient

theorem modified {f : Session → Session} (blind : ∀ s, f s.hardened = (f s).hardened)
    (keeps : ∀ s, (f s).config = s.config) : Hardens (modify f) := by
  intro s lenient
  show Hardened (EStateM.Result.ok () (f s)) (EStateM.Result.ok () (f s.hardened))
  rw [blind]
  exact .ok (by rw [IsLenient, keeps]; exact lenient)

theorem refuse (e : SessionError) : Hardens (refuse e : Action α) := by
  intro s lenient
  cases logic : e.isLogic with
  | false =>
    simp only [Session.refuse, logic, Bool.and_false]
    exact .refused lenient logic
  | true =>
    simp only [Session.refuse, logic, lenient.fatal_eq_false]
    exact .blamed lenient logic

theorem violate (v : Violation) : Hardens (violate v : Action α) := refuse _

theorem gate (operation : Gated) (allowed : List Phase) : Hardens (gate operation allowed) := by
  intro s lenient
  by_cases hp : s.phase ∈ allowed
  · rw [gate_of_mem hp, gate_of_mem (s := s.hardened) hp]
    exact .ok lenient
  · rw [gate_of_not_mem hp, gate_of_not_mem (s := s.hardened) hp]
    exact refuse _ s lenient

theorem andThen {action : Action α} {next : Action β} (h : Hardens action) (hnext : Hardens next) :
    Hardens (action >>= fun _ => next) := h.bind fun _ => hnext

theorem ite {c : Prop} [Decidable c] {action action' : Action α} (h : Hardens action)
    (h' : Hardens action') : Hardens (if c then action else action') := by
  split
  · exact h
  · exact h'

/-- An error that stands in the way of the rest. -/
theorem barred {c : Prop} [Decidable c] {e : SessionError} {next : Unit → Action α}
    (h : Hardens (next ())) : Hardens (if c then Session.refuse e >>= next else next ()) :=
  ite ((refuse e).bind fun _ => h) h

theorem requireId (x : Symbol) : Hardens (requireId x) := by
  refine get_bind (fun _ => rfl) fun s => ?_
  cases s.numbering.id? x with
  | some id => exact pure id
  | none => exact violate _

theorem symbolFor (id : SymbolId) (expected : Category) (presence : Presence) :
    Hardens (symbolFor id expected presence) := by
  refine get_bind (fun _ => rfl) fun s => ?_
  cases s.numbering.symbolOf? id with
  | some x => exact ite (pure _) (violate _)
  | none =>
    cases presence with
    | optional => exact pure none
    | required => exact violate _

theorem typeFor (id : SymbolId) (presence : Presence) : Hardens (typeFor id presence) :=
  (symbolFor id .type presence).bind fun _ => pure _

theorem procedureFor (id : SymbolId) (presence : Presence) : Hardens (procedureFor id presence) :=
  (symbolFor id .procedure presence).bind fun _ => pure _

theorem boundType (id : SymbolId) : Hardens (boundType id) := by
  refine get_bind (fun _ => rfl) fun s => ?_
  cases s.numbering.symbolOf? id with
  | none => exact violate _
  | some x =>
    cases x with
    | type t => exact pure t
    | procedure p => exact violate _

theorem boundProcedure (id : SymbolId) : Hardens (boundProcedure id) := by
  refine get_bind (fun _ => rfl) fun s => ?_
  cases s.numbering.symbolOf? id with
  | none => exact violate _
  | some x =>
    cases x with
    | procedure p => exact pure p
    | type t => exact violate _

theorem issue (x : Symbol) : Hardens (issue x) := by
  intro s lenient
  cases hn : s.numbering.next with
  | some id =>
    rw [issue_of_some hn, issue_of_some (s := s.hardened) hn]
    exact .ok lenient
  | none =>
    rw [issue_of_none hn, issue_of_none (s := s.hardened) hn]
    exact refuse _ s lenient

theorem seed (x : Symbol) : Hardens (seed x) := by
  refine (gate _ _).andThen (get_bind (fun _ => rfl) fun s => ?_)
  refine barred (get_bind (fun _ => rfl) fun s => ?_)
  cases s.numbering.id? x with
  | some id => exact pure id
  | none =>
    refine (issue x).bind fun id => andThen ?_ (pure id)
    exact modified (fun _ => rfl) fun _ => rfl

theorem enterRegion : Hardens enterRegion := by
  refine (gate _ _).andThen ?_
  exact modified (fun _ => rfl) fun _ => rfl

theorem exitRegion : Hardens exitRegion := by
  refine get_bind (fun _ => rfl) fun s => ?_
  cases s.region.exit? with
  | some region => exact modified (fun _ => rfl) fun _ => rfl
  | none => exact violate _

theorem openGuard : Hardens openGuard := by
  refine (gate _ _).andThen (andThen ?_ ?_)
  · exact modified (fun _ => rfl) fun _ => rfl
  · exact get_bind (fun _ => rfl) fun s => pure s.region.count

theorem append (r : LiveRecord) : Hardens (append r) := by
  have inserted : Hardens (modify fun s => { s with ledger := (s.ledger.insert r).2 }) :=
    modified (fun _ => rfl) fun _ => rfl
  refine get_bind (fun _ => rfl) fun s => barred ?_
  cases r.defined with
  | none => exact inserted
  | some x =>
    exact get_bind (fun _ => rfl) fun s => ite ((issue x).andThen inserted) inserted

theorem appendIfNew (r : LiveRecord) : Hardens (appendIfNew r) :=
  get_bind (fun _ => rfl) fun _ => ite (pure _) (append r)

theorem requirePremises (r : LiveRecord) : Hardens (requirePremises r) := by
  refine get_bind (fun _ => rfl) fun s => ?_
  cases r.premises.find? fun x => !s.isValidated x with
  | some x => exact violate _
  | none => exact pure ()

theorem addType (model : Model) (ty : TypeRef) (rule : TypeRule TypeRef ProcRef) :
    Hardens (addType model ty rule) := by
  refine (requirePremises _).andThen (get_bind (fun _ => rfl) fun _ => ite (appendIfNew _) ?_)
  exact (append _).andThen (ite (pure _) (appendIfNew _))

theorem addProcedure (model : Model) (procedure : ProcRef) (rule : ProcRule TypeRef ProcRef) :
    Hardens (addProcedure model procedure rule) := by
  refine (requirePremises _).andThen (get_bind (fun _ => rfl) fun _ => ite (appendIfNew _) ?_)
  exact (append _).andThen (get_bind (fun _ => rfl) fun _ => ite (pure _) (addType model _ _))

theorem addCheck (c : Check TypeRef ProcRef) : Hardens (addCheck c) :=
  (requirePremises _).andThen (appendIfNew _)

theorem addArrays (model : Model) (ty : TypeRef) (dims : Nat) (component : TypeRef) :
    Hardens (addArrays model ty dims component) := by
  induction dims generalizing component with
  | zero => exact pure ()
  | succ dims ih =>
    rw [Session.addArrays]
    cases model.arrayType component with
    | none => exact violate _
    | some array => exact (addType model array _).andThen (ih array)

theorem addNamed (model : Model) (ty : TypeRef) (naming : Naming) :
    Hardens (addNamed model ty naming) := by
  refine get_bind (fun _ => rfl) fun s => barred ?_
  exact (addType model _ _).andThen (addArrays model ty _ _)

theorem add (model : Model) (d : Discovery) : Hardens (add model d) := by
  refine (gate _ _).andThen (get_bind (fun _ => rfl) fun s => ite (pure false) ?_)
  cases d with
  | named ty naming =>
    cases ty with
    | none => exact pure false
    | some ty => exact (addNamed model ty naming).andThen (pure true)
  | type ty rule unnamed =>
    cases ty with
    | none => exact pure false
    | some ty => exact (addType model ty rule).andThen (pure true)
  | signed p owner beholder =>
    cases p with
    | none => exact pure false
    | some p => exact (addProcedure model p _).andThen (pure true)
  | procedure p rule unsigned =>
    cases p with
    | none => exact pure false
    | some p => exact (addProcedure model p rule).andThen (pure true)
  | check c unchained => exact (addCheck c).andThen (pure true)

section Replacing

variable {T P T' P' : Type} {f : T → Action T'} {g : P → Action P'}

theorem typeRule (hf : ∀ t, Hardens (f t)) (hg : ∀ p, Hardens (g p)) (rule : TypeRule T P) :
    Hardens (rule.mapM f g) := by
  cases rule with
  | profiled | systemByName => exact pure _
  | ownerOf p => exact (hg p).bind fun _ => pure _
  | byName t | fromEntry t | definingFromEntry t | staticFromEntry t | componentOf t | arrayOf t
  | superOf t | fromDispatchEntry t | declaringField t | metaOf t | concreteSubtypeOf t =>
    exact (hf t).bind fun _ => pure _

theorem procRule (hf : ∀ t, Hardens (f t)) (hg : ∀ p, Hardens (g p)) (rule : ProcRule T P) :
    Hardens (rule.mapM f g) := by
  cases rule with
  | declaredBy t | staticFromEntry t | specialFromEntry t | virtualFromEntry t
  | virtualFromOffset t | improperFromEntry t => exact (hf t).bind fun _ => pure _
  | interfaceFromEntry t u | bySignature t u =>
    exact (hf t).bind fun _ => (hf u).bind fun _ => pure _
  | singleImplementer t p | singleInterfaceImplementer t p | singleAbstractImplementer t p =>
    exact (hf t).bind fun _ => (hg p).bind fun _ => pure _

theorem check (hf : ∀ t, Hardens (f t)) (hg : ∀ p, Hardens (g p)) (c : Check T P) :
    Hardens (c.mapM f g) := by
  cases c with
  | chain t | initialized t => exact (hf t).bind fun _ => pure _
  | instanceOf t u => exact (hf t).bind fun _ => (hf u).bind fun _ => pure _
  | skipFrames t p => exact (hg p).bind fun _ => (hf t).bind fun _ => pure _

theorem values (hf : ∀ t, Hardens (f t)) (hg : ∀ p, Hardens (g p)) (fs : List FieldSpec)
    (vs : Values T P fs) : Hardens (Values.mapM f g fs vs) := by
  induction fs with
  | nil => exact pure _
  | cons field fs ih =>
    obtain ⟨name, shape⟩ := field
    obtain ⟨v, vs⟩ := vs
    cases shape with
    | type => exact (hf v).bind fun _ => (ih vs).bind fun _ => pure _
    | procedure => exact (hg v).bind fun _ => (ih vs).bind fun _ => pure _
    | text | digest | index | offset | flag => exact (ih vs).bind fun _ => pure _

theorem record (hf : ∀ t, Hardens (f t)) (hg : ∀ p, Hardens (g p)) (r : Record T P) :
    Hardens (r.mapM f g) := (values hf hg _ r.values).bind fun _ => pure _

end Replacing

theorem list {f : α → Action β} (h : ∀ a, Hardens (f a)) (l : List α) : Hardens (l.mapM f) := by
  induction l with
  | nil => exact pure _
  | cons a l ih =>
    rw [List.mapM_cons]
    exact (h a).bind fun _ => ih.bind fun _ => pure _

theorem sealRecords : Hardens sealRecords := by
  refine (gate _ _).andThen (get_bind (fun _ => rfl) fun s => ?_)
  refine barred (bind ?_ fun records => andThen ?_ (pure records))
  · exact list (record (fun t => requireId (.type t)) fun p => requireId (.procedure p)) _
  · exact modified (fun _ => rfl) fun _ => rfl

theorem bindSymbol (id : SymbolId) (x : Option Symbol) : Hardens (bindSymbol id x) := by
  cases x with
  | none => exact pure false
  | some x => exact fun s lenient => .ok lenient

theorem validateSymbol (id : SymbolId) (x : Option Symbol) : Hardens (validateSymbol id x) :=
  (gate _ _).andThen (bindSymbol id x)

theorem validate (model : Model) (r : SealedRecord) : Hardens (validate model r) := by
  refine (gate _ _).andThen ?_
  cases r with
  | type id rule => exact (typeRule boundType boundProcedure rule).bind fun _ => bindSymbol id _
  | procedure id rule =>
    exact (procRule boundType boundProcedure rule).bind fun _ => bindSymbol id _
  | check c => exact (check boundType boundProcedure c).bind fun _ => pure _

/-- A lenient replay is rejected where a strict one stops. -/
theorem replay (model : Model) (index : Nat) (records : List SealedRecord) :
    Hardens (replay model index records) := by
  induction records generalizing index with
  | nil => exact modified (fun _ => rfl) fun _ => rfl
  | cons r rest ih =>
    intro s lenient
    have hs := validate model r s lenient
    generalize hr : Session.validate model r s = result at hs
    generalize hr' : Session.validate model r s.hardened = result' at hs
    cases hs with
    | @ok holds t lenient =>
      cases holds with
      | true =>
        rw [replay_of_true hr, replay_of_true hr']
        exact ih (index + 1) t lenient
      | false =>
        rw [replay_of_false hr, replay_of_false hr']
        exact .refused (s := t.reject) lenient rfl
    | @refused e t lenient harmless =>
      rw [replay_of_refused hr, replay_of_refused hr']
      exact .refused (s := t.reject) lenient harmless
    | @blamed e t t' lenient logic =>
      rw [replay_of_refused hr, replay_of_fatal hr']
      exact .blamed (s := t.reject) lenient logic

theorem validateRecords (model : Model) (records : List SealedRecord) :
    Hardens (validateRecords model records) := (gate _ _).andThen (replay model 0 records)

end Hardens

end Session

end Provenance
