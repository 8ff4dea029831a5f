import Provenance.Session.Add
import Provenance.Session.Replay
import Provenance.Session.Seal
import Provenance.Proofs.Operands

/-!
What running an action does to a session. An action leaves a session whether it fails or
not, and one action after another leaves what the second leaves of what the first left.
An action that only looks leaves the session as it was, and replacing the operands of a
record by looking is itself only looking.
-/
namespace Provenance

theorem Values.mapM_congr {T P T' P' : Type} {m : Type → Type} [Monad m] {f f' : T → m T'}
    {g g' : P → m P'} (fs : List FieldSpec) {vs : Values T P fs}
    (hf : ∀ t, .type t ∈ Values.operands fs vs → f t = f' t)
    (hg : ∀ p, .procedure p ∈ Values.operands fs vs → g p = g' p) :
    Values.mapM f g fs vs = Values.mapM f' g' fs vs := by
  induction fs with
  | nil => rfl
  | cons field fs ih =>
    obtain ⟨name, shape⟩ := field
    obtain ⟨v, vs⟩ := vs
    cases shape <;> simp_all [Values.operands, Values.mapM]

theorem Record.mapM_some {T P T' P' : Type} (f : T → T') (g : P → P') (r : Record T P) :
    r.mapM (fun t => some (f t)) (fun p => some (g p)) = some (r.map f g) := by
  cases r with
  | type _ rule => cases rule <;> rfl
  | procedure _ rule => cases rule <;> rfl
  | check c => cases c <;> rfl

/-- If every operand is replaced, the record is. -/
theorem Record.mapM_of_some {T P T' P' : Type} {f : T → Option T'} {g : P → Option P'}
    {f' : T → T'} {g' : P → P'} {r : Record T P}
    (hf : ∀ t, .type t ∈ r.operands → f t = some (f' t))
    (hg : ∀ p, .procedure p ∈ r.operands → g p = some (g' p)) :
    r.mapM f g = some (r.map f' g') := by
  rw [← Record.mapM_some, Record.mapM, Record.mapM, Values.mapM_congr _ hf hg]

theorem Record.map_congr {T P T' P' : Type} {f f' : T → T'} {g g' : P → P'} {r : Record T P}
    (hf : ∀ t, .type t ∈ r.operands → f t = f' t)
    (hg : ∀ p, .procedure p ∈ r.operands → g p = g' p) : r.map f g = r.map f' g' :=
  Option.some.inj ((Record.mapM_some f g r).symm.trans
    (Record.mapM_of_some (fun t ht => congrArg some (hf t ht))
      fun p hp => congrArg some (hg p hp)))

namespace Session

variable {α β : Type}

/-- The session that an action leaves, be it done or failed. -/
def leaves (action : Action α) (s : Session) : Session :=
  match action s with
  | .ok _ s' => s'
  | .error _ s' => s'

theorem leaves_of_ok {action : Action α} {s s' : Session} {a : α} (h : action s = .ok a s') :
    leaves action s = s' := by
  rw [leaves, h]

theorem leaves_of_error {action : Action α} {s s' : Session} {e : Failure}
    (h : action s = .error e s') : leaves action s = s' := by
  rw [leaves, h]

theorem bind_of_ok {action : Action α} {next : α → Action β} {s s' : Session} {a : α}
    (h : action s = .ok a s') : (action >>= next) s = next a s' := by
  show EStateM.bind action next s = _
  rw [EStateM.bind, h]

theorem bind_of_error {action : Action α} {next : α → Action β} {s s' : Session} {e : Failure}
    (h : action s = .error e s') : (action >>= next) s = .error e s' := by
  show EStateM.bind action next s = _
  rw [EStateM.bind, h]

/-- Two actions are done only if both are. -/
theorem bind_eq_ok {action : Action α} {next : α → Action β} {s s'' : Session} {b : β}
    (h : (action >>= next) s = .ok b s'') :
    ∃ a s', action s = .ok a s' ∧ next a s' = .ok b s'' := by
  cases ha : action s with
  | ok a s' => exact ⟨a, s', rfl, (bind_of_ok ha).symm.trans h⟩
  | error e s' => cases (bind_of_error ha).symm.trans h

/-- To relate a session to what two actions leave of it, relate it to what the first leaves,
and go on from there if the first is done. -/
theorem get_bind (next : Session → Action β) (s : Session) :
    ((get : Action Session) >>= next) s = next s s := rfl

theorem leaves_get_bind (next : Session → Action β) (s : Session) :
    leaves ((get : Action Session) >>= next) s = leaves (next s) s := rfl

theorem leaves_modify_bind (f : Session → Session) (next : Unit → Action β) (s : Session) :
    leaves (modify f >>= next) s = leaves (next ()) (f s) := rfl

theorem leaves_bind {R : Session → Session → Prop} {action : Action α} {next : α → Action β}
    {s : Session} (failed : ∀ e s', action s = .error e s' → R s s')
    (done : ∀ a s', action s = .ok a s' → R s (leaves (next a) s')) :
    R s (leaves (action >>= next) s) := by
  cases h : action s with
  | ok a s' =>
    rw [leaves, bind_of_ok h]
    exact done a s' h
  | error e s' =>
    rw [leaves_of_error (bind_of_error h)]
    exact failed e s' h

theorem gate_of_mem {operation : Gated} {allowed : List Phase} {s : Session}
    (h : s.phase ∈ allowed) : gate operation allowed s = .ok () s := if_pos h

theorem gate_of_not_mem {operation : Gated} {allowed : List Phase} {s : Session}
    (h : s.phase ∉ allowed) :
    gate operation allowed s = refuse (.wrongPhase operation s.phase) s := if_neg h

theorem of_gate {operation : Gated} {allowed : List Phase} {s s' : Session}
    (h : gate operation allowed s = .ok () s') : s' = s := by
  by_cases hp : s.phase ∈ allowed
  · rw [gate_of_mem hp] at h
    cases h
    rfl
  · rw [gate_of_not_mem hp] at h
    cases h

/-- Behind a gate nothing happens in the wrong phase. -/
theorem leaves_gate {R : Session → Session → Prop} {operation : Gated} {allowed : List Phase}
    {next : Action β} {s : Session} (refl : R s s)
    (done : s.phase ∈ allowed → R s (leaves next s)) :
    R s (leaves (gate operation allowed >>= fun _ => next) s) := by
  by_cases hp : s.phase ∈ allowed
  · rw [leaves, bind_of_ok (gate_of_mem hp)]
    exact done hp
  · rw [leaves_of_error (bind_of_error (gate_of_not_mem hp))]
    exact refl

/-- The action gives the answer, or blames the caller if there is none, and changes nothing. -/
def Looks (s : Session) (action : Action α) : Option α → Prop
  | some a => action s = .ok a s
  | none => ∃ v, action s = violate v s

theorem leaves_of_looks {α : Type} {action : Action α} {answer : Option α} {s : Session}
    (h : Looks s action answer) : leaves action s = s := by
  cases answer with
  | some a => exact leaves_of_ok h
  | none =>
    obtain ⟨v, hv⟩ := h
    exact leaves_of_error hv

theorem Looks.of_ok {action : Action α} {answer : Option α} {s s' : Session} {a : α}
    (looks : Looks s action answer) (h : action s = .ok a s') : answer = some a ∧ s' = s := by
  cases answer with
  | some b =>
    cases looks.symm.trans h
    exact ⟨rfl, rfl⟩
  | none =>
    obtain ⟨v, hv⟩ := looks
    cases hv.symm.trans h

theorem Looks.pure (s : Session) (a : α) : Looks s (pure a : Action α) (some a) := rfl

theorem Looks.bind {s : Session} {action : Action α} {answer : Option α} {next : α → Action β}
    {then_ : α → Option β} (h : Looks s action answer)
    (hnext : ∀ a, answer = some a → Looks s (next a) (then_ a)) :
    Looks s (action >>= next) (answer >>= then_) := by
  cases answer with
  | none =>
    obtain ⟨v, hv⟩ := h
    exact ⟨v, bind_of_error hv⟩
  | some a =>
    have hb : (action >>= next) s = next a s := bind_of_ok h
    have hn := hnext a rfl
    show Looks s (action >>= next) (then_ a)
    cases ht : then_ a with
    | none =>
      rw [ht] at hn
      obtain ⟨v, hv⟩ := hn
      exact ⟨v, hb.trans hv⟩
    | some b =>
      rw [ht] at hn
      exact hb.trans hn

section Replacing

variable {T P T' P' : Type} {s : Session} {f : T → Action T'} {g : P → Action P'}
  {f' : T → Option T'} {g' : P → Option P'}

theorem Looks.typeRule (hf : ∀ t, Looks s (f t) (f' t)) (hg : ∀ p, Looks s (g p) (g' p))
    (rule : TypeRule T P) : Looks s (rule.mapM f g) (rule.mapM f' g') := by
  cases rule with
  | profiled | systemByName => exact Looks.pure s _
  | ownerOf p => exact (hg p).bind fun _ _ => Looks.pure s _
  | byName t | fromEntry t | definingFromEntry t | staticFromEntry t | componentOf t | arrayOf t
  | superOf t | fromDispatchEntry t | declaringField t | metaOf t | concreteSubtypeOf t =>
    exact (hf t).bind fun _ _ => Looks.pure s _

theorem Looks.procRule (hf : ∀ t, Looks s (f t) (f' t)) (hg : ∀ p, Looks s (g p) (g' p))
    (rule : ProcRule T P) : Looks s (rule.mapM f g) (rule.mapM f' g') := by
  cases rule with
  | declaredBy t | staticFromEntry t | specialFromEntry t | virtualFromEntry t
  | virtualFromOffset t | improperFromEntry t => exact (hf t).bind fun _ _ => Looks.pure s _
  | interfaceFromEntry t u | bySignature t u =>
    exact (hf t).bind fun _ _ => (hf u).bind fun _ _ => Looks.pure s _
  | singleImplementer t p | singleInterfaceImplementer t p | singleAbstractImplementer t p =>
    exact (hf t).bind fun _ _ => (hg p).bind fun _ _ => Looks.pure s _

theorem Looks.check (hf : ∀ t, Looks s (f t) (f' t)) (hg : ∀ p, Looks s (g p) (g' p))
    (c : Check T P) : Looks s (c.mapM f g) (c.mapM f' g') := by
  cases c with
  | chain t | initialized t => exact (hf t).bind fun _ _ => Looks.pure s _
  | instanceOf t u => exact (hf t).bind fun _ _ => (hf u).bind fun _ _ => Looks.pure s _
  | skipFrames t p => exact (hg p).bind fun _ _ => (hf t).bind fun _ _ => Looks.pure s _

theorem Looks.values (hf : ∀ t, Looks s (f t) (f' t)) (hg : ∀ p, Looks s (g p) (g' p))
    (fs : List FieldSpec) (vs : Values T P fs) :
    Looks s (Values.mapM f g fs vs) (Values.mapM f' g' fs vs) := by
  induction fs with
  | nil => exact Looks.pure s _
  | cons field fs ih =>
    obtain ⟨name, shape⟩ := field
    obtain ⟨v, vs⟩ := vs
    cases shape with
    | type => exact (hf v).bind fun _ _ => (ih vs).bind fun _ _ => Looks.pure s _
    | procedure => exact (hg v).bind fun _ _ => (ih vs).bind fun _ _ => Looks.pure s _
    | text | digest | index | offset | flag => exact (ih vs).bind fun _ _ => Looks.pure s _

theorem Looks.record (hf : ∀ t, Looks s (f t) (f' t)) (hg : ∀ p, Looks s (g p) (g' p))
    (r : Record T P) : Looks s (r.mapM f g) (r.mapM f' g') :=
  (Looks.values hf hg _ r.values).bind fun _ _ => Looks.pure s _

end Replacing

theorem Looks.list {s : Session} {f : α → Action β} {f' : α → Option β}
    (h : ∀ a, Looks s (f a) (f' a)) (l : List α) : Looks s (l.mapM f) (l.mapM f') := by
  induction l with
  | nil => exact Looks.pure s _
  | cons a l ih =>
    rw [List.mapM_cons, List.mapM_cons]
    exact (h a).bind fun _ _ => ih.bind fun _ _ => Looks.pure s _

theorem looks_requireId (x : Symbol) (s : Session) :
    Looks s (requireId x) (s.numbering.id? x) := by
  cases hx : s.numbering.id? x with
  | some id =>
    rw [Looks, requireId, get_bind, hx]
    rfl
  | none =>
    rw [Looks, requireId, get_bind, hx]
    exact ⟨_, rfl⟩

theorem issue_of_some {x : Symbol} {s : Session} {id : SymbolId}
    (h : s.numbering.next = some id) :
    issue x s = .ok id { s with numbering := s.numbering.issue x id } := by
  simp only [issue, h]

theorem issue_of_none {x : Symbol} {s : Session} (h : s.numbering.next = none) :
    issue x s = refuse (.limit .symbolIds) s := by
  simp only [issue, h]

end Session

end Provenance
