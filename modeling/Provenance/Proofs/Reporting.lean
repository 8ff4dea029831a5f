import Provenance.Proofs.Anchoring
import Provenance.Proofs.Refusing

/-!
Reports that test every handle. What a report relies on by itself, components, arrays, owners and
shapes, is read from the world step by step, and each step stops at a handle that leads out of it.
In a world that was built none does, for a report about what the world has.
-/
namespace Provenance

namespace Checked

open Reading Session

variable (w : World)

def baseComponent (t : TypeRef) : Reading (TypeRef × Nat) :=
  match _h : component w t with
  | .error x => .error x
  | .ok none => .ok (t, 0)
  | .ok (some inner) => do
    let (base, dims) ← baseComponent inner
    return (base, dims + 1)
termination_by t.index
decreasing_by exact component_lt _h

def namingRule (t : TypeRef) : Naming → Reading (TypeRule TypeRef ProcRef)
  | .seenBy beholder => return .byName beholder (← typeDecl w t).name
  | .profile => return .profiled (← typeDecl w t).name (← chainDigest w t)
  | .system => return .systemByName (← typeDecl w t).name

def signatureRule (p : ProcRef) (owner beholder : TypeRef) :
    Reading (ProcRule TypeRef ProcRef) := do
  let d ← procDecl w p
  return .bySignature owner beholder d.name d.signature

def addType (ty : TypeRef) (rule : TypeRule TypeRef ProcRef) : Action Unit := do
  act (requirePremises (.type ty rule))
  if (← get).isValidated (.type ty) then act (appendIfNew (.type ty rule))
  else
    act (append (.type ty rule))
    if (← look (component w ty)).isSome then return ()
    else act (appendIfNew (.check (.chain ty (← look (chainDigest w ty)))))

def addProcedure (p : ProcRef) (rule : ProcRule TypeRef ProcRef) : Action Unit := do
  act (requirePremises (.procedure p rule))
  if (← get).isValidated (.procedure p) then act (appendIfNew (.procedure p rule))
  else
    act (append (.procedure p rule))
    let owner := (← look (procDecl w p)).owner
    if (← get).isValidated (.type owner) then return () else addType w owner (.ownerOf p)

def addArrays (ty : TypeRef) : (dims : Nat) → (component : TypeRef) → Action Unit
  | 0, _ => return ()
  | dims + 1, component => do
    match (← look (typeDecl w component)).array with
    | none => act (violate (.lostArray component ty))
    | some array =>
      addType w array (.arrayOf component)
      addArrays ty dims array

def addNamed (ty : TypeRef) (naming : Naming) : Action Unit := do
  let (component, dims) ← look (baseComponent w ty)
  let max := (← get).config.maxArrayDimensions.toNat
  if max < dims then act (refuse (.limit (.arrayDimensions ty dims max)))
  addType w component (← look (namingRule w component naming))
  addArrays w ty dims component

/-- All that is recorded of a discovery that has an answer. -/
def record (d : Discovery) : Action Bool := do
  match d with
  | .named (some ty) naming => addNamed w ty naming
  | .type (some ty) rule _ => addType w ty rule
  | .signed (some p) owner beholder =>
    addProcedure w p (← look (signatureRule w p owner beholder))
  | .procedure (some p) rule _ => addProcedure w p rule
  | .check c _ => act (addCheck c)
  | .named none _ | .type none .. | .signed none .. | .procedure none .. => return false
  return true

def add (d : Discovery) : Action Bool := do
  act (gate (.add d.kind) [.building])
  if (← get).region.isOpen then return false
  else
    look (allPresent w d.symbols)
    record w d

variable {w} {t : TypeRef} {p : ProcRef} {s : Session}

theorem baseComponent_of_none (h : component w t = .ok none) :
    baseComponent w t = .ok (t, 0) := by
  rw [baseComponent]
  split <;> simp_all

theorem baseComponent_of_some {inner : TypeRef} (h : component w t = .ok (some inner)) :
    baseComponent w t = do
      let (base, dims) ← baseComponent w inner
      return (base, dims + 1) := by
  rw [baseComponent]
  split <;> simp_all

theorem baseComponent_eq_ok (h : w.Sound) (ht : w.Has (.type t)) :
    baseComponent w t = .ok (w.model.baseComponent t) := by
  induction t using w.finiteNesting.induction with
  | _ t ih =>
    have hread := component_eq_ok h ht
    cases hc : w.component t with
    | none =>
      rw [hc] at hread
      rw [baseComponent_of_none hread, w.model.baseComponent_of_none hc]
    | some inner =>
      rw [hc] at hread
      rw [baseComponent_of_some hread, w.model.baseComponent_of_some hc,
        ok_bind (ih inner hc (h.has_component hc))]
      rfl

theorem namingRule_eq_ok (h : w.Sound) (ht : w.Has (.type t)) (naming : Naming) :
    namingRule w t naming = .ok (naming.rule w.model t) := by
  cases naming with
  | seenBy | system => exact ok_bind (typeDecl_eq_ok ht) _
  | profile =>
    rw [namingRule, ok_bind (typeDecl_eq_ok ht), ok_bind (chainDigest_eq_ok h ht)]
    rfl

theorem signatureRule_eq_ok (hp : w.Has (.procedure p)) (owner beholder : TypeRef) :
    signatureRule w p owner beholder = .ok (.bySignature owner beholder
      (w.model.procedureName p) (w.model.procedureSignature p)) :=
  ok_bind (procDecl_eq_ok hp) _

/-- A symbol that is known is recorded once more as it is, and one that is not with all that is due
with it. -/
theorem addType_eq (h : w.Sound) (ht : w.Has (.type t)) (rule : TypeRule TypeRef ProcRef)
    (s : Session) : addType w t rule s = act (Session.addType w.model t rule) s := by
  refine act_bind fun _ s₁ _ => ?_
  show (if s₁.isValidated (.type t) then _ else _ : Action Unit) s₁ =
    act (if s₁.isValidated (.type t) then _ else _) s₁
  split
  · rfl
  · refine act_bind fun _ s₂ _ => ?_
    refine (look_bind (component_eq_ok h ht) _).trans ?_
    show (if w.model.isArray t then _ else _ : Action Unit) s₂ =
      act (if w.model.isArray t then _ else _) s₂
    split
    · rfl
    · exact look_bind (chainDigest_eq_ok h ht) _

theorem addProcedure_eq (h : w.Sound) (hp : w.Has (.procedure p))
    (rule : ProcRule TypeRef ProcRef) (s : Session) :
    addProcedure w p rule s = act (Session.addProcedure w.model p rule) s := by
  refine act_bind fun _ s₁ _ => ?_
  show (if s₁.isValidated (.procedure p) then _ else _ : Action Unit) s₁ =
    act (if s₁.isValidated (.procedure p) then _ else _) s₁
  split
  · rfl
  · refine act_bind fun _ s₂ _ => ?_
    refine (look_bind (procDecl_eq_ok hp) _).trans ?_
    show (if s₂.isValidated (.type (w.procDecl p).owner) then _ else _ : Action Unit) s₂ =
      act (if s₂.isValidated (.type (w.procDecl p).owner) then _ else _) s₂
    split
    · rfl
    · exact addType_eq h (h.owner p) _ s₂

theorem addArrays_eq (h : w.Sound) (ty : TypeRef) (dims : Nat) (ht : w.Has (.type t))
    (s : Session) : addArrays w ty dims t s = act (Session.addArrays w.model ty dims t) s := by
  induction dims generalizing t s with
  | zero => rfl
  | succ dims ih =>
    refine (look_bind (typeDecl_eq_ok ht) _).trans ?_
    show (match (w.typeDecl t).array with | none => _ | some _ => _ : Action Unit) s =
      act (match (w.typeDecl t).array with | none => _ | some _ => _) s
    cases ha : (w.typeDecl t).array with
    | none => rfl
    | some array =>
      have has := (h.covers t).array array ha
      exact act_bind_of_eq (addType_eq h has _ s) fun _ s' => ih has s'

theorem addNamed_eq (h : w.Sound) (ht : w.Has (.type t)) (naming : Naming) (s : Session) :
    addNamed w t naming s = act (Session.addNamed w.model t naming) s := by
  have has := h.closed.baseComponent ht
  refine (look_bind (baseComponent_eq_ok h ht) _).trans ?_
  rw [Session.addNamed]
  generalize w.model.baseComponent t = nested at has ⊢
  obtain ⟨component, dims⟩ := nested
  have unrolled (s : Session) :
      (do addType w component (← look (namingRule w component naming))
          addArrays w t dims component : Action Unit) s =
        act (do Session.addType w.model component (naming.rule w.model component)
                Session.addArrays w.model t dims component) s := by
    refine (look_bind (namingRule_eq_ok h has naming) _).trans ?_
    exact act_bind_of_eq (addType_eq h has _ s) fun _ s' => addArrays_eq h t dims has s'
  show (if s.config.maxArrayDimensions.toNat < dims then _ else _ : Action Unit) s =
    act (if s.config.maxArrayDimensions.toNat < dims then _ else _) s
  split
  · exact act_bind fun _ s' _ => unrolled s'
  · exact unrolled s

/-- As every handle is there, testing it makes no difference. -/
theorem add_eq (h : w.Sound) {d : Discovery} (existing : ∀ x ∈ d.symbols, w.Has x)
    (s : Session) : add w d s = act (Session.add w.model d) s := by
  refine act_bind fun _ s₁ _ => ?_
  show (if s₁.region.isOpen then _ else _ : Action Bool) s₁ =
    act (if s₁.region.isOpen then _ else _) s₁
  split
  · rfl
  · refine (look_bind (allPresent_eq_ok existing) _).trans ?_
    cases d with
    | named ty naming =>
      cases ty with
      | none => rfl
      | some ty =>
        exact act_bind_of_eq (addNamed_eq h (existing _ List.mem_cons_self) naming s₁) fun _ _ => rfl
    | type ty rule unnamed =>
      cases ty with
      | none => rfl
      | some ty =>
        exact act_bind_of_eq (addType_eq h (existing _ List.mem_cons_self) rule s₁) fun _ _ => rfl
    | signed p owner beholder =>
      cases p with
      | none => rfl
      | some p =>
        have hp := existing _ List.mem_cons_self
        refine (look_bind (signatureRule_eq_ok hp owner beholder) _).trans ?_
        exact act_bind_of_eq (addProcedure_eq h hp _ s₁) fun _ _ => rfl
    | procedure p rule unsigned =>
      cases p with
      | none => rfl
      | some p =>
        exact act_bind_of_eq (addProcedure_eq h (existing _ List.mem_cons_self) rule s₁)
          fun _ _ => rfl
    | check c unchained => exact act_bind fun _ _ _ => rfl

end Checked

namespace Session

variable {w : World} {config : Config} {ops : List Operation} {op : Operation} {s₀ t : Session}

/-- Wherever operations on what the world has may have led, a session knows only what the world
has, and a report about it that tests every handle is the report: no handle leads out of the world.
No report finds a record there that it is about to make for the first time, nor an array gone, and
sealing outside of all regions never misses an ID. So while a session is building the only logic
error of a report is a premise that is unknown, and a report with all premises known is never
fatal. -/
theorem internal_checks_never_fail (built : w.Built)
    (new : s₀ = forCompile w.model config ∨ s₀ = forLoad w.model config)
    (existing : ∀ x ∈ Operation.symbolsAll ops, w.Has x)
    (issued : (op, t) ∈ issuedAll w.model ops s₀) :
    (∀ id x, t.numbering.symbolOf? id = some x → w.Has x) ∧
    (∀ d, (∀ x ∈ d.symbols, w.Has x) →
      Checked.add w d t = Checked.act (add w.model d) t ∧
      (∀ x t', Checked.add w d t ≠ .error (.astray x) t') ∧
      ∀ failure, (perform w.model (.add d) t).1 = .failed failure →
        (∀ r, failure.error ≠ .invariant (.appendedTwice r)) ∧
        (∀ component ty, failure.error ≠ .invariant (.lostArray component ty)) ∧
        (t.phase = .building →
          (failure.error.isLogic = true → ∃ r x, d.record? w.model = some r ∧ x ∈ r.premises ∧
            t.numbering.id? x = none ∧ failure.error = .invariant (.unknownPremise x r.kind)) ∧
          ((∀ r, d.record? w.model = some r → ∀ x ∈ r.premises, (t.numbering.id? x).isSome) →
            ∃ e, failure = .refused e))) ∧
    (t.region.isOpen = false →
      (∀ failure x, (perform w.model .sealRecords t).1 = .failed failure →
        failure.error ≠ .invariant (.noId x)) ∧
      (t.phase = .building → ∃ records, (perform w.model .sealRecords t).1 = .sealed records)) := by
  have recording := (Reaches.issuedAll issued).recording new
  have start : Anchored w s₀ := by
    rcases new with rfl | rfl
    · exact Anchored.start built.wellFormed config .building
    · exact Anchored.start built.wellFormed config .loading
  refine ⟨start.issued built.wellFormed existing issued, fun d has => ?_, fun closed => ?_⟩
  · have same := Checked.add_eq built.sound has t
    refine ⟨same, fun x t' => ?_, fun failure failed => ?_⟩
    · rw [same]
      exact Checked.act_ne_astray _ x t t'
    rcases (ends_add built.model_linked d recording).of_failed failed with
      rfl | ⟨-, e, objection, rfl⟩
    · exact ⟨nofun, nofun, fun _ => ⟨nofun, fun _ => ⟨_, rfl⟩⟩⟩
    · rw [error_failing]
      cases objection with
      | phase wrong => exact ⟨nofun, nofun, fun building => absurd building wrong⟩
      | depth _ _ =>
        exact ⟨nofun, nofun, fun _ => ⟨nofun, fun _ => ⟨_, failing_of_not_logic rfl t⟩⟩⟩
      | @premise r x _ asked mem unknown =>
        refine ⟨nofun, nofun, fun _ => ⟨fun _ => ⟨r, x, asked, mem, unknown, rfl⟩, ?_⟩⟩
        intro known
        have hx := known r asked x mem
        rw [unknown] at hx
        cases hx
  · by_cases building : t.phase = .building
    · obtain ⟨records, answered⟩ := (recording building closed).seals
      rw [answered]
      exact ⟨nofun, fun _ => ⟨records, rfl⟩⟩
    · rw [perform_sealRecords_of_not_building w.model building]
      refine ⟨?_, fun h => absurd h building⟩
      rintro failure x ⟨⟩
      simp

/-- Where assertions are fatal and arrays may have one dimension: behind the report of such an
array, one of its component and one of the array of two dimensions. -/
theorem internal_checks_never_fail_of_deep_array :
    let w := (World.shadowed.arrayOf ⟨3⟩).2
    let s₀ := forCompile w.model (Config.strict.withMaxArrayDimensions 1)
    let ops := [Operation.add (.named (some ⟨3⟩) .system)]
    let t := (performAll w.model ops s₀).2
    let below := Discovery.type (some ⟨2⟩) (.componentOf ⟨3⟩) rfl
    let deep := Discovery.named (some ⟨5⟩) .system
    w.Built ∧ (∀ x ∈ Operation.symbolsAll (ops ++ [.records]), w.Has x) ∧
      (.records, t) ∈ issuedAll w.model (ops ++ [.records]) s₀ ∧
      t.ledger.contains (.type ⟨3⟩ (.arrayOf ⟨2⟩)) = true ∧
      (∀ x ∈ below.symbols, w.Has x) ∧
      Checked.add w below t = Checked.act (add w.model below) t ∧
      (∀ x ∈ deep.symbols, w.Has x) ∧
      (∃ failure e, (perform w.model (.add deep) t).1 = .failed failure ∧ failure = .refused e) ∧
      ∃ records, (perform w.model .sealRecords t).1 = .sealed records := by
  intro w s₀ ops t below deep
  have built : w.Built := .arrayOf ⟨3⟩ World.built_shadowed (by decide)
  have existing : ∀ x ∈ Operation.symbolsAll (ops ++ [.records]), w.Has x := by decide
  have issued : (.records, t) ∈ issuedAll w.model (ops ++ [.records]) s₀ :=
    mem_issuedAll_last .records ops s₀
  have plain : w.model.componentType ⟨2⟩ = none := rfl
  have inner : w.model.componentType ⟨3⟩ = some ⟨2⟩ := rfl
  have outer : w.model.componentType ⟨5⟩ = some ⟨3⟩ := rfl
  have array : w.model.baseComponent ⟨3⟩ = (⟨2⟩, 1) := by
    rw [Model.baseComponent_of_some _ inner, Model.baseComponent_of_none _ plain]
  have nested : w.model.baseComponent ⟨5⟩ = (⟨2⟩, 2) := by
    rw [Model.baseComponent_of_some _ outer, array]
  have grows : Grows (fun _ => True) s₀ t := adds_grow w.model [.named (some ⟨3⟩) .system] s₀
  have building : t.phase = .building := grows.phase
  have closed : t.region.isOpen = false := by
    rw [grows.region]
    rfl
  have allowed : t.config.maxArrayDimensions.toNat = 1 := by
    rw [(Reaches.performAll w.model ops s₀).config_eq]
    rfl
  have told : (perform w.model (.add (.named (some ⟨3⟩) .system)) s₀).1 = .flag true :=
    told_after_seeds .system _ [] built.model_linked array (by decide) (by decide) (by decide)
  have made : t.ledger.contains (.type ⟨3⟩ (.arrayOf ⟨2⟩)) = true := by
    obtain ⟨arrays, asks, stand⟩ := (reported_of_flag told).named
    rw [array] at asks stand
    cases asks
    exact (stand _ (List.mem_cons_of_mem _ List.mem_cons_self)).recorded
  obtain ⟨-, reports, sealing⟩ := internal_checks_never_fail built (.inl rfl) existing issued
  have hasBelow : ∀ x ∈ below.symbols, w.Has x := by decide
  have hasDeep : ∀ x ∈ deep.symbols, w.Has x := by decide
  have failed : (perform w.model (.add deep) t).1 = .failed _ :=
    congrArg Prod.fst (perform_add_too_deep .system building closed nested (by omega))
  obtain ⟨-, -, building'⟩ := (reports deep hasDeep).2.2 _ failed
  obtain ⟨e, refused⟩ := (building' building).2 fun r asked x hx => by
    cases asked
    rw [Record.premises_type] at hx
    cases hx
  exact ⟨built, existing, issued, made, hasBelow, (reports below hasBelow).1, hasDeep,
    ⟨_, e, failed, refused⟩, (sealing closed).2 building⟩

end Session

end Provenance
