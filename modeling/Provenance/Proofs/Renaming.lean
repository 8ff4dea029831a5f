import Mathlib.Data.Set.Function
import Provenance.Session.Operation
import Provenance.Proofs.Actions

/-!
Renaming all that a session is told and all that it tells. Symbols are named in what is reported
and asked, and in answers and errors; everything else there is, IDs and sealed records above all,
has no symbols in it and stays as it is. Two programs are alike under a renaming if what a
session asks the one by itself about its symbols has the renamed answers from the other.
-/
namespace Provenance

variable {T P T' P' : Type}

theorem TypeRule.isNamed_map (f : T → T') (g : P → P') (rule : TypeRule T P) :
    (rule.map f g).isNamed = rule.isNamed := by
  cases rule <;> rfl

theorem ProcRule.isBySignature_map (f : T → T') (g : P → P') (rule : ProcRule T P) :
    (rule.map f g).isBySignature = rule.isBySignature := by
  cases rule <;> rfl

theorem Check.isChain_map (f : T → T') (g : P → P') (c : Check T P) :
    (c.map f g).isChain = c.isChain := by
  cases c <;> rfl

/-- New handles for the handles of a program. -/
structure Renaming where
  type : TypeRef → TypeRef
  procedure : ProcRef → ProcRef

namespace Renaming

variable (φ : Renaming)

def symbol : Symbol → Symbol := Operand.map φ.type φ.procedure

def record : LiveRecord → LiveRecord := Record.map φ.type φ.procedure

def naming : Naming → Naming
  | .seenBy beholder => .seenBy (φ.type beholder)
  | .profile => .profile
  | .system => .system

def discovery : Discovery → Discovery
  | .named ty naming => .named (ty.map φ.type) (φ.naming naming)
  | .type ty rule unnamed =>
    .type (ty.map φ.type) (rule.map φ.type φ.procedure) ((rule.isNamed_map _ _).trans unnamed)
  | .signed p owner beholder =>
    .signed (p.map φ.procedure) (φ.type owner) (φ.type beholder)
  | .procedure p rule unsigned =>
    .procedure (p.map φ.procedure) (rule.map φ.type φ.procedure)
      ((rule.isBySignature_map _ _).trans unsigned)
  | .check c unchained =>
    .check (c.map φ.type φ.procedure) ((c.isChain_map _ _).trans unchained)

mutual

def operation : Operation → Operation
  | .add d => .add (φ.discovery d)
  | .seed x => .seed (φ.symbol x)
  | .enterRegion => .enterRegion
  | .exitRegion => .exitRegion
  | .guarded body => .guarded (operations body)
  | .isValidated x => .isValidated (φ.symbol x)
  | .findId x => .findId (φ.symbol x)
  | .requireId x => .requireId (φ.symbol x)
  | .symbolFor id expected presence => .symbolFor id expected presence
  | .typeFor id presence => .typeFor id presence
  | .procedureFor id presence => .procedureFor id presence
  | .contains r => .contains (φ.record r)
  | .records => .records
  | .sealRecords => .sealRecords
  | .validateSymbol id x => .validateSymbol id (x.map φ.symbol)
  | .validate r => .validate r
  | .validateRecords records => .validateRecords records

def operations : List Operation → List Operation
  | [] => []
  | op :: rest => operation op :: operations rest

end

def violation : Violation → Violation
  | .lateSeed x => .lateSeed (φ.symbol x)
  | .unbalancedExit => .unbalancedExit
  | .unbalancedGuard opened found => .unbalancedGuard opened found
  | .noId x => .noId (φ.symbol x)
  | .wrongCategory id x expected => .wrongCategory id (φ.symbol x) expected
  | .unboundId id => .unboundId id
  | .openRegions depth => .openRegions depth
  | .appendedTwice r => .appendedTwice (φ.record r)
  | .unknownPremise x kind => .unknownPremise (φ.symbol x) kind
  | .lostArray component ty => .lostArray (φ.type component) (φ.type ty)

def limit : Limit → Limit
  | .symbolIds => .symbolIds
  | .arrayDimensions ty dims max => .arrayDimensions (φ.type ty) dims max

def error : SessionError → SessionError
  | .invariant v => .invariant (φ.violation v)
  | .limit l => .limit (φ.limit l)
  | .wrongPhase op phase => .wrongPhase op phase
  | .rejected index kind => .rejected index kind

def failure : Failure → Failure
  | .refused e => .refused (φ.error e)
  | .fatal e => .fatal (φ.error e)

mutual

def outcome : Outcome → Outcome
  | .done => .done
  | .flag value => .flag value
  | .id id => .id id
  | .symbol x => .symbol (x.map φ.symbol)
  | .type t => .type (t.map φ.type)
  | .procedure p => .procedure (p.map φ.procedure)
  | .records records => .records (records.map φ.record)
  | .sealed records => .sealed records
  | .failed failure => .failed (φ.failure failure)
  | .guarded inside closing => .guarded (outcomes inside) (closing.map φ.failure)

def outcomes : List Outcome → List Outcome
  | [] => []
  | first :: rest => outcome first :: outcomes rest

end

@[simp] theorem kind_naming (naming : Naming) : (φ.naming naming).kind = naming.kind := by
  cases naming <;> rfl

/-- What is found is of the same kind. -/
theorem kind_discovery (d : Discovery) : (φ.discovery d).kind = d.kind := by
  cases d with
  | named ty naming => exact φ.kind_naming naming
  | type ty rule => cases rule <;> rfl
  | signed => rfl
  | procedure p rule => cases rule <;> rfl
  | check c => cases c <;> rfl

theorem isLogic_error (e : SessionError) : (φ.error e).isLogic = e.isLogic := by
  cases e <;> rfl

theorem asType_symbol (x : Symbol) : (φ.symbol x).asType = x.asType.map φ.type := by
  cases x <;> rfl

theorem asProcedure_symbol (x : Symbol) :
    (φ.symbol x).asProcedure = x.asProcedure.map φ.procedure := by
  cases x <;> rfl

end Renaming

def Naming.symbols : Naming → List Symbol
  | .seenBy beholder => [.type beholder]
  | .profile | .system => []

theorem Naming.operands_rule (naming : Naming) (model : Model) (t : TypeRef) :
    (naming.rule model t).operands = naming.symbols := by
  cases naming <;> rfl

def Discovery.symbols : Discovery → List Symbol
  | .named ty naming => ty.toList.map .type ++ naming.symbols
  | .type ty rule _ => ty.toList.map .type ++ rule.operands
  | .signed p owner beholder => p.toList.map .procedure ++ [.type owner, .type beholder]
  | .procedure p rule _ => p.toList.map .procedure ++ rule.operands
  | .check c _ => c.operands

namespace Operation

mutual

/-- The symbols that an operation is handed. -/
def symbols : Operation → List Symbol
  | .add d => d.symbols
  | .seed x | .isValidated x | .findId x | .requireId x => [x]
  | .contains r => r.operands
  | .validateSymbol _ x => x.toList
  | .guarded body => symbolsAll body
  | _ => []

def symbolsAll : List Operation → List Symbol
  | [] => []
  | operation :: rest => symbols operation ++ symbolsAll rest

end

end Operation

/-- The symbols of a program, or some of them that make up a part of it: all that a session asks
about them by itself leads to others of them. -/
structure Model.Closed (model : Model) (has : Symbol → Prop) : Prop where
  rootType : has (.type model.rootType)
  metaType : has (.type model.metaType)
  componentType : ∀ t component, has (.type t) → model.componentType t = some component →
    has (.type component)
  arrayType : ∀ t array, has (.type t) → model.arrayType t = some array → has (.type array)
  ownerOf : ∀ p, has (.procedure p) → has (.type (model.ownerOf p))

theorem Model.Closed.baseComponent {model : Model} {has : Symbol → Prop} (closed : model.Closed has)
    {t : TypeRef} (h : has (.type t)) : has (.type (model.baseComponent t).1) := by
  induction t using model.finiteNesting.induction with
  | _ t ih =>
    cases ht : model.componentType t with
    | none => rwa [model.baseComponent_of_none ht]
    | some component =>
      rw [model.baseComponent_of_some ht]
      exact ih component ht (closed.componentType t component h ht)

/-- A renaming of the symbols of one program, without confusion, under which another is alike in
all that a session asks by itself: components, arrays and owners are the renamed ones, a missing
answer stays missing, and names, signatures and chains are the same. -/
structure Likeness (model model' : Model) extends Renaming where
  Has : Symbol → Prop
  closed : model.Closed Has
  injective : ∀ x, Has x → ∀ y, Has y → toRenaming.symbol x = toRenaming.symbol y → x = y
  type_rootType : type model.rootType = model'.rootType
  type_metaType : type model.metaType = model'.metaType
  componentType_type : ∀ t, Has (.type t) →
    model'.componentType (type t) = (model.componentType t).map type
  arrayType_type : ∀ t, Has (.type t) → model'.arrayType (type t) = (model.arrayType t).map type
  ownerOf_procedure : ∀ p, Has (.procedure p) →
    model'.ownerOf (procedure p) = type (model.ownerOf p)
  chainDigest_type : ∀ t, Has (.type t) → model'.chainDigest (type t) = model.chainDigest t
  typeName_type : ∀ t, Has (.type t) → model'.typeName (type t) = model.typeName t
  procedureName_procedure : ∀ p, Has (.procedure p) →
    model'.procedureName (procedure p) = model.procedureName p
  procedureSignature_procedure : ∀ p, Has (.procedure p) →
    model'.procedureSignature (procedure p) = model.procedureSignature p

namespace Likeness

variable {model model' : Model} {r r' : LiveRecord} {t : TypeRef} {p : ProcRef}

/-- A record speaks of symbols of the first program only. -/
def Covers (φ : Likeness model model') (r : LiveRecord) : Prop := ∀ x ∈ r.operands, φ.Has x

theorem covers_type {φ : Likeness model model'} {rule : TypeRule TypeRef ProcRef} :
    φ.Covers (.type t rule) ↔ φ.Has (.type t) ∧ ∀ x ∈ rule.operands, φ.Has x := by
  simp [Covers, Record.mem_operands_iff, Record.premises_type, Record.defined, or_imp, forall_and]

theorem covers_procedure {φ : Likeness model model'} {rule : ProcRule TypeRef ProcRef} :
    φ.Covers (.procedure p rule) ↔ φ.Has (.procedure p) ∧ ∀ x ∈ rule.operands, φ.Has x := by
  simp [Covers, Record.mem_operands_iff, Record.premises_procedure, Record.defined, or_imp,
    forall_and]

theorem covers_check {φ : Likeness model model'} {c : Check TypeRef ProcRef} :
    φ.Covers (.check c) ↔ ∀ x ∈ c.operands, φ.Has x := by
  simp [Covers, Record.mem_operands_iff, Record.premises_check, Record.defined]

/-- What is renamed without confusion can be named back. -/
theorem record_injective (φ : Likeness model model') (hr : φ.Covers r) (hr' : φ.Covers r')
    (h : φ.record r = φ.record r') : r = r' := by
  have types : Set.InjOn φ.type { t | φ.Has (.type t) } := fun t ht u hu h =>
    Operand.type.inj (φ.injective (.type t) ht (.type u) hu (congrArg Operand.type h))
  have procedures : Set.InjOn φ.procedure { p | φ.Has (.procedure p) } := fun p hp q hq h =>
    Operand.procedure.inj
      (φ.injective (.procedure p) hp (.procedure q) hq (congrArg Operand.procedure h))
  have back (r : LiveRecord) (hr : φ.Covers r) :
      (φ.record r).map (Function.invFunOn φ.type { t | φ.Has (.type t) })
        (Function.invFunOn φ.procedure { p | φ.Has (.procedure p) }) = r := by
    rw [Renaming.record, Record.map_map]
    exact (Record.map_congr (fun t ht => types.leftInvOn_invFunOn (hr _ ht))
      fun p hp => procedures.leftInvOn_invFunOn (hr _ hp)).trans (Record.map_id r)
  rw [← back r hr, h, back r' hr']

theorem isArray_type (φ : Likeness model model') (ht : φ.Has (.type t)) :
    model'.isArray (φ.type t) = model.isArray t := by
  simp only [Model.isArray, φ.componentType_type t ht, Option.isSome_map]

/-- Arrays are nested as deep around the renamed component. -/
theorem baseComponent_type (φ : Likeness model model') (has : φ.Has (.type t)) :
    model'.baseComponent (φ.type t) =
      (φ.type (model.baseComponent t).1, (model.baseComponent t).2) := by
  induction t using model.finiteNesting.induction with
  | _ t ih =>
    have hcomponent := φ.componentType_type t has
    cases ht : model.componentType t with
    | none =>
      rw [ht] at hcomponent
      rw [model'.baseComponent_of_none hcomponent, model.baseComponent_of_none ht]
    | some component =>
      rw [ht] at hcomponent
      rw [model'.baseComponent_of_some hcomponent, model.baseComponent_of_some ht,
        ih component ht (φ.closed.componentType t component has ht)]

theorem rule_naming (φ : Likeness model model') (ht : φ.Has (.type t)) (naming : Naming) :
    (φ.naming naming).rule model' (φ.type t) =
      (naming.rule model t).map φ.type φ.procedure := by
  cases naming <;>
    simp only [Renaming.naming, Naming.rule, φ.typeName_type t ht, φ.chainDigest_type t ht] <;>
    rfl

theorem rule_signed (φ : Likeness model model') (hp : φ.Has (.procedure p))
    (owner beholder : TypeRef) :
    (.bySignature (φ.type owner) (φ.type beholder) (model'.procedureName (φ.procedure p))
        (model'.procedureSignature (φ.procedure p)) : ProcRule TypeRef ProcRef) =
      (ProcRule.bySignature owner beholder (model.procedureName p)
        (model.procedureSignature p)).map φ.type φ.procedure := by
  rw [φ.procedureName_procedure p hp, φ.procedureSignature_procedure p hp]
  rfl

end Likeness

end Provenance
