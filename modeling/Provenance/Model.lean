import Provenance.Entry
import Provenance.Record.Basic

/-!
The queries that a running program answers about itself. A record names one of them:
`Model.typeOf` and `Model.procedureOf` ask the query of a rule, `Model.holds` the query
of a check. A model may answer anything, except that arrays are nested finitely deep.
-/
namespace Provenance

/-- An answer that static knowledge may leave open. -/
inductive Verdict where
  | yes
  | no
  | maybe
deriving DecidableEq, Repr

structure Model where
  rootType : TypeRef
  metaType : TypeRef
  typeName : TypeRef → String
  procedureName : ProcRef → String
  procedureSignature : ProcRef → String
  /-- Resolves a name as the beholder sees it. -/
  typeByName : (beholder : TypeRef) → (name : String) → Option TypeRef
  systemTypeByName : (name : String) → Option TypeRef
  /-- Finds a type by its name among those of one shape. -/
  typeByChain : (name : String) → Digest → Option TypeRef
  chainDigest : TypeRef → Digest
  entryType : (beholder : TypeRef) → (index : UInt32) → Option TypeRef
  entryDefiningType : (beholder : TypeRef) → (index : UInt32) → (isStatic : Bool) → Option TypeRef
  entryStaticType : (beholder : TypeRef) → (index : UInt32) → Option TypeRef
  entryDeclaringType : (beholder : TypeRef) → (index : UInt32) → Option TypeRef
  entryDispatchType : (beholder : TypeRef) → (index : UInt32) → Option TypeRef
  entryProcedure : (beholder : TypeRef) → (index : UInt32) → Dispatch → Option ProcRef
  entryInterfaceProcedure : (beholder lookup : TypeRef) → (index : UInt32) → Option ProcRef
  entryImproperProcedure : (beholder : TypeRef) → (index : UInt32) → Option ProcRef
  ownerOf : ProcRef → TypeRef
  superType : TypeRef → Option TypeRef
  componentType : TypeRef → Option TypeRef
  arrayType : TypeRef → Option TypeRef
  isInstanceOf : (object cast : TypeRef) → (objectFixed castFixed : Bool) → Verdict
  singleConcreteSubtype : TypeRef → Option TypeRef
  isInitialized : TypeRef → Bool
  procedureAt : (ty : TypeRef) → (index : UInt32) → Option ProcRef
  virtualProcedureAt : (ty : TypeRef) → (offset : Int32) → (ignoreResolution : Bool) →
    Option ProcRef
  procedureBySignature : (owner beholder : TypeRef) → (name signature : String) → Option ProcRef
  singleImplementer : (thisType : TypeRef) → (slot : UInt32) → (caller : ProcRef) → Option ProcRef
  singleInterfaceImplementer : (thisType : TypeRef) → (index : UInt32) → (caller : ProcRef) →
    Option ProcRef
  singleAbstractImplementer : (thisType : TypeRef) → (slot : UInt32) → (caller : ProcRef) →
    Option ProcRef
  maySkipFrames : (procedure : ProcRef) → (owner : TypeRef) → Bool
  finiteNesting : WellFounded fun component array => componentType array = some component

namespace Model

variable (m : Model)

def isArray (t : TypeRef) : Bool := (m.componentType t).isSome

/-- The innermost component of a type and the number of array dimensions around it. -/
def baseComponent (t : TypeRef) : TypeRef × Nat :=
  match _h : m.componentType t with
  | none => (t, 0)
  | some component =>
    let (base, dims) := baseComponent component
    (base, dims + 1)
termination_by m.finiteNesting.wrap t
decreasing_by assumption

theorem baseComponent_of_none {t : TypeRef} (h : m.componentType t = none) :
    m.baseComponent t = (t, 0) := by
  rw [baseComponent]
  split
  · rfl
  · simp_all

theorem baseComponent_of_some {t component : TypeRef} (h : m.componentType t = some component) :
    m.baseComponent t =
      ((m.baseComponent component).1, (m.baseComponent component).2 + 1) := by
  rw [baseComponent]
  split
  · simp_all
  · simp_all

/-- The type that a rule leads to now. -/
def typeOf : TypeRule TypeRef ProcRef → Option TypeRef
  | .byName beholder name => m.typeByName beholder name
  | .profiled name digest => m.typeByChain name digest
  | .fromEntry beholder index => m.entryType beholder index
  | .definingFromEntry beholder index isStatic => m.entryDefiningType beholder index isStatic
  | .staticFromEntry beholder index => m.entryStaticType beholder index
  | .ownerOf procedure => some (m.ownerOf procedure)
  | .componentOf array => m.componentType array
  | .arrayOf component => m.arrayType component
  | .superOf child => m.superType child
  | .systemByName name => m.systemTypeByName name
  | .fromDispatchEntry beholder index => m.entryDispatchType beholder index
  | .declaringField beholder index => m.entryDeclaringType beholder index
  | .metaOf _ => some m.metaType
  | .concreteSubtypeOf superType => m.singleConcreteSubtype superType

/-- The procedure that a rule leads to now. -/
def procedureOf : ProcRule TypeRef ProcRef → Option ProcRef
  | .declaredBy beholder index => m.procedureAt beholder index
  | .staticFromEntry beholder index => m.entryProcedure beholder index .static
  | .specialFromEntry beholder index => m.entryProcedure beholder index .special
  | .virtualFromEntry beholder index => m.entryProcedure beholder index .virtual
  | .virtualFromOffset beholder offset ignore => m.virtualProcedureAt beholder offset ignore
  | .interfaceFromEntry beholder lookup index => m.entryInterfaceProcedure beholder lookup index
  | .improperFromEntry beholder index => m.entryImproperProcedure beholder index
  | .bySignature owner beholder name signature =>
    m.procedureBySignature owner beholder name signature
  | .singleImplementer thisType caller slot => m.singleImplementer thisType slot caller
  | .singleInterfaceImplementer thisType caller index =>
    m.singleInterfaceImplementer thisType index caller
  | .singleAbstractImplementer thisType caller slot =>
    m.singleAbstractImplementer thisType slot caller

/-- Whether a check still holds. An open verdict holds neither way, and a type that was
not initialized may be so by now. -/
def holds : Check TypeRef ProcRef → Bool
  | .instanceOf object cast objectFixed castFixed isInstance =>
    match m.isInstanceOf object cast objectFixed castFixed with
    | .yes => isInstance
    | .no => !isInstance
    | .maybe => false
  | .chain ty digest => m.chainDigest ty = digest
  | .skipFrames owner procedure skip => m.maySkipFrames procedure owner == skip
  | .initialized ty isInitialized => !isInitialized || m.isInitialized ty

end Model

end Provenance
