import Provenance.Symbol
import Provenance.SymbolId
import Provenance.Record.Kind

/-!
Provenance records. A record states how one symbol follows from symbols known
before it, by a rule that the live program can be asked again, or it states a
property of known symbols. Operands are handles while the program is analysed and
symbol IDs in a sealed list, hence the two parameters.
-/
namespace Provenance

/-- How a type is found. -/
inductive TypeRule (T P : Type) where
  | byName (beholder : T) (name : String)
  | profiled (name : String) (digest : Digest)
  | fromEntry (beholder : T) (index : UInt32)
  | definingFromEntry (beholder : T) (index : UInt32) (isStatic : Bool)
  | staticFromEntry (beholder : T) (index : UInt32)
  | ownerOf (procedure : P)
  | componentOf (array : T)
  | arrayOf (component : T)
  | superOf (child : T)
  | systemByName (name : String)
  | fromDispatchEntry (beholder : T) (index : UInt32)
  | declaringField (beholder : T) (index : UInt32)
  | metaOf (object : T)
  | concreteSubtypeOf (superType : T)
deriving DecidableEq, Hashable, Repr

/-- How a procedure is found. -/
inductive ProcRule (T P : Type) where
  | declaredBy (beholder : T) (index : UInt32)
  | staticFromEntry (beholder : T) (index : UInt32)
  | specialFromEntry (beholder : T) (index : UInt32)
  | virtualFromEntry (beholder : T) (index : UInt32)
  | virtualFromOffset (beholder : T) (offset : Int32) (ignoreResolution : Bool)
  | interfaceFromEntry (beholder lookup : T) (index : UInt32)
  | improperFromEntry (beholder : T) (index : UInt32)
  | bySignature (owner beholder : T) (name signature : String)
  | singleImplementer (thisType : T) (caller : P) (slot : UInt32)
  | singleInterfaceImplementer (thisType : T) (caller : P) (index : UInt32)
  | singleAbstractImplementer (thisType : T) (caller : P) (slot : UInt32)
deriving DecidableEq, Hashable, Repr

/-- A property of symbols that are all known. -/
inductive Check (T P : Type) where
  | instanceOf (object cast : T) (objectFixed castFixed isInstance : Bool)
  | chain (ty : T) (digest : Digest)
  | skipFrames (owner : T) (procedure : P) (skip : Bool)
  | initialized (ty : T) (isInitialized : Bool)
deriving DecidableEq, Hashable, Repr

inductive Record (T P : Type) where
  | type (ty : T) (rule : TypeRule T P)
  | procedure (procedure : P) (rule : ProcRule T P)
  | check (check : Check T P)
deriving DecidableEq, Hashable, Repr

/-- A record made while a program is analysed. -/
abbrev LiveRecord := Record TypeRef ProcRef

/-- A record as it is persisted, every operand replaced by its symbol ID. -/
abbrev SealedRecord := Record SymbolId SymbolId

variable {T P T' P' : Type}

def TypeRule.kind : TypeRule T P → Kind
  | .byName .. => .typeByName
  | .profiled .. => .profiledType
  | .fromEntry .. => .typeFromEntry
  | .definingFromEntry .. => .definingTypeFromEntry
  | .staticFromEntry .. => .staticTypeFromEntry
  | .ownerOf .. => .typeFromProcedure
  | .componentOf .. => .componentTypeFromArray
  | .arrayOf .. => .arrayTypeFromComponent
  | .superOf .. => .superTypeFromType
  | .systemByName .. => .systemTypeByName
  | .fromDispatchEntry .. => .typeFromDispatchEntry
  | .declaringField .. => .declaringTypeFromField
  | .metaOf .. => .metaTypeFromType
  | .concreteSubtypeOf .. => .concreteSubtypeFromType

def ProcRule.kind : ProcRule T P → Kind
  | .declaredBy .. => .procedureFromType
  | .staticFromEntry .. => .staticProcedureFromEntry
  | .specialFromEntry .. => .specialProcedureFromEntry
  | .virtualFromEntry .. => .virtualProcedureFromEntry
  | .virtualFromOffset .. => .virtualProcedureFromOffset
  | .interfaceFromEntry .. => .interfaceProcedureFromEntry
  | .improperFromEntry .. => .improperInterfaceProcedureFromEntry
  | .bySignature .. => .procedureFromTypeAndSignature
  | .singleImplementer .. => .procedureFromSingleImplementer
  | .singleInterfaceImplementer .. => .procedureFromSingleInterfaceImplementer
  | .singleAbstractImplementer .. => .procedureFromSingleAbstractImplementer

def Check.kind : Check T P → Kind
  | .instanceOf .. => .typeInstanceOfType
  | .chain .. => .typeChain
  | .skipFrames .. => .stackWalkerMaySkipFrames
  | .initialized .. => .typeInitialization

def Record.kind : Record T P → Kind
  | .type _ rule => rule.kind
  | .procedure _ rule => rule.kind
  | .check c => c.kind

/-- The symbol a record derives; a check derives none. -/
def Record.defined : Record T P → Option (Operand T P)
  | .type t _ => some (.type t)
  | .procedure p _ => some (.procedure p)
  | .check _ => none

theorem Record.role_kind (r : Record T P) :
    r.kind.role = match r with
      | .type .. => .type
      | .procedure .. => .procedure
      | .check .. => .check := by
  cases r with
  | type _ rule => cases rule <;> rfl
  | procedure _ rule => cases rule <;> rfl
  | check c => cases c <;> rfl

variable {m : Type → Type} [Monad m]

/-- Replaces the operands one after the other, in any monad. -/
def TypeRule.mapM (f : T → m T') (g : P → m P') : TypeRule T P → m (TypeRule T' P')
  | .byName b name => return .byName (← f b) name
  | .profiled name digest => return .profiled name digest
  | .fromEntry b i => return .fromEntry (← f b) i
  | .definingFromEntry b i isStatic => return .definingFromEntry (← f b) i isStatic
  | .staticFromEntry b i => return .staticFromEntry (← f b) i
  | .ownerOf p => return .ownerOf (← g p)
  | .componentOf a => return .componentOf (← f a)
  | .arrayOf c => return .arrayOf (← f c)
  | .superOf c => return .superOf (← f c)
  | .systemByName name => return .systemByName name
  | .fromDispatchEntry b i => return .fromDispatchEntry (← f b) i
  | .declaringField b i => return .declaringField (← f b) i
  | .metaOf o => return .metaOf (← f o)
  | .concreteSubtypeOf s => return .concreteSubtypeOf (← f s)

def ProcRule.mapM (f : T → m T') (g : P → m P') : ProcRule T P → m (ProcRule T' P')
  | .declaredBy b i => return .declaredBy (← f b) i
  | .staticFromEntry b i => return .staticFromEntry (← f b) i
  | .specialFromEntry b i => return .specialFromEntry (← f b) i
  | .virtualFromEntry b i => return .virtualFromEntry (← f b) i
  | .virtualFromOffset b o ignore => return .virtualFromOffset (← f b) o ignore
  | .interfaceFromEntry b l i => do
    let b' ← f b
    let l' ← f l
    return .interfaceFromEntry b' l' i
  | .improperFromEntry b i => return .improperFromEntry (← f b) i
  | .bySignature o b name signature => do
    let o' ← f o
    let b' ← f b
    return .bySignature o' b' name signature
  | .singleImplementer t c s => do
    let t' ← f t
    let c' ← g c
    return .singleImplementer t' c' s
  | .singleInterfaceImplementer t c i => do
    let t' ← f t
    let c' ← g c
    return .singleInterfaceImplementer t' c' i
  | .singleAbstractImplementer t c s => do
    let t' ← f t
    let c' ← g c
    return .singleAbstractImplementer t' c' s

/-- The procedure of a frame check comes before its owner. -/
def Check.mapM (f : T → m T') (g : P → m P') : Check T P → m (Check T' P')
  | .instanceOf o c objectFixed castFixed isInstance => do
    let o' ← f o
    let c' ← f c
    return .instanceOf o' c' objectFixed castFixed isInstance
  | .chain t digest => return .chain (← f t) digest
  | .skipFrames o p skip => do
    let p' ← g p
    let o' ← f o
    return .skipFrames o' p' skip
  | .initialized t isInitialized => return .initialized (← f t) isInitialized

end Provenance
