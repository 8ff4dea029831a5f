import Provenance.Digest

/-!
The closed set of record kinds. Each kind has one row: its stable tag, its name,
what its records establish, and its fields in order. Operands come first, types
before procedures; everything that follows the order of the fields, from the
persisted form to the ordering of records, reads it off this table.
-/
namespace Provenance

/-- What one field of a record holds. -/
inductive Shape where
  | type
  | procedure
  | text
  | digest
  | index
  | offset
  | flag
deriving DecidableEq, Repr

structure FieldSpec where
  name : String
  shape : Shape
deriving DecidableEq, Repr

/-- What a record establishes about its operands: a type or a procedure it derives
from operands known before, or a property of operands that are all known. -/
inductive Role where
  | type
  | procedure
  | check
deriving DecidableEq, Repr

inductive Kind where
  | typeByName
  | profiledType
  | typeFromEntry
  | definingTypeFromEntry
  | staticTypeFromEntry
  | typeFromProcedure
  | componentTypeFromArray
  | arrayTypeFromComponent
  | superTypeFromType
  | typeInstanceOfType
  | systemTypeByName
  | typeFromDispatchEntry
  | declaringTypeFromField
  | metaTypeFromType
  | concreteSubtypeFromType
  | typeChain
  | procedureFromType
  | staticProcedureFromEntry
  | specialProcedureFromEntry
  | virtualProcedureFromEntry
  | virtualProcedureFromOffset
  | interfaceProcedureFromEntry
  | improperInterfaceProcedureFromEntry
  | procedureFromTypeAndSignature
  | stackWalkerMaySkipFrames
  | typeInitialization
  | procedureFromSingleImplementer
  | procedureFromSingleInterfaceImplementer
  | procedureFromSingleAbstractImplementer
deriving DecidableEq, Repr

namespace Kind

structure Row where
  tag : UInt8
  name : String
  role : Role
  fields : List FieldSpec

def row : Kind → Row
  | typeByName => ⟨1, "TypeByName", .type,
      [⟨"ty", .type⟩, ⟨"beholder", .type⟩, ⟨"name", .text⟩]⟩
  | profiledType => ⟨2, "ProfiledType", .type,
      [⟨"ty", .type⟩, ⟨"name", .text⟩, ⟨"chain", .digest⟩]⟩
  | typeFromEntry => ⟨3, "TypeFromEntry", .type,
      [⟨"ty", .type⟩, ⟨"beholder", .type⟩, ⟨"index", .index⟩]⟩
  | definingTypeFromEntry => ⟨4, "DefiningTypeFromEntry", .type,
      [⟨"ty", .type⟩, ⟨"beholder", .type⟩, ⟨"index", .index⟩, ⟨"is_static", .flag⟩]⟩
  | staticTypeFromEntry => ⟨5, "StaticTypeFromEntry", .type,
      [⟨"ty", .type⟩, ⟨"beholder", .type⟩, ⟨"index", .index⟩]⟩
  | typeFromProcedure => ⟨6, "TypeFromProcedure", .type,
      [⟨"ty", .type⟩, ⟨"procedure", .procedure⟩]⟩
  | componentTypeFromArray => ⟨7, "ComponentTypeFromArray", .type,
      [⟨"component", .type⟩, ⟨"array", .type⟩]⟩
  | arrayTypeFromComponent => ⟨8, "ArrayTypeFromComponent", .type,
      [⟨"array", .type⟩, ⟨"component", .type⟩]⟩
  | superTypeFromType => ⟨9, "SuperTypeFromType", .type,
      [⟨"super_type", .type⟩, ⟨"child", .type⟩]⟩
  | typeInstanceOfType => ⟨10, "TypeInstanceOfType", .check,
      [⟨"object", .type⟩, ⟨"cast", .type⟩, ⟨"object_fixed", .flag⟩, ⟨"cast_fixed", .flag⟩,
       ⟨"is_instance", .flag⟩]⟩
  | systemTypeByName => ⟨11, "SystemTypeByName", .type,
      [⟨"ty", .type⟩, ⟨"name", .text⟩]⟩
  | typeFromDispatchEntry => ⟨12, "TypeFromDispatchEntry", .type,
      [⟨"ty", .type⟩, ⟨"beholder", .type⟩, ⟨"index", .index⟩]⟩
  | declaringTypeFromField => ⟨13, "DeclaringTypeFromField", .type,
      [⟨"ty", .type⟩, ⟨"beholder", .type⟩, ⟨"index", .index⟩]⟩
  | metaTypeFromType => ⟨14, "MetaTypeFromType", .type,
      [⟨"meta", .type⟩, ⟨"object", .type⟩]⟩
  | concreteSubtypeFromType => ⟨15, "ConcreteSubtypeFromType", .type,
      [⟨"child", .type⟩, ⟨"super_type", .type⟩]⟩
  | typeChain => ⟨16, "TypeChain", .check,
      [⟨"ty", .type⟩, ⟨"chain", .digest⟩]⟩
  | procedureFromType => ⟨17, "ProcedureFromType", .procedure,
      [⟨"beholder", .type⟩, ⟨"procedure", .procedure⟩, ⟨"index", .index⟩]⟩
  | staticProcedureFromEntry => ⟨18, "StaticProcedureFromEntry", .procedure,
      [⟨"beholder", .type⟩, ⟨"procedure", .procedure⟩, ⟨"index", .index⟩]⟩
  | specialProcedureFromEntry => ⟨19, "SpecialProcedureFromEntry", .procedure,
      [⟨"beholder", .type⟩, ⟨"procedure", .procedure⟩, ⟨"index", .index⟩]⟩
  | virtualProcedureFromEntry => ⟨20, "VirtualProcedureFromEntry", .procedure,
      [⟨"beholder", .type⟩, ⟨"procedure", .procedure⟩, ⟨"index", .index⟩]⟩
  | virtualProcedureFromOffset => ⟨21, "VirtualProcedureFromOffset", .procedure,
      [⟨"beholder", .type⟩, ⟨"procedure", .procedure⟩, ⟨"offset", .offset⟩,
       ⟨"ignore_rt_resolve", .flag⟩]⟩
  | interfaceProcedureFromEntry => ⟨22, "InterfaceProcedureFromEntry", .procedure,
      [⟨"beholder", .type⟩, ⟨"lookup", .type⟩, ⟨"procedure", .procedure⟩, ⟨"index", .index⟩]⟩
  | improperInterfaceProcedureFromEntry => ⟨23, "ImproperInterfaceProcedureFromEntry", .procedure,
      [⟨"beholder", .type⟩, ⟨"procedure", .procedure⟩, ⟨"index", .index⟩]⟩
  | procedureFromTypeAndSignature => ⟨24, "ProcedureFromTypeAndSignature", .procedure,
      [⟨"owner", .type⟩, ⟨"beholder", .type⟩, ⟨"procedure", .procedure⟩, ⟨"name", .text⟩,
       ⟨"signature", .text⟩]⟩
  | stackWalkerMaySkipFrames => ⟨25, "StackWalkerMaySkipFrames", .check,
      [⟨"owner", .type⟩, ⟨"procedure", .procedure⟩, ⟨"skip_frames", .flag⟩]⟩
  | typeInitialization => ⟨26, "TypeInitialization", .check,
      [⟨"ty", .type⟩, ⟨"is_initialized", .flag⟩]⟩
  | procedureFromSingleImplementer => ⟨27, "ProcedureFromSingleImplementer", .procedure,
      [⟨"this_type", .type⟩, ⟨"procedure", .procedure⟩, ⟨"caller", .procedure⟩, ⟨"slot", .index⟩]⟩
  | procedureFromSingleInterfaceImplementer =>
      ⟨28, "ProcedureFromSingleInterfaceImplementer", .procedure,
      [⟨"this_type", .type⟩, ⟨"procedure", .procedure⟩, ⟨"caller", .procedure⟩, ⟨"index", .index⟩]⟩
  | procedureFromSingleAbstractImplementer =>
      ⟨29, "ProcedureFromSingleAbstractImplementer", .procedure,
      [⟨"this_type", .type⟩, ⟨"procedure", .procedure⟩, ⟨"caller", .procedure⟩, ⟨"slot", .index⟩]⟩

def tag (k : Kind) : UInt8 := k.row.tag

def name (k : Kind) : String := k.row.name

def role (k : Kind) : Role := k.row.role

def fields (k : Kind) : List FieldSpec := k.row.fields

/-- Every kind, in the order of the tags. -/
def all : List Kind :=
  [typeByName, profiledType, typeFromEntry, definingTypeFromEntry, staticTypeFromEntry,
   typeFromProcedure, componentTypeFromArray, arrayTypeFromComponent, superTypeFromType,
   typeInstanceOfType, systemTypeByName, typeFromDispatchEntry, declaringTypeFromField,
   metaTypeFromType, concreteSubtypeFromType, typeChain, procedureFromType,
   staticProcedureFromEntry, specialProcedureFromEntry, virtualProcedureFromEntry,
   virtualProcedureFromOffset, interfaceProcedureFromEntry, improperInterfaceProcedureFromEntry,
   procedureFromTypeAndSignature, stackWalkerMaySkipFrames, typeInitialization,
   procedureFromSingleImplementer, procedureFromSingleInterfaceImplementer,
   procedureFromSingleAbstractImplementer]

def ofTag? (tag : UInt8) : Option Kind := all.find? (·.tag == tag)

def ofName? (name : String) : Option Kind := all.find? (·.name == name)

@[simp] theorem ofTag?_tag (k : Kind) : ofTag? k.tag = some k := by
  cases k <;> rfl

theorem tag_of_ofTag? {tag : UInt8} {k : Kind} (h : ofTag? tag = some k) : k.tag = tag := by
  simpa using List.find?_some h

theorem tag_inj {a b : Kind} : a.tag = b.tag ↔ a = b :=
  ⟨fun h => Option.some.inj (by rw [← ofTag?_tag a, ← ofTag?_tag b, h]), fun h => h ▸ rfl⟩

/-- The name with its words parted by underscores, all in lower case. -/
def snakeName (k : Kind) : String :=
  let parted := k.name.toList.flatMap fun c => if c.isUpper then ['_', c.toLower] else [c]
  String.ofList (parted.drop 1)

end Kind

instance : ToString Kind := ⟨Kind.name⟩

end Provenance
