import Provenance.Record.Basic

/-!
The fields of a record, as values laid out by the table of kinds. `Record.values`
and `Record.ofValues` are inverse to each other, so whatever is defined by recursion
over a layout is defined for the records of every kind at once.
-/
namespace Provenance

abbrev Shape.Value (T P : Type) : Shape → Type
  | .type => T
  | .procedure => P
  | .text => String
  | .digest => Digest
  | .index => UInt32
  | .offset => Int32
  | .flag => Bool

/-- One value for each field of a layout. -/
abbrev Values (T P : Type) : List FieldSpec → Type
  | [] => Unit
  | f :: fs => f.shape.Value T P × Values T P fs

variable {T P T' P' : Type}

namespace Values

/-- The symbols among the values, in the order of the fields. -/
def operands : (fs : List FieldSpec) → Values T P fs → List (Operand T P)
  | [], _ => []
  | ⟨_, .type⟩ :: fs, (t, vs) => .type t :: operands fs vs
  | ⟨_, .procedure⟩ :: fs, (p, vs) => .procedure p :: operands fs vs
  | ⟨_, .text⟩ :: fs, (_, vs) | ⟨_, .digest⟩ :: fs, (_, vs) | ⟨_, .index⟩ :: fs, (_, vs)
  | ⟨_, .offset⟩ :: fs, (_, vs) | ⟨_, .flag⟩ :: fs, (_, vs) => operands fs vs

variable {m : Type → Type} [Monad m]

/-- Replaces the symbols in the order of the fields and keeps everything else. -/
def mapM (f : T → m T') (g : P → m P') :
    (fs : List FieldSpec) → Values T P fs → m (Values T' P' fs)
  | [], _ => return ()
  | ⟨_, .type⟩ :: fs, (t, vs) => do
    let t' ← f t
    return (t', ← mapM f g fs vs)
  | ⟨_, .procedure⟩ :: fs, (p, vs) => do
    let p' ← g p
    return (p', ← mapM f g fs vs)
  | ⟨_, .text⟩ :: fs, (v, vs) => return (v, ← mapM f g fs vs)
  | ⟨_, .digest⟩ :: fs, (v, vs) => return (v, ← mapM f g fs vs)
  | ⟨_, .index⟩ :: fs, (v, vs) => return (v, ← mapM f g fs vs)
  | ⟨_, .offset⟩ :: fs, (v, vs) => return (v, ← mapM f g fs vs)
  | ⟨_, .flag⟩ :: fs, (v, vs) => return (v, ← mapM f g fs vs)

end Values

namespace TypeRule

def values (ty : T) : (rule : TypeRule T P) → Values T P rule.kind.fields
  | .byName b name => (ty, b, name, ())
  | .profiled name digest => (ty, name, digest, ())
  | .fromEntry b i => (ty, b, i, ())
  | .definingFromEntry b i isStatic => (ty, b, i, isStatic, ())
  | .staticFromEntry b i => (ty, b, i, ())
  | .ownerOf p => (ty, p, ())
  | .componentOf a => (ty, a, ())
  | .arrayOf c => (ty, c, ())
  | .superOf c => (ty, c, ())
  | .systemByName name => (ty, name, ())
  | .fromDispatchEntry b i => (ty, b, i, ())
  | .declaringField b i => (ty, b, i, ())
  | .metaOf o => (ty, o, ())
  | .concreteSubtypeOf s => (ty, s, ())

end TypeRule

namespace ProcRule

def values (procedure : P) : (rule : ProcRule T P) → Values T P rule.kind.fields
  | .declaredBy b i => (b, procedure, i, ())
  | .staticFromEntry b i => (b, procedure, i, ())
  | .specialFromEntry b i => (b, procedure, i, ())
  | .virtualFromEntry b i => (b, procedure, i, ())
  | .virtualFromOffset b o ignore => (b, procedure, o, ignore, ())
  | .interfaceFromEntry b l i => (b, l, procedure, i, ())
  | .improperFromEntry b i => (b, procedure, i, ())
  | .bySignature o b name signature => (o, b, procedure, name, signature, ())
  | .singleImplementer t c s => (t, procedure, c, s, ())
  | .singleInterfaceImplementer t c i => (t, procedure, c, i, ())
  | .singleAbstractImplementer t c s => (t, procedure, c, s, ())

end ProcRule

namespace Check

def values : (c : Check T P) → Values T P c.kind.fields
  | .instanceOf o c objectFixed castFixed isInstance =>
    (o, c, objectFixed, castFixed, isInstance, ())
  | .chain t digest => (t, digest, ())
  | .skipFrames o p skip => (o, p, skip, ())
  | .initialized t isInitialized => (t, isInitialized, ())

end Check

namespace Record

def values : (r : Record T P) → Values T P r.kind.fields
  | .type ty rule => rule.values ty
  | .procedure p rule => rule.values p
  | .check c => c.values

def ofValues : (k : Kind) → Values T P k.fields → Record T P
  | .typeByName, (ty, b, name, _) => .type ty (.byName b name)
  | .profiledType, (ty, name, digest, _) => .type ty (.profiled name digest)
  | .typeFromEntry, (ty, b, i, _) => .type ty (.fromEntry b i)
  | .definingTypeFromEntry, (ty, b, i, isStatic, _) => .type ty (.definingFromEntry b i isStatic)
  | .staticTypeFromEntry, (ty, b, i, _) => .type ty (.staticFromEntry b i)
  | .typeFromProcedure, (ty, p, _) => .type ty (.ownerOf p)
  | .componentTypeFromArray, (ty, a, _) => .type ty (.componentOf a)
  | .arrayTypeFromComponent, (ty, c, _) => .type ty (.arrayOf c)
  | .superTypeFromType, (ty, c, _) => .type ty (.superOf c)
  | .typeInstanceOfType, (o, c, objectFixed, castFixed, isInstance, _) =>
    .check (.instanceOf o c objectFixed castFixed isInstance)
  | .systemTypeByName, (ty, name, _) => .type ty (.systemByName name)
  | .typeFromDispatchEntry, (ty, b, i, _) => .type ty (.fromDispatchEntry b i)
  | .declaringTypeFromField, (ty, b, i, _) => .type ty (.declaringField b i)
  | .metaTypeFromType, (ty, o, _) => .type ty (.metaOf o)
  | .concreteSubtypeFromType, (ty, s, _) => .type ty (.concreteSubtypeOf s)
  | .typeChain, (t, digest, _) => .check (.chain t digest)
  | .procedureFromType, (b, p, i, _) => .procedure p (.declaredBy b i)
  | .staticProcedureFromEntry, (b, p, i, _) => .procedure p (.staticFromEntry b i)
  | .specialProcedureFromEntry, (b, p, i, _) => .procedure p (.specialFromEntry b i)
  | .virtualProcedureFromEntry, (b, p, i, _) => .procedure p (.virtualFromEntry b i)
  | .virtualProcedureFromOffset, (b, p, o, ignore, _) =>
    .procedure p (.virtualFromOffset b o ignore)
  | .interfaceProcedureFromEntry, (b, l, p, i, _) => .procedure p (.interfaceFromEntry b l i)
  | .improperInterfaceProcedureFromEntry, (b, p, i, _) => .procedure p (.improperFromEntry b i)
  | .procedureFromTypeAndSignature, (o, b, p, name, signature, _) =>
    .procedure p (.bySignature o b name signature)
  | .stackWalkerMaySkipFrames, (o, p, skip, _) => .check (.skipFrames o p skip)
  | .typeInitialization, (t, isInitialized, _) => .check (.initialized t isInitialized)
  | .procedureFromSingleImplementer, (t, p, c, s, _) => .procedure p (.singleImplementer t c s)
  | .procedureFromSingleInterfaceImplementer, (t, p, c, i, _) =>
    .procedure p (.singleInterfaceImplementer t c i)
  | .procedureFromSingleAbstractImplementer, (t, p, c, s, _) =>
    .procedure p (.singleAbstractImplementer t c s)

@[simp] theorem ofValues_values (r : Record T P) : ofValues r.kind r.values = r := by
  cases r with
  | type _ rule => cases rule <;> rfl
  | procedure _ rule => cases rule <;> rfl
  | check c => cases c <;> rfl

@[simp] theorem kind_ofValues (k : Kind) (vs : Values T P k.fields) : (ofValues k vs).kind = k := by
  cases k <;> rfl

theorem values_ofValues (k : Kind) (vs : Values T P k.fields) :
    HEq (ofValues k vs).values vs := by
  cases k <;> exact HEq.rfl

/-- Every symbol of a record, types first. -/
def operands (r : Record T P) : List (Operand T P) := Values.operands _ r.values

theorem defined_mem_operands {r : Record T P} {x : Operand T P} (h : r.defined = some x) :
    x ∈ r.operands := by
  cases r with
  | type t rule => cases h; cases rule <;> exact List.mem_cons_self
  | procedure p rule =>
    cases h
    cases rule <;> simp [operands, values, ProcRule.values, kind, ProcRule.kind, Kind.fields,
      Kind.row, Values.operands]
  | check c => cases h

/-- The symbols that have to be known before the record says anything: its operands
without the first that is the symbol it derives. -/
def premises [DecidableEq T] [DecidableEq P] (r : Record T P) : List (Operand T P) :=
  match r.defined with
  | some x => r.operands.erase x
  | none => r.operands

/-- Replaces every symbol, types first, and keeps everything else. -/
def mapM {m : Type → Type} [Monad m] (f : T → m T') (g : P → m P') (r : Record T P) :
    m (Record T' P') := do
  return ofValues r.kind (← Values.mapM f g _ r.values)

end Record

end Provenance
