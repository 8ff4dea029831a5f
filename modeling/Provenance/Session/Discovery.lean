import Provenance.Model

/-!
What an analysis reports: it asked the model a question and this was the answer. An
answer may be missing, and then there is nothing to record.
-/
namespace Provenance

/-- How a type was found by its name. The name is the one the model gives the type. -/
inductive Naming where
  | seenBy (beholder : TypeRef)
  | profile
  | system
deriving DecidableEq, Repr

namespace Naming

def kind : Naming → Kind
  | seenBy _ => .typeByName
  | profile => .profiledType
  | system => .systemTypeByName

/-- The rule that finds a type again by its name. -/
def rule (model : Model) (ty : TypeRef) : Naming → TypeRule TypeRef ProcRef
  | seenBy beholder => .byName beholder (model.typeName ty)
  | profile => .profiled (model.typeName ty) (model.chainDigest ty)
  | system => .systemByName (model.typeName ty)

end Naming

/-- Rules that start from a name. -/
def TypeRule.isNamed {T P : Type} : TypeRule T P → Bool
  | .byName .. | .profiled .. | .systemByName .. => true
  | _ => false

def ProcRule.isBySignature {T P : Type} : ProcRule T P → Bool
  | .bySignature .. => true
  | _ => false

def Check.isChain {T P : Type} : Check T P → Bool
  | .chain .. => true
  | _ => false

/-- Names, signatures and chains are never part of a report: the model is asked for them. -/
inductive Discovery where
  | named (ty : Option TypeRef) (naming : Naming)
  | type (ty : Option TypeRef) (rule : TypeRule TypeRef ProcRef) (unnamed : rule.isNamed = false)
  | signed (procedure : Option ProcRef) (owner beholder : TypeRef)
  | procedure (procedure : Option ProcRef) (rule : ProcRule TypeRef ProcRef)
      (unsigned : rule.isBySignature = false)
  | check (check : Check TypeRef ProcRef) (unchained : check.isChain = false)
deriving DecidableEq

def Discovery.kind : Discovery → Kind
  | named _ naming => naming.kind
  | type _ rule _ => rule.kind
  | signed .. => .procedureFromTypeAndSignature
  | procedure _ rule _ => rule.kind
  | check c _ => c.kind

end Provenance
