import Provenance.Model
import Provenance.World.Lookup

/-!
Questions about the whole hierarchy below a type. Their answers may be lost when the
world grows.
-/
namespace Provenance.World

variable (w : World)

def concreteSubtypes (t : TypeRef) : List TypeRef :=
  w.typeRefs.filter fun s => (w.typeDecl s).isConcrete && w.isSubtype s t

def singleConcreteSubtype (t : TypeRef) : Option TypeRef :=
  match w.concreteSubtypes t with
  | [s] => some s
  | _ => none

/-- The answer that all give, if anyone is asked. -/
def unanimous : List (Option ProcRef) → Option ProcRef
  | [] => none
  | first :: rest => if rest.all (· = first) then first else none

/-- The one implementation that every concrete subtype has. -/
def uniqueImplementation (t : TypeRef) (lookup : TypeRef → Option ProcRef) : Option ProcRef :=
  (unanimous ((w.concreteSubtypes t).map lookup)).filter fun p => !(w.procDecl p).isAbstract

def singleImplementer (thisType : TypeRef) (slot : UInt32) : Option ProcRef :=
  w.uniqueImplementation thisType fun t => w.slotOf t slot

def singleAbstractImplementer (thisType : TypeRef) (slot : UInt32) : Option ProcRef := do
  if !(w.typeDecl thisType).isAbstract then none
  else if !(w.procDecl (← w.slotOf thisType slot)).isAbstract then none
  else w.singleImplementer thisType slot

/-- The interface call is found in the table of the type that declares the caller. -/
def singleInterfaceImplementer (thisType : TypeRef) (index : UInt32) (caller : ProcRef) :
    Option ProcRef := do
  if !(w.typeDecl thisType).isInterface then none
  else
    match ← w.entry (w.procDecl caller).owner index with
    | .procedure _ name signature .interface =>
      w.uniqueImplementation thisType fun t =>
        w.findProcedure t name signature fun d => !d.isStatic && !d.isAbstract
    | _ => none

/-- Whether an object of one type is an instance of another. Unless its type is fixed, it may
be of any subtype, and an interface may come in anywhere below. -/
def isInstanceOf (object cast : TypeRef) (objectFixed : Bool) : Verdict :=
  if w.isSubtype object cast then .yes
  else if objectFixed then .no
  else if (w.typeDecl object).isInterface || (w.typeDecl cast).isInterface ||
      w.isSubtype cast object then .maybe
  else .no

end Provenance.World
