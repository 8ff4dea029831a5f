import Provenance.World.Define
import Provenance.World.Walk

/-!
The hierarchy of types. A supertype and a component are older than the type built on
them, so following either ends. An interface may be younger than a type that names it,
so interfaces are followed by walks, which meet nothing twice.
-/
namespace Provenance.World

variable (w : World)

def superType (t : TypeRef) : Option TypeRef :=
  (w.typeDecl t).superType.filter (·.index < t.index)

def component (t : TypeRef) : Option TypeRef :=
  (w.typeDecl t).component.filter (·.index < t.index)

def interfaces (t : TypeRef) : List TypeRef := (w.typeDecl t).interfaces

/-- The types right above a type. -/
def parents (t : TypeRef) : List TypeRef := (w.superType t).toList ++ w.interfaces t

theorem superType_lt {t s : TypeRef} (h : w.superType t = some s) : s.index < t.index := by
  simpa using (Option.filter_eq_some_iff.mp h).2

theorem component_lt {t c : TypeRef} (h : w.component t = some c) : c.index < t.index := by
  simpa using (Option.filter_eq_some_iff.mp h).2

/-- A type followed by its supertypes, the nearest first. -/
def superChain (t : TypeRef) : List TypeRef :=
  t :: match _h : w.superType t with
    | none => []
    | some s => superChain s
termination_by t.index
decreasing_by exact w.superType_lt _h

/-- The interfaces of a type: those that its chain names and all that these extend, the last
named first. -/
def allInterfaces (t : TypeRef) : List TypeRef :=
  walk w.types.size (fun i => (w.interfaces i).reverse) ∅ ((w.superChain t).flatMap w.interfaces).reverse

/-- Everything above the interfaces that the chain of a type names, these included. -/
def aboveInterfaces (t : TypeRef) : List TypeRef :=
  walk w.types.size w.parents ∅ ((w.superChain t).flatMap w.interfaces)

/-- Whether one type is met by walking up from another. -/
def isAbove (sup t : TypeRef) : Bool :=
  (w.superChain t).contains sup || (w.aboveInterfaces t).contains sup

/-- Arrays stand to each other as their components do. -/
def isSubtype (sub sup : TypeRef) : Bool :=
  sub = sup ||
    match _h : w.component sub, w.component sup with
    | some a, some b => isSubtype a b
    | _, _ => w.isAbove sup sub
termination_by sub.index
decreasing_by exact w.component_lt _h

end Provenance.World
