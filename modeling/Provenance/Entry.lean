/-!
Entries of a type's symbol table: references by name to types, fields and procedures.
Names are resolved as the type that carries the table sees them.
-/
namespace Provenance

/-- How a reference to a procedure is dispatched by the code that carries it. -/
inductive Dispatch where
  | static
  | special
  | virtual
  | interface
deriving DecidableEq, Repr

namespace Dispatch

def name : Dispatch → String
  | static => "Static"
  | special => "Special"
  | virtual => "Virtual"
  | interface => "Interface"

def all : List Dispatch := [static, special, virtual, interface]

def ofName? (name : String) : Option Dispatch := all.find? (·.name == name)

end Dispatch

inductive Entry where
  | type (name : String)
  | field (owner name : String) (isStatic : Bool)
  | procedure (owner name signature : String) (dispatch : Dispatch)
deriving DecidableEq, Repr

namespace Entry

/-- The name of the type that the entry points into. -/
def ownerName : Entry → String
  | type name => name
  | field owner .. => owner
  | procedure owner .. => owner

def render : Entry → String
  | type name => s!"type {name}"
  | field owner name isStatic =>
    let kind := if isStatic then "static field" else "field"
    s!"{kind} {owner}.{name}"
  | procedure owner name signature dispatch => s!"{dispatch.name} {owner}.{name}{signature}"

end Entry

instance : ToString Entry := ⟨Entry.render⟩

end Provenance
