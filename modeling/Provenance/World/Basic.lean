import Provenance.Entry
import Provenance.Symbol
import Std.Data.HashMap

/-!
A world: the types and procedures of a running program. It only grows; what it holds
may be renamed or marked anew but never goes away, so a handle is an index for good.
-/
namespace Provenance

/-- The naming context that a type was defined in. -/
structure Context where
  number : Nat
deriving DecidableEq, Repr

/-- The context that every other one sees. -/
def Context.system : Context := ⟨0⟩

structure Field where
  name : String
  isStatic : Bool
deriving DecidableEq, Repr

structure TypeDecl where
  name : String
  context : Context
  isInterface : Bool
  isAbstract : Bool
  isInitialized : Bool
  superType : Option TypeRef
  interfaces : List TypeRef
  /-- The type of the elements, for an array. -/
  component : Option TypeRef
  /-- The array of this type, once there is one. -/
  array : Option TypeRef
  /-- The procedures declared here, in the order of their definition. -/
  procedures : List ProcRef
  /-- The dispatch table: what a call through each slot reaches. -/
  vtable : List ProcRef
  fields : List Field
  entries : List Entry
deriving Repr

namespace TypeDecl

/-- A type of which nothing is known but its name. -/
def plain (name : String) : TypeDecl where
  name := name
  context := .system
  isInterface := false
  isAbstract := false
  isInitialized := false
  superType := none
  interfaces := []
  component := none
  array := none
  procedures := []
  vtable := []
  fields := []
  entries := []

def isArray (d : TypeDecl) : Bool := d.component.isSome

def isConcrete (d : TypeDecl) : Bool := !d.isInterface && !d.isAbstract && !d.isArray

end TypeDecl

structure ProcDecl where
  name : String
  signature : String
  owner : TypeRef
  isStatic : Bool
  isAbstract : Bool
  isPrivate : Bool
  maySkipFrames : Bool
  /-- Its place in the dispatch table of its owner. -/
  slot : Option Nat
deriving Repr

namespace ProcDecl

def isDispatchable (d : ProcDecl) : Bool := !d.isStatic && !d.isPrivate

def isNamed (d : ProcDecl) (name signature : String) : Bool :=
  d.name == name && d.signature == signature

end ProcDecl

structure World where
  types : Array TypeDecl
  procedures : Array ProcDecl
  /-- For each name the types that carry it, the latest to take it last. -/
  byName : Std.HashMap String (List TypeRef)
  /-- The number of the next context: contexts are numbered in 16 bits, and nothing looks for
  room before one more is. -/
  contexts : UInt16

namespace World

def rootType : TypeRef := ⟨0⟩

def metaType : TypeRef := ⟨1⟩

/-- A handle from elsewhere stands for a type without a name. -/
def typeDecl (w : World) (t : TypeRef) : TypeDecl := w.types.getD t.index (.plain "")

/-- A handle from elsewhere stands for a procedure of the root type without a name. -/
def procDecl (w : World) (p : ProcRef) : ProcDecl :=
  w.procedures.getD p.index ⟨"", "", rootType, false, false, false, false, none⟩

def typeRefs (w : World) : List TypeRef := (List.range w.types.size).map TypeRef.mk

def procRefs (w : World) : List ProcRef := (List.range w.procedures.size).map ProcRef.mk

end World

end Provenance
