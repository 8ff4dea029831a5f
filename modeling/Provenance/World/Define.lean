import Provenance.World.Basic

/-!
Building a world. A new type starts with the dispatch table its supertype has at that
moment, so procedures of a supertype have to be defined before its subtypes.
-/
namespace Provenance

/-- What may be said of a type when it is defined. -/
structure TypeSpec where
  name : String
  context : Context
  isInterface : Bool
  isAbstract : Bool
  isInitialized : Bool
  superType : Option TypeRef
  interfaces : List TypeRef
  fields : List Field
  entries : List Entry
deriving Repr

structure ProcSpec where
  owner : TypeRef
  name : String
  signature : String
  isStatic : Bool
  isAbstract : Bool
  isPrivate : Bool
  maySkipFrames : Bool
deriving Repr

namespace World

/-- The types that carry a name. -/
def named (w : World) (name : String) : List TypeRef := w.byName.getD name []

def addName (w : World) (name : String) (t : TypeRef) : World :=
  let others := w.named name
  { w with byName := w.byName.insert name (others ++ [t]) }

/-- Takes a name from a type. A name that no type carries any more is not kept. -/
def removeName (w : World) (name : String) (t : TypeRef) : World :=
  let others := (w.named name).filter (· ≠ t)
  { w with byName := if others.isEmpty then w.byName.erase name else w.byName.insert name others }

def modifyType (w : World) (t : TypeRef) (f : TypeDecl → TypeDecl) : World :=
  { w with types := w.types.modify t.index f }

def modifyProcedure (w : World) (p : ProcRef) (f : ProcDecl → ProcDecl) : World :=
  { w with procedures := w.procedures.modify p.index f }

def addType (w : World) (d : TypeDecl) : TypeRef × World :=
  let t : TypeRef := ⟨w.types.size⟩
  let inherited := match d.superType with
    | some s => (w.typeDecl s).vtable
    | none => d.vtable
  let w := w.addName d.name t
  (t, { w with types := w.types.push { d with vtable := inherited } })

def empty : World := ⟨#[], #[], ∅, 1⟩

/-- The world that has only the root of the hierarchy and the type of types. -/
def fresh : World :=
  let (root, w) := empty.addType { TypeDecl.plain "Object" with isInitialized := true }
  (w.addType { TypeDecl.plain "Type" with isInitialized := true, superType := some root }).2

/-- The context that is next. Past the greatest number the count starts over, and the next one is
that of the system. -/
def newContext (w : World) : Context × World :=
  (⟨w.contexts.toNat⟩, { w with contexts := w.contexts + 1 })

/-- A class that names no supertype extends the root; an interface then has none. -/
def defineType (w : World) (spec : TypeSpec) : TypeRef × World :=
  w.addType { TypeDecl.plain spec.name with
    context := spec.context
    isInterface := spec.isInterface
    isAbstract := spec.isAbstract || spec.isInterface
    isInitialized := spec.isInitialized
    superType := spec.superType <|> if spec.isInterface then none else some rootType
    interfaces := spec.interfaces
    fields := spec.fields
    entries := spec.entries }

/-- The array of a type, made when it is first asked for. -/
def arrayOf (w : World) (component : TypeRef) : TypeRef × World :=
  match (w.typeDecl component).array with
  | some array => (array, w)
  | none =>
    let source := w.typeDecl component
    let (array, w) := w.addType { TypeDecl.plain ("[" ++ source.name) with
      context := source.context
      isInitialized := true
      superType := some rootType
      component := some component }
    (array, w.modifyType component fun d => { d with array := some array })

def rename (w : World) (t : TypeRef) (name : String) : World :=
  let old := (w.typeDecl t).name
  ((w.modifyType t fun d => { d with name := name }).removeName old t).addName name t

def markInitialized (w : World) (t : TypeRef) (value : Bool) : World :=
  w.modifyType t fun d => { d with isInitialized := value }

def setMaySkipFrames (w : World) (p : ProcRef) (value : Bool) : World :=
  w.modifyProcedure p fun d => { d with maySkipFrames := value }

/-- Appends an entry to the table of a type and returns its index. -/
def addEntry (w : World) (t : TypeRef) (e : Entry) : Nat × World :=
  ((w.typeDecl t).entries.length, w.modifyType t fun d => { d with entries := d.entries ++ [e] })

/-- The slot in a dispatch table that a procedure overrides, or else the one after the last. -/
def slotFor (w : World) (table : List ProcRef) (name signature : String) : Nat :=
  (table.findIdx? fun p => (w.procDecl p).isNamed name signature).getD table.length

/-- Writes a slot of a table or, right after the last, makes one. -/
def place (table : List ProcRef) (slot : Nat) (p : ProcRef) : List ProcRef :=
  if slot < table.length then table.set slot p else table ++ [p]

/-- Calls are dispatched to procedures of an instance that others may see, and interfaces
have no table. -/
def defineProcedure (w : World) (spec : ProcSpec) : ProcRef × World :=
  let p : ProcRef := ⟨w.procedures.size⟩
  let owner := w.typeDecl spec.owner
  let d : ProcDecl := ⟨spec.name, spec.signature, spec.owner, spec.isStatic, spec.isAbstract,
    spec.isPrivate, spec.maySkipFrames, none⟩
  let slot := if d.isDispatchable && !owner.isInterface then
      some (w.slotFor owner.vtable spec.name spec.signature)
    else none
  let w := w.modifyType spec.owner fun o => { o with
    procedures := o.procedures ++ [p]
    vtable := match slot with
      | some i => place o.vtable i p
      | none => o.vtable }
  (p, { w with procedures := w.procedures.push { d with slot := slot } })

end World

end Provenance
