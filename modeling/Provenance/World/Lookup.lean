import Provenance.Sha256
import Provenance.World.Hierarchy

/-!
Finding types by name and shape, and fields and procedures by where they are declared.
Names in a symbol table are resolved as the type that carries the table sees them.
-/
namespace Provenance.World

variable (w : World)

def contextOf (t : TypeRef) : Context := (w.typeDecl t).context

def systemTypeByName (name : String) : Option TypeRef :=
  (w.named name).find? fun t => w.contextOf t = .system

/-- A type in the context of the beholder comes before one that every context sees. -/
def typeByName (beholder : TypeRef) (name : String) : Option TypeRef :=
  ((w.named name).find? fun t => w.contextOf t = w.contextOf beholder) <|>
    w.systemTypeByName name

/-- What a text of a shape is the name of, and with it the byte that closes the text. -/
inductive Mark where
  | type
  | interface
  | procedure
deriving DecidableEq, Repr

def Mark.byte : Mark → UInt8
  | type => 0
  | interface => 1
  | procedure => 2

/-- One level of a chain: the name of the type and those of its interfaces. -/
def level (t : TypeRef) : List (String × Mark) :=
  ((w.typeDecl t).name, .type) :: (w.interfaces t).map fun i => ((w.typeDecl i).name, .interface)

/-- A procedure is told by its name and signature, written as one text. -/
def procedureText (p : ProcRef) : String × Mark :=
  ((w.procDecl p).name ++ (w.procDecl p).signature, .procedure)

/-- The shape of a type: every level of its chain, then its own procedures. -/
def shape (t : TypeRef) : List (String × Mark) :=
  (w.superChain t).flatMap w.level ++ (w.typeDecl t).procedures.map w.procedureText

/-- Texts one after the other, each closed by its mark. -/
def marked (texts : List (String × Mark)) : ByteArray :=
  texts.foldl (fun bytes x => (bytes ++ x.1.toByteArray).push x.2.byte) .empty

def chainDigest (t : TypeRef) : Digest := Sha256.digest (marked (w.shape t))

def typeByChain (name : String) (digest : Digest) : Option TypeRef :=
  (w.named name).find? fun t => w.chainDigest t = digest

/-- The types whose declarations are searched for a procedure, the nearest first. -/
def searchOrder (t : TypeRef) : List TypeRef := w.superChain t ++ w.allInterfaces t

/-- The first procedure that a type itself declares under a name and that is acceptable. -/
def declared (name signature : String) (accept : ProcDecl → Bool) (t : TypeRef) : Option ProcRef :=
  (w.typeDecl t).procedures.find? fun p =>
    (w.procDecl p).isNamed name signature && accept (w.procDecl p)

def findProcedure (t : TypeRef) (name signature : String) (accept : ProcDecl → Bool) :
    Option ProcRef :=
  (w.searchOrder t).findSome? (w.declared name signature accept)

/-- The nearest type on the chain that declares a field, of one staticness if that is given. -/
def declaringType (t : TypeRef) (name : String) (isStatic : Option Bool) : Option TypeRef :=
  (w.superChain t).find? fun s =>
    (w.typeDecl s).fields.any fun f => f.name == name && isStatic.all (f.isStatic == ·)

def entry (beholder : TypeRef) (index : UInt32) : Option Entry :=
  (w.typeDecl beholder).entries[index.toNat]?

def entryType (beholder : TypeRef) (index : UInt32) : Option TypeRef := do
  w.typeByName beholder (← w.entry beholder index).ownerName

def entryDefiningType (beholder : TypeRef) (index : UInt32) (isStatic : Bool) : Option TypeRef := do
  match ← w.entry beholder index with
  | .field owner name declaredStatic =>
    if declaredStatic = isStatic then
      w.declaringType (← w.typeByName beholder owner) name (some isStatic)
    else none
  | _ => none

def entryDeclaringType (beholder : TypeRef) (index : UInt32) : Option TypeRef := do
  match ← w.entry beholder index with
  | .field owner name _ => w.declaringType (← w.typeByName beholder owner) name none
  | _ => none

def entryDispatchType (beholder : TypeRef) (index : UInt32) : Option TypeRef := do
  match ← w.entry beholder index with
  | .procedure owner _ _ .interface =>
    (w.typeByName beholder owner).filter fun t => (w.typeDecl t).isInterface
  | _ => none

/-- The procedure of an entry that is dispatched the given way. -/
def entryProcedure (beholder : TypeRef) (index : UInt32) (dispatch : Dispatch) :
    Option ProcRef := do
  match ← w.entry beholder index with
  | .procedure owner name signature declaredDispatch =>
    if declaredDispatch = dispatch then
      w.findProcedure (← w.typeByName beholder owner) name signature fun d =>
        d.isStatic == (dispatch = .static)
    else none
  | _ => none

def entryStaticType (beholder : TypeRef) (index : UInt32) : Option TypeRef := do
  match ← w.entry beholder index with
  | .field owner name true => w.declaringType (← w.typeByName beholder owner) name (some true)
  | .procedure _ _ _ .static => return (w.procDecl (← w.entryProcedure beholder index .static)).owner
  | _ => none

/-- What an interface call reaches on a given receiver. -/
def entryInterfaceProcedure (beholder lookup : TypeRef) (index : UInt32) : Option ProcRef := do
  match ← w.entry beholder index with
  | .procedure _ name signature .interface =>
    w.findProcedure lookup name signature fun d => !d.isStatic
  | _ => none

/-- An interface call may name a procedure that is not of an interface: one that a class
declares, or the root that every object extends. -/
def entryImproperProcedure (beholder : TypeRef) (index : UInt32) : Option ProcRef := do
  match ← w.entry beholder index with
  | .procedure owner name signature .interface =>
    let t ← w.typeByName beholder owner
    let instanceOnly := fun (d : ProcDecl) => !d.isStatic
    let found := w.findProcedure t name signature instanceOnly <|>
      w.findProcedure rootType name signature instanceOnly
    found.filter fun p => !(w.typeDecl (w.procDecl p).owner).isInterface
  | _ => none

def procedureAt (t : TypeRef) (index : UInt32) : Option ProcRef :=
  (w.typeDecl t).procedures[index.toNat]?

def slotOf (t : TypeRef) (slot : UInt32) : Option ProcRef := (w.typeDecl t).vtable[slot.toNat]?

/-- Abstract procedures are only of use to a caller that resolves the call anew. -/
def virtualProcedureAt (t : TypeRef) (offset : Int32) (ignoreResolution : Bool) : Option ProcRef :=
  if offset < 0 then none
  else
    ((w.typeDecl t).vtable[offset.toInt.toNat]?).filter fun p =>
      ignoreResolution || !(w.procDecl p).isAbstract

/-- A private procedure is only seen by the type that declares it. -/
def procedureBySignature (owner beholder : TypeRef) (name signature : String) : Option ProcRef :=
  w.findProcedure owner name signature fun d => !d.isPrivate || d.owner = beholder

def maySkipFrames (p : ProcRef) (owner : TypeRef) : Bool :=
  (w.procDecl p).owner = owner && (w.procDecl p).maySkipFrames

end Provenance.World
