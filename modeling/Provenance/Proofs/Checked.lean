import Provenance.Proofs.Reading

/-!
The queries of a world, checked. Each follows the query it checks step by step, and also reads
whatever that may read where its answer does not need it. Asked about handles that a sound
world has, it gives the answer of the query.
-/
namespace Provenance

/-- Reading for an answer that may be missing. -/
abbrev Query := OptionT Reading

/-- The query that knows its answer without reading. -/
def answer {α : Type} (x : Option α) : Query α := OptionT.mk (.ok x)

namespace Query

variable {α β : Type}

theorem answer_bind {x : Option α} {f : α → Query β} {g : α → Option β}
    (h : ∀ a, x = some a → f a = answer (g a)) : (answer x >>= f) = answer (x.bind g) := by
  cases x with
  | none => rfl
  | some a => exact h a rfl

theorem read_bind {r : Reading α} {a : α} (h : r = .ok a) (f : α → Query β) :
    ((liftM r : Query α) >>= f) = f a := by
  subst h
  rfl

theorem answer_orElse (x y : Option α) : (answer x <|> answer y) = answer (x <|> y) := by
  cases x <;> rfl

/-- The answer of a query if it passes a test. -/
def accept (q : Query α) (test : α → Reading Bool) : Query α := do
  let a ← q
  if ← test a then return a else failure

theorem accept_answer {x : Option α} {test : α → Reading Bool} {p : α → Bool}
    (h : ∀ a, x = some a → test a = .ok (p a)) : accept (answer x) test = answer (x.filter p) := by
  cases x with
  | none => rfl
  | some a =>
    rw [accept, Option.filter_some]
    show ((liftM (test a) : Query Bool) >>= fun b => if b then pure a else failure) = _
    rw [read_bind (h a rfl)]
    cases p a <;> rfl

end Query

namespace Checked

open Reading Query

variable (w : World)

def contextOf (t : TypeRef) : Reading Context := return (← typeDecl w t).context

def systemTypeByName (name : String) : Query TypeRef :=
  OptionT.mk ((w.named name).findM? fun t => return decide ((← contextOf w t) = .system))

def typeByName (beholder : TypeRef) (name : String) : Query TypeRef := do
  let context ← contextOf w beholder
  OptionT.mk ((w.named name).findM? fun t => return decide ((← contextOf w t) = context)) <|>
    systemTypeByName w name

def level (t : TypeRef) : Reading (List (String × World.Mark)) := do
  let d ← typeDecl w t
  return (d.name, .type) ::
    (← d.interfaces.mapM fun i => return ((← typeDecl w i).name, .interface))

def procedureText (p : ProcRef) : Reading (String × World.Mark) := do
  let d ← procDecl w p
  return (d.name ++ d.signature, .procedure)

def shape (t : TypeRef) : Reading (List (String × World.Mark)) := do
  let levels ← (← superChain w t).mapM (level w)
  return levels.flatten ++ (← (← typeDecl w t).procedures.mapM (procedureText w))

def chainDigest (t : TypeRef) : Reading Digest :=
  return Sha256.digest (World.marked (← shape w t))

def typeByChain (name : String) (digest : Digest) : Query TypeRef :=
  OptionT.mk ((w.named name).findM? fun t => return decide ((← chainDigest w t) = digest))

def searchOrder (t : TypeRef) : Reading (List TypeRef) :=
  return (← superChain w t) ++ (← allInterfaces w t)

def declared (name signature : String) (accept : ProcDecl → Bool) (t : TypeRef) :
    Reading (Option ProcRef) := do
  (← typeDecl w t).procedures.findM? fun p => do
    let d ← procDecl w p
    return d.isNamed name signature && accept d

def findProcedure (t : TypeRef) (name signature : String) (accept : ProcDecl → Bool) :
    Query ProcRef := OptionT.mk do
  (← searchOrder w t).findSomeM? (declared w name signature accept)

def declaringType (t : TypeRef) (name : String) (isStatic : Option Bool) : Query TypeRef :=
  OptionT.mk do
    (← superChain w t).findM? fun s => do
      let d ← typeDecl w s
      return d.fields.any fun f => f.name == name && isStatic.all (f.isStatic == ·)

def entry (beholder : TypeRef) (index : UInt32) : Query Entry := do
  answer (← typeDecl w beholder).entries[index.toNat]?

def entryType (beholder : TypeRef) (index : UInt32) : Query TypeRef := do
  typeByName w beholder (← entry w beholder index).ownerName

def entryDefiningType (beholder : TypeRef) (index : UInt32) (isStatic : Bool) : Query TypeRef := do
  match ← entry w beholder index with
  | .field owner name declaredStatic =>
    if declaredStatic = isStatic then
      declaringType w (← typeByName w beholder owner) name (some isStatic)
    else failure
  | _ => failure

def entryDeclaringType (beholder : TypeRef) (index : UInt32) : Query TypeRef := do
  match ← entry w beholder index with
  | .field owner name _ => declaringType w (← typeByName w beholder owner) name none
  | _ => failure

def entryDispatchType (beholder : TypeRef) (index : UInt32) : Query TypeRef := do
  match ← entry w beholder index with
  | .procedure owner _ _ .interface =>
    accept (typeByName w beholder owner) fun t => return (← typeDecl w t).isInterface
  | _ => failure

def entryProcedure (beholder : TypeRef) (index : UInt32) (dispatch : Dispatch) :
    Query ProcRef := do
  match ← entry w beholder index with
  | .procedure owner name signature declaredDispatch =>
    if declaredDispatch = dispatch then
      findProcedure w (← typeByName w beholder owner) name signature fun d =>
        d.isStatic == (dispatch = .static)
    else failure
  | _ => failure

def entryStaticType (beholder : TypeRef) (index : UInt32) : Query TypeRef := do
  match ← entry w beholder index with
  | .field owner name true => declaringType w (← typeByName w beholder owner) name (some true)
  | .procedure _ _ _ .static =>
    return (← procDecl w (← entryProcedure w beholder index .static)).owner
  | _ => failure

def entryInterfaceProcedure (beholder lookup : TypeRef) (index : UInt32) : Query ProcRef := do
  match ← entry w beholder index with
  | .procedure _ name signature .interface =>
    findProcedure w lookup name signature fun d => !d.isStatic
  | _ => failure

def entryImproperProcedure (beholder : TypeRef) (index : UInt32) : Query ProcRef := do
  match ← entry w beholder index with
  | .procedure owner name signature .interface =>
    let t ← typeByName w beholder owner
    let instanceOnly := fun (d : ProcDecl) => !d.isStatic
    let found := findProcedure w t name signature instanceOnly <|>
      findProcedure w World.rootType name signature instanceOnly
    accept found fun p => return !(← typeDecl w (← procDecl w p).owner).isInterface
  | _ => failure

def procedureAt (t : TypeRef) (index : UInt32) : Query ProcRef := do
  answer (← typeDecl w t).procedures[index.toNat]?

def slotOf (t : TypeRef) (slot : UInt32) : Query ProcRef := do
  answer (← typeDecl w t).vtable[slot.toNat]?

def virtualProcedureAt (t : TypeRef) (offset : Int32) (ignoreResolution : Bool) :
    Query ProcRef := do
  if offset < 0 then failure
  else
    accept (do answer (← typeDecl w t).vtable[offset.toInt.toNat]?) fun p =>
      return ignoreResolution || !(← procDecl w p).isAbstract

def procedureBySignature (owner beholder : TypeRef) (name signature : String) : Query ProcRef :=
  findProcedure w owner name signature fun d => !d.isPrivate || d.owner = beholder

def maySkipFrames (p : ProcRef) (owner : TypeRef) : Reading Bool := do
  let d ← procDecl w p
  return d.owner = owner && d.maySkipFrames

def concreteSubtypes (t : TypeRef) : Reading (List TypeRef) :=
  w.typeRefs.filterM fun s => return (← typeDecl w s).isConcrete && (← isSubtype w s t)

def singleConcreteSubtype (t : TypeRef) : Query TypeRef := do
  match ← concreteSubtypes w t with
  | [s] => return s
  | _ => failure

/-- What a concrete subtype answers, whose declaration is read along with it. -/
def implementation (lookup : TypeRef → Query ProcRef) (s : TypeRef) : Reading (Option ProcRef) := do
  let found ← (lookup s).run
  if let some p := found then let _ ← procDecl w p
  return found

def implementations (t : TypeRef) (lookup : TypeRef → Query ProcRef) :
    Reading (List (Option ProcRef)) := do
  (← concreteSubtypes w t).mapM (implementation w lookup)

def uniqueImplementation (t : TypeRef) (lookup : TypeRef → Query ProcRef) : Query ProcRef := do
  let found ← implementations w t lookup
  accept (answer (World.unanimous found)) fun p => return !(← procDecl w p).isAbstract

def singleImplementer (thisType : TypeRef) (slot : UInt32) : Query ProcRef :=
  uniqueImplementation w thisType fun t => slotOf w t slot

def singleAbstractImplementer (thisType : TypeRef) (slot : UInt32) : Query ProcRef := do
  if !(← typeDecl w thisType).isAbstract then failure
  else if !(← procDecl w (← slotOf w thisType slot)).isAbstract then failure
  else singleImplementer w thisType slot

def singleInterfaceImplementer (thisType : TypeRef) (index : UInt32) (caller : ProcRef) :
    Query ProcRef := do
  if !(← typeDecl w thisType).isInterface then failure
  else
    match ← entry w (← procDecl w caller).owner index with
    | .procedure _ name signature .interface =>
      uniqueImplementation w thisType fun t =>
        findProcedure w t name signature fun d => !d.isStatic && !d.isAbstract
    | _ => failure

def isInstanceOf (object cast : TypeRef) (objectFixed : Bool) : Reading Verdict := do
  if ← isSubtype w object cast then return .yes
  else if objectFixed then return .no
  else if (← typeDecl w object).isInterface || (← typeDecl w cast).isInterface ||
      (← isSubtype w cast object) then return .maybe
  else return .no

/-- Whether the world has what is asked about. -/
def present (x : Symbol) : Reading Unit := if w.Has x then .ok () else .error x

def allPresent (operands : List Symbol) : Reading Unit := operands.forM (present w)

def typeOf (rule : TypeRule TypeRef ProcRef) : Query TypeRef := do
  allPresent w rule.operands
  match rule with
  | .byName beholder name => typeByName w beholder name
  | .profiled name digest => typeByChain w name digest
  | .fromEntry beholder index => entryType w beholder index
  | .definingFromEntry beholder index isStatic => entryDefiningType w beholder index isStatic
  | .staticFromEntry beholder index => entryStaticType w beholder index
  | .ownerOf procedure => return (← procDecl w procedure).owner
  | .componentOf array => OptionT.mk (component w array)
  | .arrayOf component => do answer (← typeDecl w component).array
  | .superOf child => OptionT.mk (superType w child)
  | .systemByName name => systemTypeByName w name
  | .fromDispatchEntry beholder index => entryDispatchType w beholder index
  | .declaringField beholder index => entryDeclaringType w beholder index
  | .metaOf _ => return World.metaType
  | .concreteSubtypeOf superType => singleConcreteSubtype w superType

def procedureOf (rule : ProcRule TypeRef ProcRef) : Query ProcRef := do
  allPresent w rule.operands
  match rule with
  | .declaredBy beholder index => procedureAt w beholder index
  | .staticFromEntry beholder index => entryProcedure w beholder index .static
  | .specialFromEntry beholder index => entryProcedure w beholder index .special
  | .virtualFromEntry beholder index => entryProcedure w beholder index .virtual
  | .virtualFromOffset beholder offset ignore => virtualProcedureAt w beholder offset ignore
  | .interfaceFromEntry beholder lookup index => entryInterfaceProcedure w beholder lookup index
  | .improperFromEntry beholder index => entryImproperProcedure w beholder index
  | .bySignature owner beholder name signature =>
    procedureBySignature w owner beholder name signature
  | .singleImplementer thisType _ slot => singleImplementer w thisType slot
  | .singleInterfaceImplementer thisType caller index =>
    singleInterfaceImplementer w thisType index caller
  | .singleAbstractImplementer thisType _ slot => singleAbstractImplementer w thisType slot

def holds (c : Check TypeRef ProcRef) : Reading Bool := do
  allPresent w c.operands
  match c with
  | .instanceOf object cast objectFixed _ isInstance =>
    match ← isInstanceOf w object cast objectFixed with
    | .yes => return isInstance
    | .no => return !isInstance
    | .maybe => return false
  | .chain ty digest => return decide ((← chainDigest w ty) = digest)
  | .skipFrames owner procedure skip => return (← maySkipFrames w procedure owner) == skip
  | .initialized ty isInitialized => return !isInitialized || (← typeDecl w ty).isInitialized

variable {w} {t s : TypeRef} {p : ProcRef} {name signature : String} {index : UInt32}

theorem contextOf_eq_ok (ht : w.Has (.type t)) : contextOf w t = .ok (w.contextOf t) := by
  rw [contextOf, ok_bind (typeDecl_eq_ok ht)]
  rfl

theorem level_eq_ok (h : w.Sound) (ht : w.Has (.type t)) : level w t = .ok (w.level t) := by
  rw [level, ok_bind (typeDecl_eq_ok ht)]
  refine ok_bind (mapM_eq_ok fun i hi => ?_) _
  rw [ok_bind (typeDecl_eq_ok (h.has_interfaces i hi))]
  rfl

theorem procedureText_eq_ok (hp : w.Has (.procedure p)) :
    procedureText w p = .ok (w.procedureText p) := by
  rw [procedureText, ok_bind (procDecl_eq_ok hp)]
  rfl

theorem shape_eq_ok (h : w.Sound) (ht : w.Has (.type t)) : shape w t = .ok (w.shape t) := by
  rw [shape, ok_bind (superChain_eq_ok h ht),
    ok_bind (mapM_eq_ok fun s hs => level_eq_ok h (h.has_superChain ht s hs)),
    ok_bind (typeDecl_eq_ok ht),
    ok_bind (mapM_eq_ok fun p hp => procedureText_eq_ok ((h.covers t).procedures p hp)),
    World.shape, List.flatMap_def]
  rfl

theorem chainDigest_eq_ok (h : w.Sound) (ht : w.Has (.type t)) :
    chainDigest w t = .ok (w.chainDigest t) := by
  rw [chainDigest, ok_bind (shape_eq_ok h ht)]
  rfl

theorem systemTypeByName_eq_answer (h : w.Sound) :
    systemTypeByName w name = answer (w.systemTypeByName name) := by
  refine congrArg OptionT.mk (findM?_eq_ok fun t ht => ?_)
  rw [ok_bind (contextOf_eq_ok (h.named name t ht).1)]
  rfl

theorem typeByName_eq_answer (h : w.Sound) (hs : w.Has (.type s)) :
    typeByName w s name = answer (w.typeByName s name) := by
  have near : OptionT.mk ((w.named name).findM? fun t =>
        return decide ((← contextOf w t) = w.contextOf s)) =
      answer ((w.named name).find? fun t => w.contextOf t = w.contextOf s) := by
    refine congrArg OptionT.mk (findM?_eq_ok fun t ht => ?_)
    rw [ok_bind (contextOf_eq_ok (h.named name t ht).1)]
    rfl
  rw [typeByName, read_bind (contextOf_eq_ok hs), near, systemTypeByName_eq_answer h,
    answer_orElse]
  rfl

theorem typeByChain_eq_answer (h : w.Sound) {digest : Digest} :
    typeByChain w name digest = answer (w.typeByChain name digest) := by
  refine congrArg OptionT.mk (findM?_eq_ok fun t ht => ?_)
  rw [ok_bind (chainDigest_eq_ok h (h.named name t ht).1)]
  rfl

theorem searchOrder_eq_ok (h : w.Sound) (ht : w.Has (.type t)) :
    searchOrder w t = .ok (w.searchOrder t) := by
  rw [searchOrder, ok_bind (superChain_eq_ok h ht), ok_bind (allInterfaces_eq_ok h ht)]
  rfl

theorem declared_eq_ok (h : w.Sound) {accept : ProcDecl → Bool} (ht : w.Has (.type t)) :
    declared w name signature accept t = .ok (w.declared name signature accept t) := by
  rw [declared, ok_bind (typeDecl_eq_ok ht)]
  refine findM?_eq_ok fun p hp => ?_
  rw [ok_bind (procDecl_eq_ok ((h.covers t).procedures p hp))]
  rfl

theorem findProcedure_eq_answer (h : w.Sound) (ht : w.Has (.type t)) (accept : ProcDecl → Bool) :
    findProcedure w t name signature accept = answer (w.findProcedure t name signature accept) := by
  rw [findProcedure, ok_bind (searchOrder_eq_ok h ht)]
  exact congrArg OptionT.mk (findSomeM?_eq_ok fun s hs =>
    declared_eq_ok h (h.has_searchOrder ht s hs))

theorem declaringType_eq_answer (h : w.Sound) (ht : w.Has (.type t)) (isStatic : Option Bool) :
    declaringType w t name isStatic = answer (w.declaringType t name isStatic) := by
  rw [declaringType, ok_bind (superChain_eq_ok h ht)]
  refine congrArg OptionT.mk (findM?_eq_ok fun s hs => ?_)
  rw [ok_bind (typeDecl_eq_ok (h.has_superChain ht s hs))]
  rfl

theorem entry_eq_answer (hs : w.Has (.type s)) : entry w s index = answer (w.entry s index) := by
  rw [entry, read_bind (typeDecl_eq_ok hs)]
  rfl

theorem entryType_eq_answer (h : w.Sound) (hs : w.Has (.type s)) :
    entryType w s index = answer (w.entryType s index) := by
  rw [entryType, entry_eq_answer hs]
  exact answer_bind fun _ _ => typeByName_eq_answer h hs

/-- A field is looked for from a type that is found by its name. -/
theorem declaringField_eq_answer (h : w.Sound) (hs : w.Has (.type s)) {owner : String}
    (isStatic : Option Bool) :
    (do declaringType w (← typeByName w s owner) name isStatic) =
      answer ((w.typeByName s owner).bind fun t => w.declaringType t name isStatic) := by
  rw [typeByName_eq_answer h hs]
  exact answer_bind fun _ ht => declaringType_eq_answer h (h.has_typeByName ht) isStatic

theorem entryDefiningType_eq_answer (h : w.Sound) (hs : w.Has (.type s)) {isStatic : Bool} :
    entryDefiningType w s index isStatic = answer (w.entryDefiningType s index isStatic) := by
  rw [entryDefiningType, entry_eq_answer hs]
  refine answer_bind fun entry _ => ?_
  cases entry with
  | field owner name declaredStatic =>
    show (if _ then _ else _) = answer (if _ then _ else _)
    split
    · exact declaringField_eq_answer h hs _
    · rfl
  | type | procedure => rfl

theorem entryDeclaringType_eq_answer (h : w.Sound) (hs : w.Has (.type s)) :
    entryDeclaringType w s index = answer (w.entryDeclaringType s index) := by
  rw [entryDeclaringType, entry_eq_answer hs]
  refine answer_bind fun entry _ => ?_
  cases entry with
  | field owner name _ => exact declaringField_eq_answer h hs none
  | type | procedure => rfl

theorem entryDispatchType_eq_answer (h : w.Sound) (hs : w.Has (.type s)) :
    entryDispatchType w s index = answer (w.entryDispatchType s index) := by
  rw [entryDispatchType, entry_eq_answer hs]
  refine answer_bind fun entry _ => ?_
  cases entry with
  | procedure owner name signature dispatch =>
    cases dispatch with
    | interface =>
      show accept (typeByName w s owner) _ = _
      rw [typeByName_eq_answer h hs]
      refine accept_answer fun t ht => ?_
      rw [ok_bind (typeDecl_eq_ok (h.has_typeByName ht))]
      rfl
    | static | special | virtual => rfl
  | type | field => rfl

theorem entryProcedure_eq_answer (h : w.Sound) (hs : w.Has (.type s)) {dispatch : Dispatch} :
    entryProcedure w s index dispatch = answer (w.entryProcedure s index dispatch) := by
  rw [entryProcedure, entry_eq_answer hs]
  refine answer_bind fun entry _ => ?_
  cases entry with
  | procedure owner name signature declaredDispatch =>
    show (if _ then _ else _) = answer (if _ then _ else _)
    split
    · rw [typeByName_eq_answer h hs]
      exact answer_bind fun t ht => findProcedure_eq_answer h (h.has_typeByName ht) _
    · rfl
  | type | field => rfl

theorem entryStaticType_eq_answer (h : w.Sound) (hs : w.Has (.type s)) :
    entryStaticType w s index = answer (w.entryStaticType s index) := by
  rw [entryStaticType, entry_eq_answer hs]
  refine answer_bind fun entry _ => ?_
  cases entry with
  | type => rfl
  | field owner name isStatic =>
    cases isStatic with
    | true => exact declaringField_eq_answer h hs (some true)
    | false => rfl
  | procedure owner name signature dispatch =>
    cases dispatch with
    | static =>
      show (entryProcedure w s index .static >>= _) = _
      rw [entryProcedure_eq_answer h hs]
      refine answer_bind fun p hp => ?_
      rw [read_bind (procDecl_eq_ok (h.has_entryProcedure hp))]
      rfl
    | special | virtual | interface => rfl

theorem entryInterfaceProcedure_eq_answer (h : w.Sound) (hs : w.Has (.type s))
    (ht : w.Has (.type t)) :
    entryInterfaceProcedure w s t index = answer (w.entryInterfaceProcedure s t index) := by
  rw [entryInterfaceProcedure, entry_eq_answer hs]
  refine answer_bind fun entry _ => ?_
  cases entry with
  | procedure owner name signature dispatch =>
    cases dispatch with
    | interface => exact findProcedure_eq_answer h ht _
    | static | special | virtual => rfl
  | type | field => rfl

theorem entryImproperProcedure_eq_answer (h : w.Sound) (hs : w.Has (.type s)) :
    entryImproperProcedure w s index = answer (w.entryImproperProcedure s index) := by
  rw [entryImproperProcedure, entry_eq_answer hs]
  refine answer_bind fun entry _ => ?_
  cases entry with
  | procedure owner name signature dispatch =>
    cases dispatch with
    | interface =>
      show (typeByName w s owner >>= _) = _
      rw [typeByName_eq_answer h hs]
      refine answer_bind fun t ht => ?_
      show accept (findProcedure w t _ _ _ <|> findProcedure w World.rootType _ _ _) _ = _
      rw [findProcedure_eq_answer h (h.has_typeByName ht), findProcedure_eq_answer h h.rootType,
        answer_orElse]
      refine accept_answer fun p hp => ?_
      rw [ok_bind (procDecl_eq_ok (h.has_orElse_findProcedure hp)),
        ok_bind (typeDecl_eq_ok (h.owner p))]
      rfl
    | static | special | virtual => rfl
  | type | field => rfl

theorem procedureAt_eq_answer (ht : w.Has (.type t)) :
    procedureAt w t index = answer (w.procedureAt t index) := by
  rw [procedureAt, read_bind (typeDecl_eq_ok ht)]
  rfl

theorem slotOf_eq_answer (ht : w.Has (.type t)) : slotOf w t index = answer (w.slotOf t index) := by
  rw [slotOf, read_bind (typeDecl_eq_ok ht)]
  rfl

theorem virtualProcedureAt_eq_answer (h : w.Sound) (ht : w.Has (.type t)) {offset : Int32}
    {ignore : Bool} :
    virtualProcedureAt w t offset ignore = answer (w.virtualProcedureAt t offset ignore) := by
  rw [virtualProcedureAt, World.virtualProcedureAt, read_bind (typeDecl_eq_ok ht)]
  split
  · rfl
  · refine accept_answer fun p hp => ?_
    rw [ok_bind (procDecl_eq_ok ((h.covers t).vtable p (List.mem_of_getElem? hp)))]
    rfl

theorem maySkipFrames_eq_ok (hp : w.Has (.procedure p)) :
    maySkipFrames w p t = .ok (w.maySkipFrames p t) := by
  rw [maySkipFrames, ok_bind (procDecl_eq_ok hp)]
  rfl

theorem concreteSubtypes_eq_ok (h : w.Sound) (ht : w.Has (.type t)) :
    concreteSubtypes w t = .ok (w.concreteSubtypes t) := by
  refine filterM_eq_ok fun s hs => ?_
  obtain ⟨i, hi, rfl⟩ := List.mem_map.mp hs
  have hhas : w.Has (.type ⟨i⟩) := List.mem_range.mp hi
  rw [ok_bind (typeDecl_eq_ok hhas), ok_bind (isSubtype_eq_ok h hhas ht)]
  rfl

theorem singleConcreteSubtype_eq_answer (h : w.Sound) (ht : w.Has (.type t)) :
    singleConcreteSubtype w t = answer (w.singleConcreteSubtype t) := by
  rw [singleConcreteSubtype, read_bind (concreteSubtypes_eq_ok h ht), World.singleConcreteSubtype]
  rcases w.concreteSubtypes t with _ | ⟨s, _ | ⟨u, rest⟩⟩ <;> rfl

theorem uniqueImplementation_eq_answer (h : w.Sound) (ht : w.Has (.type t))
    {read : TypeRef → Query ProcRef} {lookup : TypeRef → Option ProcRef}
    (reads : ∀ s, w.Has (.type s) → read s = answer (lookup s))
    (has : ∀ s p, lookup s = some p → w.Has (.procedure p)) :
    uniqueImplementation w t read = answer (w.uniqueImplementation t lookup) := by
  have each : ∀ s ∈ w.concreteSubtypes t, implementation w read s = .ok (lookup s) := by
    intro s hs
    rw [implementation, reads s (World.WellFormed.has_of_mem_concreteSubtypes hs)]
    cases hp : lookup s with
    | none => rfl
    | some p =>
      show (procDecl w p >>= _) = _
      rw [ok_bind (procDecl_eq_ok (has s p hp))]
      rfl
  have all : implementations w t read = .ok ((w.concreteSubtypes t).map lookup) := by
    rw [implementations, ok_bind (concreteSubtypes_eq_ok h ht)]
    exact mapM_eq_ok each
  rw [uniqueImplementation, read_bind all]
  refine accept_answer fun p hp => ?_
  obtain ⟨s, -, hs⟩ := List.mem_map.mp (World.WellFormed.mem_of_unanimous hp)
  rw [ok_bind (procDecl_eq_ok (has s p hs))]
  rfl

theorem singleImplementer_eq_answer (h : w.Sound) (ht : w.Has (.type t)) :
    singleImplementer w t index = answer (w.singleImplementer t index) :=
  uniqueImplementation_eq_answer h ht (fun _ => slotOf_eq_answer) fun s p hp =>
    (h.covers s).vtable p (List.mem_of_getElem? hp)

theorem singleAbstractImplementer_eq_answer (h : w.Sound) (ht : w.Has (.type t)) :
    singleAbstractImplementer w t index = answer (w.singleAbstractImplementer t index) := by
  rw [singleAbstractImplementer, read_bind (typeDecl_eq_ok ht), World.singleAbstractImplementer]
  split
  · rfl
  · rw [slotOf_eq_answer ht]
    refine answer_bind fun p hp => ?_
    rw [read_bind (procDecl_eq_ok ((h.covers t).vtable p (List.mem_of_getElem? hp)))]
    split
    · rfl
    · exact singleImplementer_eq_answer h ht

theorem singleInterfaceImplementer_eq_answer (h : w.Sound) (ht : w.Has (.type t))
    (hp : w.Has (.procedure p)) :
    singleInterfaceImplementer w t index p = answer (w.singleInterfaceImplementer t index p) := by
  rw [singleInterfaceImplementer, read_bind (typeDecl_eq_ok ht), World.singleInterfaceImplementer]
  split
  · rfl
  · rw [read_bind (procDecl_eq_ok hp), entry_eq_answer (h.owner p)]
    refine answer_bind fun entry _ => ?_
    cases entry with
    | procedure owner name signature dispatch =>
      cases dispatch with
      | interface =>
        exact uniqueImplementation_eq_answer h ht (fun _ hs => findProcedure_eq_answer h hs _)
          fun _ _ => h.has_findProcedure
      | static | special | virtual => rfl
    | type | field => rfl

theorem isInstanceOf_eq_ok (h : w.Sound) (ht : w.Has (.type t)) (hs : w.Has (.type s))
    {fixed : Bool} : isInstanceOf w t s fixed = .ok (w.isInstanceOf t s fixed) := by
  rw [isInstanceOf, ok_bind (isSubtype_eq_ok h ht hs), World.isInstanceOf]
  split
  · rfl
  · split
    · rfl
    · rw [ok_bind (typeDecl_eq_ok ht), ok_bind (typeDecl_eq_ok hs),
        ok_bind (isSubtype_eq_ok h hs ht)]
      split
      · rfl
      · rfl

theorem allPresent_eq_ok {operands : List Symbol} (has : ∀ x ∈ operands, w.Has x) :
    allPresent w operands = .ok () := by
  induction operands with
  | nil => rfl
  | cons x operands ih =>
    have hx : present w x = .ok () := if_pos (has x List.mem_cons_self)
    show (present w x >>= fun _ => allPresent w operands) = _
    rw [ok_bind hx, ih fun y hy => has y (List.mem_cons_of_mem x hy)]

theorem typeOf_eq_answer (h : w.Sound) {rule : TypeRule TypeRef ProcRef}
    (has : ∀ x ∈ rule.operands, w.Has x) : typeOf w rule = answer (w.model.typeOf rule) := by
  refine (read_bind (allPresent_eq_ok has) _).trans ?_
  cases rule with
  | byName beholder => exact typeByName_eq_answer h (has _ List.mem_cons_self)
  | profiled => exact typeByChain_eq_answer h
  | systemByName => exact systemTypeByName_eq_answer h
  | fromEntry beholder => exact entryType_eq_answer h (has _ List.mem_cons_self)
  | definingFromEntry beholder => exact entryDefiningType_eq_answer h (has _ List.mem_cons_self)
  | staticFromEntry beholder => exact entryStaticType_eq_answer h (has _ List.mem_cons_self)
  | ownerOf p => exact read_bind (procDecl_eq_ok (has (.procedure p) List.mem_cons_self)) _
  | componentOf t => exact congrArg OptionT.mk (component_eq_ok h (has _ List.mem_cons_self))
  | arrayOf t => exact read_bind (typeDecl_eq_ok (has (.type t) List.mem_cons_self)) _
  | superOf t => exact congrArg OptionT.mk (superType_eq_ok h (has _ List.mem_cons_self))
  | fromDispatchEntry beholder => exact entryDispatchType_eq_answer h (has _ List.mem_cons_self)
  | declaringField beholder => exact entryDeclaringType_eq_answer h (has _ List.mem_cons_self)
  | metaOf => rfl
  | concreteSubtypeOf t => exact singleConcreteSubtype_eq_answer h (has _ List.mem_cons_self)

theorem procedureOf_eq_answer (h : w.Sound) {rule : ProcRule TypeRef ProcRef}
    (has : ∀ x ∈ rule.operands, w.Has x) :
    procedureOf w rule = answer (w.model.procedureOf rule) := by
  refine (read_bind (allPresent_eq_ok has) _).trans ?_
  cases rule with
  | declaredBy t => exact procedureAt_eq_answer (has (.type t) List.mem_cons_self)
  | staticFromEntry | specialFromEntry | virtualFromEntry =>
    exact entryProcedure_eq_answer h (has _ List.mem_cons_self)
  | virtualFromOffset => exact virtualProcedureAt_eq_answer h (has _ List.mem_cons_self)
  | interfaceFromEntry beholder lookup =>
    exact entryInterfaceProcedure_eq_answer h (has _ List.mem_cons_self)
      (has (.type lookup) (List.mem_cons_of_mem _ List.mem_cons_self))
  | improperFromEntry => exact entryImproperProcedure_eq_answer h (has _ List.mem_cons_self)
  | bySignature => exact findProcedure_eq_answer h (has _ List.mem_cons_self) _
  | singleImplementer => exact singleImplementer_eq_answer h (has _ List.mem_cons_self)
  | singleInterfaceImplementer t caller =>
    exact singleInterfaceImplementer_eq_answer h (has _ List.mem_cons_self)
      (has (.procedure caller) (List.mem_cons_of_mem _ List.mem_cons_self))
  | singleAbstractImplementer =>
    exact singleAbstractImplementer_eq_answer h (has _ List.mem_cons_self)

theorem holds_eq_ok (h : w.Sound) {c : Check TypeRef ProcRef} (has : ∀ x ∈ c.operands, w.Has x) :
    holds w c = .ok (w.model.holds c) := by
  refine (ok_bind (allPresent_eq_ok has) _).trans ?_
  cases c with
  | instanceOf t s fixed castFixed isInstance =>
    show (isInstanceOf w t s fixed >>= _) = .ok (match w.isInstanceOf t s fixed with
      | .yes => isInstance
      | .no => !isInstance
      | .maybe => false)
    rw [ok_bind (isInstanceOf_eq_ok h (has _ List.mem_cons_self)
      (has (.type s) (List.mem_cons_of_mem _ List.mem_cons_self)))]
    cases w.isInstanceOf t s fixed <;> rfl
  | chain t => exact ok_bind (chainDigest_eq_ok h (has _ List.mem_cons_self)) _
  | skipFrames t p =>
    exact ok_bind (maySkipFrames_eq_ok
      (has (.procedure p) (List.mem_cons_of_mem _ List.mem_cons_self))) _
  | initialized t => exact ok_bind (typeDecl_eq_ok (has (.type t) List.mem_cons_self)) _

end Checked

end Provenance
