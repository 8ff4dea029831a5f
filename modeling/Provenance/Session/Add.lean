import Provenance.Session.Basic
import Provenance.Session.Discovery

/-!
Recording discoveries. A record may only speak of symbols that are known, apart from the
one it derives, so the ledger can be read from front to back. The first record of a type
is followed by one of its chain, unless it is an array; the first record of a procedure
by one of its owner, unless that is known.
-/
namespace Provenance.Session

/-- Appends a record that is not there yet, and gives the symbol it derives an ID. -/
def append (r : LiveRecord) : Action Unit := do
  if (← get).ledger.contains r then violate (.appendedTwice r)
  if let some x := r.defined then
    if ((← get).numbering.id? x).isNone then let _ ← issue x
  modify fun s => { s with ledger := (s.ledger.insert r).2 }

def appendIfNew (r : LiveRecord) : Action Unit := do
  unless (← get).ledger.contains r do append r

def requirePremises (r : LiveRecord) : Action Unit := do
  let s ← get
  match r.premises.find? (fun x => !s.isValidated x) with
  | some x => violate (.unknownPremise x r.kind)
  | none => return ()

def addType (model : Model) (ty : TypeRef) (rule : TypeRule TypeRef ProcRef) : Action Unit := do
  requirePremises (.type ty rule)
  if (← get).isValidated (.type ty) then appendIfNew (.type ty rule)
  else
    append (.type ty rule)
    unless model.isArray ty do appendIfNew (.check (.chain ty (model.chainDigest ty)))

def addProcedure (model : Model) (procedure : ProcRef) (rule : ProcRule TypeRef ProcRef) :
    Action Unit := do
  requirePremises (.procedure procedure rule)
  if (← get).isValidated (.procedure procedure) then appendIfNew (.procedure procedure rule)
  else
    append (.procedure procedure rule)
    let owner := model.ownerOf procedure
    unless (← get).isValidated (.type owner) do addType model owner (.ownerOf procedure)

def addCheck (c : Check TypeRef ProcRef) : Action Unit := do
  requirePremises (.check c)
  appendIfNew (.check c)

/-- Records the arrays of `dims` dimensions on top of a component, one after the other. -/
def addArrays (model : Model) (ty : TypeRef) : (dims : Nat) → (component : TypeRef) → Action Unit
  | 0, _ => return ()
  | dims + 1, component => do
    match model.arrayType component with
    | none => violate (.lostArray component ty)
    | some array =>
      addType model array (.arrayOf component)
      addArrays model ty dims array

/-- Only the innermost component of an array has a name to be found by. -/
def addNamed (model : Model) (ty : TypeRef) (naming : Naming) : Action Unit := do
  let (component, dims) := model.baseComponent ty
  let max := (← get).config.maxArrayDimensions.toNat
  if max < dims then refuse (.limit (.arrayDimensions ty dims max))
  addType model component (naming.rule model component)
  addArrays model ty dims component

/-- Whether the symbol of a discovery may be relied upon from now on. Nothing is recorded
for a missing answer or inside a heuristic region. -/
def add (model : Model) (d : Discovery) : Action Bool := do
  gate (.add d.kind) [.building]
  if (← get).region.isOpen then return false
  match d with
  | .named (some ty) naming => addNamed model ty naming
  | .type (some ty) rule _ => addType model ty rule
  | .signed (some p) owner beholder =>
    addProcedure model p
      (.bySignature owner beholder (model.procedureName p) (model.procedureSignature p))
  | .procedure (some p) rule _ => addProcedure model p rule
  | .check c _ => addCheck c
  | .named none _ | .type none .. | .signed none .. | .procedure none .. => return false
  return true

end Provenance.Session
