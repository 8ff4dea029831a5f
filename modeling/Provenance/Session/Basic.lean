import Provenance.Config
import Provenance.Ledger
import Provenance.Model
import Provenance.Numbering
import Provenance.Region
import Provenance.Session.Error

/-!
A session: one analysis that records how it came to know symbols, or one attempt to
confirm such a record list against a program. Operations run one after the other on
the state of the session, and an operation that fails keeps what it had changed.
-/
namespace Provenance

structure Session where
  config : Config
  phase : Phase
  numbering : Numbering
  ledger : Ledger
  region : Region
  /-- How many symbols were given an ID before anything was recorded or confirmed. -/
  seeded : Nat

namespace Session

abbrev Action := EStateM Failure Session

/-- The root type and the meta type have IDs from the start. -/
def seeds (model : Model) : List Symbol := [.type model.rootType, .type model.metaType]

def start (model : Model) (config : Config) (phase : Phase) : Session where
  config := config
  phase := phase
  numbering := (seeds model).foldl (fun n s => ((n.enrol s).map Prod.snd).getD n) .empty
  ledger := .empty
  region := .closed
  seeded := (seeds model).length

def forCompile (model : Model) (config : Config) : Session := start model config .building

def forLoad (model : Model) (config : Config) : Session := start model config .loading

/-- Fails with an error, fatally if it is a logic error and those are fatal here. -/
def refuse {α : Type} (e : SessionError) : Action α := fun s =>
  .error (if s.config.assertionsAreFatal && e.isLogic then .fatal e else .refused e) s

def violate {α : Type} (v : Violation) : Action α := refuse (.invariant v)

def gate (operation : Gated) (allowed : List Phase) : Action Unit := fun s =>
  if s.phase ∈ allowed then .ok () s else refuse (.wrongPhase operation s.phase) s

/-- While a region is open every symbol may be relied upon, for nothing is recorded. -/
def isValidated (s : Session) (x : Symbol) : Bool :=
  s.region.isOpen || (s.numbering.id? x).isSome

def requireId (x : Symbol) : Action SymbolId := do
  match (← get).numbering.id? x with
  | some id => return id
  | none => violate (.noId x)

/-- Whether an ID has to name something. -/
inductive Presence where
  | required
  | optional
deriving DecidableEq, Repr

def symbolFor (id : SymbolId) (expected : Category) (presence : Presence) :
    Action (Option Symbol) := do
  match (← get).numbering.symbolOf? id, presence with
  | some x, _ => if x.category = expected then return some x else violate (.wrongCategory id x expected)
  | none, .optional => return none
  | none, .required => violate (.unboundId id)

def typeFor (id : SymbolId) (presence : Presence) : Action (Option TypeRef) := do
  return (← symbolFor id .type presence).bind Operand.asType

def procedureFor (id : SymbolId) (presence : Presence) : Action (Option ProcRef) := do
  return (← symbolFor id .procedure presence).bind Operand.asProcedure

/-- Gives the next ID to a symbol that has none. -/
def issue (x : Symbol) : Action SymbolId := fun s =>
  match s.numbering.next with
  | none => refuse (.limit .symbolIds) s
  | some id => .ok id { s with numbering := s.numbering.issue x id }

/-- Too late for a seed: something was recorded, or more symbols are known than seeded. -/
def isLate (s : Session) : Bool := !s.ledger.isEmpty || s.seeded < s.numbering.size

/-- Gives a well-known symbol an ID that no record stands for. -/
def seed (x : Symbol) : Action SymbolId := do
  gate .seed [.building, .loading]
  if (← get).isLate then violate (.lateSeed x)
  match (← get).numbering.id? x with
  | some id => return id
  | none =>
    let id ← issue x
    modify fun s => { s with seeded := s.seeded + 1 }
    return id

def enterRegion : Action Unit := do
  gate .enterRegion [.building]
  modify fun s => { s with region := s.region.enter }

def exitRegion : Action Unit := do
  match (← get).region.exit? with
  | some region => modify fun s => { s with region := region }
  | none => violate .unbalancedExit

/-- Opens a region for a stretch of operations and returns the count it has. -/
def openGuard : Action UInt32 := do
  gate .openGuard [.building]
  modify fun s => { s with region := s.region.enter }
  return (← get).region.count

/-- Closes the region opened at a count, and with it all that was left open inside. Only
where assertions are fatal does a count that was not kept matter. -/
def closeGuard (opened : UInt32) : Action Unit := do
  let found := (← get).region.count
  modify fun s => { s with region := ⟨opened - 1⟩ }
  if found ≠ opened && (← get).config.assertionsAreFatal then
    throw (.fatal (.invariant (.unbalancedGuard opened.toNat found.toNat)))

end Session

end Provenance
