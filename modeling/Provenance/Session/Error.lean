import Provenance.Record.Render

/-!
What a session can refuse, by cause, and the texts that say so. A violation is a
mistake of the caller and so is an operation at the wrong time; a limit and a record
that no longer holds are not.
-/
namespace Provenance

/-- The life of a session that records goes from building to sealed, that of one that
validates from loading to validated or rejected. -/
inductive Phase where
  | building
  | sealed
  | loading
  | validated
  | rejected
deriving DecidableEq, Repr

def Phase.name : Phase → String
  | building => "Building"
  | sealed => "Sealed"
  | loading => "Loading"
  | validated => "Validated"
  | rejected => "Rejected"

instance : ToString Phase := ⟨Phase.name⟩

/-- The operations that some phase refuses. -/
inductive Gated where
  | add (kind : Kind)
  | validate (kind : Kind)
  | seed
  | enterRegion
  | openGuard
  | seal
  | validateSymbol
  | validateRecords
deriving DecidableEq, Repr

def Gated.name : Gated → String
  | add kind => s!"add_{kind.snakeName}_record"
  | validate kind => s!"validate_{kind.snakeName}_record"
  | seed => "define_guaranteed_id"
  | enterRegion => "enter_heuristic_region"
  | openGuard => "heuristic_region"
  | .seal => "seal"
  | validateSymbol => "validate_symbol"
  | validateRecords => "validate_records"

inductive Violation where
  | lateSeed (symbol : Symbol)
  | unbalancedExit
  | unbalancedGuard (opened found : Nat)
  | noId (symbol : Symbol)
  | wrongCategory (id : SymbolId) (symbol : Symbol) (expected : Category)
  | unboundId (id : SymbolId)
  | openRegions (depth : Nat)
  | appendedTwice (record : LiveRecord)
  | unknownPremise (symbol : Symbol) (kind : Kind)
  | lostArray (component ty : TypeRef)
deriving DecidableEq, Repr

def Violation.message : Violation → String
  | lateSeed symbol => s!"guaranteed ID for {symbol} requested after records were added"
  | unbalancedExit => "heuristic region exited more often than entered"
  | unbalancedGuard opened found =>
    s!"heuristic region guard opened at depth {opened} closed at depth {found}"
  | noId symbol => s!"{symbol} has no symbol ID"
  | wrongCategory id symbol expected => s!"{id} names {symbol}, expected a {expected} symbol"
  | unboundId id => s!"{id} is not bound to any symbol"
  | openRegions depth => s!"sealed inside {depth} open heuristic region(s)"
  | appendedTwice record => s!"{record} appended twice"
  | unknownPremise symbol kind => s!"{symbol} should have already been validated for {kind}"
  | lostArray component ty => s!"array type of {component} vanished while unrolling {ty}"

inductive Limit where
  | symbolIds
  | arrayDimensions (ty : TypeRef) (dims max : Nat)
deriving DecidableEq, Repr

def Limit.message : Limit → String
  | symbolIds => "symbol ID space exhausted"
  | arrayDimensions ty dims max => s!"{ty} has {dims} array dimensions, the limit is {max}"

inductive SessionError where
  | invariant (violation : Violation)
  | limit (limit : Limit)
  | wrongPhase (operation : Gated) (phase : Phase)
  | rejected (index : Nat) (kind : Kind)
deriving DecidableEq, Repr

namespace SessionError

def message : SessionError → String
  | invariant v => s!"symbol validation invariant violated: {v.message}"
  | limit l => s!"symbol validation limit reached: {l.message}"
  | wrongPhase operation phase => s!"{operation.name} is not permitted while the manager is {phase}"
  | rejected index kind => s!"validation record {index} ({kind}) no longer holds"

/-- Logic errors point to a mistake in the caller, not to a program that has changed. -/
def isLogic : SessionError → Bool
  | invariant _ | wrongPhase .. => true
  | limit _ | rejected .. => false

end SessionError

/-- An error either is the answer of the operation or, where assertions are fatal, stops
whatever was going on at that point. -/
inductive Failure where
  | refused (error : SessionError)
  | fatal (error : SessionError)
deriving DecidableEq, Repr

end Provenance
