import Provenance.Session.Add
import Provenance.Session.Replay
import Provenance.Session.Seal

/-!
The operations of a session as data, so that one may speak of every sequence of them. A
failure is an outcome like any other: the session lives on in the state it left.
-/
namespace Provenance

inductive Operation where
  | add (d : Discovery)
  | seed (x : Symbol)
  | enterRegion
  | exitRegion
  /-- Runs the operations inside a region of their own. -/
  | guarded (body : List Operation)
  | isValidated (x : Symbol)
  | findId (x : Symbol)
  | requireId (x : Symbol)
  | symbolFor (id : SymbolId) (expected : Category) (presence : Session.Presence)
  | typeFor (id : SymbolId) (presence : Session.Presence)
  | procedureFor (id : SymbolId) (presence : Session.Presence)
  | contains (r : LiveRecord)
  | records
  | sealRecords
  | validateSymbol (id : SymbolId) (x : Option Symbol)
  | validate (r : SealedRecord)
  | validateRecords (records : List SealedRecord)

inductive Outcome where
  | done
  | flag (value : Bool)
  | id (id : Option SymbolId)
  | symbol (x : Option Symbol)
  | type (t : Option TypeRef)
  | procedure (p : Option ProcRef)
  | records (records : List LiveRecord)
  | sealed (records : List SealedRecord)
  | failed (failure : Failure)
  | guarded (inside : List Outcome) (closing : Option Failure)

namespace Session

def settle {α : Type} (action : Action α) (outcome : α → Outcome) (s : Session) :
    Outcome × Session :=
  match action s with
  | .ok value s => (outcome value, s)
  | .error failure s => (.failed failure, s)

mutual

def perform (model : Model) : Operation → Session → Outcome × Session
  | .add d => settle (add model d) .flag
  | .seed x => settle (seed x) fun id => .id (some id)
  | .enterRegion => settle enterRegion fun _ => .done
  | .exitRegion => settle exitRegion fun _ => .done
  | .guarded body => fun s =>
    match openGuard s with
    | .error failure s => (.failed failure, s)
    | .ok opened s =>
      let (inside, s) := performAll model body s
      match closeGuard opened s with
      | .ok () s => (.guarded inside none, s)
      | .error failure s => (.guarded inside (some failure), s)
  | .isValidated x => fun s => (.flag (s.isValidated x), s)
  | .findId x => fun s => (.id (s.numbering.id? x), s)
  | .requireId x => settle (requireId x) fun id => .id (some id)
  | .symbolFor id expected presence => settle (symbolFor id expected presence) .symbol
  | .typeFor id presence => settle (typeFor id presence) .type
  | .procedureFor id presence => settle (procedureFor id presence) .procedure
  | .contains r => fun s => (.flag (s.ledger.contains r), s)
  | .records => fun s => (.records s.ledger.records, s)
  | .sealRecords => settle sealRecords .sealed
  | .validateSymbol id x => settle (validateSymbol id x) .flag
  | .validate r => settle (validate model r) .flag
  | .validateRecords records => settle (validateRecords model records) fun _ => .done

def performAll (model : Model) : List Operation → Session → List Outcome × Session
  | [], s => ([], s)
  | operation :: rest, s =>
    let (outcome, s) := perform model operation s
    let (outcomes, s) := performAll model rest s
    (outcome :: outcomes, s)

end

end Session

end Provenance
