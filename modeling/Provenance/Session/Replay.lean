import Provenance.Session.Basic

/-!
Confirming sealed records against a model. The operands of a record have to be known by
then. The symbol that its rule leads to now is bound to the ID the record brings, or has
to be the one bound to it before. A list is confirmed from front to back, and once a
record fails nothing of what was bound remains.
-/
namespace Provenance.Session

def boundType (id : SymbolId) : Action TypeRef := do
  match (← get).numbering.symbolOf? id with
  | some (.type t) => return t
  | some x => violate (.wrongCategory id x .type)
  | none => violate (.unboundId id)

def boundProcedure (id : SymbolId) : Action ProcRef := do
  match (← get).numbering.symbolOf? id with
  | some (.procedure p) => return p
  | some x => violate (.wrongCategory id x .procedure)
  | none => violate (.unboundId id)

/-- A symbol that is missing, or that conflicts with what is known, does not hold. -/
def bindSymbol (id : SymbolId) : Option Symbol → Action Bool
  | none => return false
  | some x => fun s =>
    let (binding, numbering) := s.numbering.bind id x
    .ok (binding ≠ .conflict) { s with numbering := numbering }

def validateSymbol (id : SymbolId) (x : Option Symbol) : Action Bool := do
  gate .validateSymbol [.loading]
  bindSymbol id x

/-- Whether a record holds against the model. -/
def validate (model : Model) (r : SealedRecord) : Action Bool := do
  gate (.validate r.kind) [.loading]
  match r with
  | .type id rule => bindSymbol id ((model.typeOf (← rule.mapM boundType boundProcedure)).map .type)
  | .procedure id rule =>
    bindSymbol id ((model.procedureOf (← rule.mapM boundType boundProcedure)).map .procedure)
  | .check c => return model.holds (← c.mapM boundType boundProcedure)

def reject (s : Session) : Session := { s with numbering := s.numbering.clear, phase := .rejected }

/-- Validates the records from position `index` on. A fatal error leaves the session as the
record left it. -/
def replay (model : Model) : (index : Nat) → List SealedRecord → Action Unit
  | _, [] => modify fun s => { s with phase := .validated }
  | index, r :: rest => fun s =>
    match validate model r s with
    | .ok true s => replay model (index + 1) rest s
    | .ok false s => .error (.refused (.rejected index r.kind)) s.reject
    | .error (.refused e) s => .error (.refused e) s.reject
    | .error (.fatal e) s => .error (.fatal e) s

def validateRecords (model : Model) (records : List SealedRecord) : Action Unit := do
  gate .validateRecords [.loading]
  replay model 0 records

end Provenance.Session
