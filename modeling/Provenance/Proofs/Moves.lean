import Provenance.Session.Operation
import Provenance.Proofs.Confirming

/-!
All that operations can do to a session. Whatever is performed, and whether it fails or
not, the session moves by a few elementary changes, each made under the conditions that
the operations check. What these changes keep, every run keeps.
-/
namespace Provenance

/-- The record that a discovery asks for, if it has an answer. -/
def Discovery.record? (model : Model) : Discovery → Option LiveRecord
  | .named (some ty) naming =>
    let component := (model.baseComponent ty).1
    some (.type component (naming.rule model component))
  | .type (some ty) rule _ => some (.type ty rule)
  | .signed (some p) owner beholder =>
    some (.procedure p
      (.bySignature owner beholder (model.procedureName p) (model.procedureSignature p)))
  | .procedure (some p) rule _ => some (.procedure p rule)
  | .check c _ => some (.check c)
  | .named none _ | .type none .. | .signed none .. | .procedure none .. => none

namespace Operation

mutual

/-- The operations of which one is made up, those inside a region among them. -/
def atoms : Operation → List Operation
  | .guarded body => atomsAll body
  | operation => [operation]

def atomsAll : List Operation → List Operation
  | [] => []
  | operation :: rest => atoms operation ++ atomsAll rest

end

mutual

/-- The symbols that were answered with an ID when they were asked for as seeds. -/
def given : Operation → Outcome → List Symbol
  | .seed x, .id (some _) => [x]
  | .guarded body, .guarded inside _ => givenAll body inside
  | _, _ => []

def givenAll : List Operation → List Outcome → List Symbol
  | operation :: rest, outcome :: outcomes => given operation outcome ++ givenAll rest outcomes
  | _, _ => []

end

/-- Operations that neither report nor seed, nor run others. -/
def isQuiet : Operation → Bool
  | .add _ | .seed _ | .guarded _ => false
  | _ => true

/-- Operations that only ask. -/
def isQuestion : Operation → Bool
  | .isValidated _ | .findId _ | .requireId _ | .symbolFor .. | .typeFor .. | .procedureFor ..
  | .contains _ | .records => true
  | _ => false

theorem given_of_isQuiet {operation : Operation} (h : operation.isQuiet = true)
    (outcome : Outcome) : operation.given outcome = [] := by
  cases operation with
  | add | seed | guarded => cases h
  | _ => cases outcome <;> rfl

end Operation

namespace Session

variable {allowed : LiveRecord → Prop}

/-- One elementary change, with the symbols it answers as seeds. A record is made of
`allowed` ones only. -/
inductive Move (allowed : LiveRecord → Prop) : List Symbol → Session → Session → Prop where
  | region (s : Session) (region : Region) : Move allowed [] s { s with region := region }
  | reseed {s : Session} {x : Symbol} (early : s.isLate = false)
      (known : (s.numbering.id? x).isSome) : Move allowed [x] s s
  | seed {s : Session} {x : Symbol} {id : SymbolId}
      (phase : s.phase ∈ [Phase.building, Phase.loading]) (early : s.isLate = false)
      (new : s.numbering.id? x = none) (next : s.numbering.next = some id) :
      Move allowed [x] s
        { s with numbering := s.numbering.issue x id, seeded := s.seeded + 1 }
  | confirm {s : Session} {r : LiveRecord} (ok : allowed r) (phase : s.phase = .building)
      (closed : s.region.isOpen = false) (fresh : s.ledger.contains r = false)
      (premises : ∀ x ∈ r.premises, (s.numbering.id? x).isSome)
      (known : ∀ x, r.defined = some x → (s.numbering.id? x).isSome) :
      Move allowed [] s { s with ledger := (s.ledger.insert r).2 }
  | derive {s : Session} {r : LiveRecord} {x : Symbol} {id : SymbolId} (ok : allowed r)
      (phase : s.phase = .building) (closed : s.region.isOpen = false)
      (fresh : s.ledger.contains r = false)
      (premises : ∀ x ∈ r.premises, (s.numbering.id? x).isSome) (defined : r.defined = some x)
      (new : s.numbering.id? x = none) (next : s.numbering.next = some id) :
      Move allowed [] s
        { s with numbering := s.numbering.issue x id, ledger := (s.ledger.insert r).2 }
  | sealed {s : Session} (phase : s.phase = .building) (closed : s.region.isOpen = false) :
      Move allowed [] s { s with phase := .sealed }
  | bind {s : Session} {x : Symbol} {id : SymbolId} (phase : s.phase = .loading)
      (free : s.numbering.symbolOf? id = none) (new : s.numbering.id? x = none) :
      Move allowed [] s { s with numbering := s.numbering.assign x id }
  | validated {s : Session} (phase : s.phase = .loading) :
      Move allowed [] s { s with phase := .validated }
  | reject {s : Session} (phase : s.phase = .loading) : Move allowed [] s s.reject

/-- A change that records nothing. -/
abbrev Quiet : List Symbol → Session → Session → Prop := Move fun _ => False

theorem Move.mono {allowed' : LiveRecord → Prop} (mono : ∀ r, allowed r → allowed' r)
    {given : List Symbol} {s s' : Session} (h : Move allowed given s s') :
    Move allowed' given s s' := by
  cases h with
  | region s region => exact .region s region
  | reseed early known => exact .reseed early known
  | seed phase early new next => exact .seed phase early new next
  | confirm ok phase closed fresh premises known =>
    exact .confirm (mono _ ok) phase closed fresh premises known
  | derive ok phase closed fresh premises defined new next =>
    exact .derive (mono _ ok) phase closed fresh premises defined new next
  | «sealed» phase closed => exact .sealed phase closed
  | bind phase free new => exact .bind phase free new
  | validated phase => exact .validated phase
  | reject phase => exact .reject phase

/-- Moves one after the other, with all the symbols they answer as seeds. -/
inductive Moves (allowed : LiveRecord → Prop) : List Symbol → Session → Session → Prop where
  | refl (s : Session) : Moves allowed [] s s
  | step {given more : List Symbol} {s s' s'' : Session} :
      Moves allowed given s s' → Move allowed more s' s'' → Moves allowed (given ++ more) s s''

theorem Move.moves {given : List Symbol} {s s' : Session} (h : Move allowed given s s') :
    Moves allowed given s s' := Moves.step (Moves.refl s) h

theorem Moves.trans {given more : List Symbol} {s s' s'' : Session}
    (h : Moves allowed given s s') (h' : Moves allowed more s' s'') :
    Moves allowed (given ++ more) s s'' := by
  induction h' with
  | refl => rwa [List.append_nil]
  | step _ hmove ih =>
    rw [← List.append_assoc]
    exact (ih h).step hmove

theorem Moves.trans_nil {s s' s'' : Session} (h : Moves allowed [] s s')
    (h' : Moves allowed [] s' s'') : Moves allowed [] s s'' := h.trans h'

/-- What every move keeps, given the seeds so far, moves keep. -/
theorem Moves.invariant {I : List Symbol → Session → Prop}
    (step : ∀ {seeds given s s'}, I seeds s → Move allowed given s s' → I (seeds ++ given) s')
    {seeds given : List Symbol} {s s' : Session} (h : Moves allowed given s s')
    (start : I seeds s) : I (seeds ++ given) s' := by
  induction h with
  | refl => rwa [List.append_nil]
  | step _ hmove ih =>
    rw [← List.append_assoc]
    exact step (ih start) hmove

/-- The same where seeds do not matter. -/
theorem Moves.keeps {I : Session → Prop}
    (step : ∀ {given s s'}, I s → Move allowed given s s' → I s') {given : List Symbol}
    {s s' : Session} (h : Moves allowed given s s') (start : I s) : I s' := by
  induction h with
  | refl => exact start
  | step _ hmove ih => exact step (ih start) hmove

end Session

end Provenance
