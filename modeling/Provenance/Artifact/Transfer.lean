import Provenance.Artifact.Basic

/-!
Moving an artifact through a sink or a source that takes or gives a few bytes a call.
A sink is asked again with what it has not taken yet, until nothing is left or a call
fails; a source is asked until it gives nothing.
-/
namespace Provenance.Artifact

inductive TransferError where
  | decode (error : DecodeError)
  | io (detail : String)
deriving DecidableEq, Repr

def TransferError.message : TransferError → String
  | decode e => e.message
  | io detail => s!"I/O error: {detail}"

/-- How a sink answers: how many of the bytes it is offered a call takes at most, once `taken`
bytes are in, and whether it can be flushed. -/
structure Sink where
  accept : (taken : Nat) → Except String Nat
  flush : Except String Unit

/-- A sink that takes nothing of what it is offered will never take the rest. -/
def stalled : String := "failed to write whole buffer"

/-- Offers all of `bytes` and returns the bytes that the sink took. -/
def Sink.writeAll (sink : Sink) (taken : Nat) (bytes : List UInt8) :
    Except String Unit × List UInt8 :=
  if bytes = [] then (.ok (), [])
  else
    match sink.accept taken with
    | .error detail => (.error detail, [])
    | .ok 0 => (.error stalled, [])
    | .ok (n + 1) =>
      let (result, rest) := sink.writeAll (taken + (n + 1)) (bytes.drop (n + 1))
      (result, bytes.take (n + 1) ++ rest)
termination_by bytes.length
decreasing_by
  rename_i h
  have := List.length_pos_iff.mpr h
  simp only [List.length_drop]
  omega

/-- The outcome and the bytes in the sink afterwards. -/
def Sink.writeRecordsWith (hash : Hash) (sink : Sink) (records : List SealedRecord) :
    Except TransferError Unit × List UInt8 :=
  match sink.writeAll 0 (encodeWith hash records) with
  | (.error detail, taken) => (.error (.io detail), taken)
  | (.ok (), taken) =>
    match sink.flush with
    | .error detail => (.error (.io detail), taken)
    | .ok () => (.ok (), taken)

def Sink.writeRecords (sink : Sink) (records : List SealedRecord) :
    Except TransferError Unit × List UInt8 :=
  sink.writeRecordsWith Sha256.hash records

/-- The bytes of a source and how many of them a call gives at most, once `given` are out; a
call that gives none is the end. -/
structure Source where
  bytes : List UInt8
  give : (given : Nat) → Except String Nat

/-- Asks for all of `left`, the bytes of the source that are not out yet. -/
def Source.readAll (source : Source) (given : Nat) (left : List UInt8) :
    Except String (List UInt8) :=
  match source.give given with
  | .error detail => .error detail
  | .ok 0 => .ok []
  | .ok (n + 1) =>
    if left = [] then .ok []
    else do
      let rest ← source.readAll (given + (n + 1)) (left.drop (n + 1))
      return left.take (n + 1) ++ rest
termination_by left.length
decreasing_by
  rename_i h
  have := List.length_pos_iff.mpr h
  simp only [List.length_drop]
  omega

def Source.readRecordsWith (hash : Hash) (source : Source) :
    Except TransferError (List SealedRecord) :=
  match source.readAll 0 source.bytes with
  | .error detail => .error (.io detail)
  | .ok bytes =>
    match decodeWith hash bytes with
    | .error e => .error (.decode e)
    | .ok records => .ok records

def Source.readRecords (source : Source) : Except TransferError (List SealedRecord) :=
  source.readRecordsWith Sha256.hash

end Provenance.Artifact
