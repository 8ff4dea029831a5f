import Provenance.Wire.Error

/-!
Reading from the front of a byte string. A reader knows what is left and how far it
has come, and keeps its place when a read fails, so the place tells how much a failed
read consumed.
-/
namespace Provenance.Wire

structure Cursor where
  rest : List UInt8
  position : Nat
deriving DecidableEq, Repr

abbrev Reader := EStateM DecodeError Cursor

def Cursor.start (bytes : List UInt8) : Cursor := ⟨bytes, 0⟩

def Cursor.remaining (c : Cursor) : Nat := c.rest.length

def position : Reader Nat := return (← get).position

def readByte : Reader UInt8 := fun c =>
  match c.rest with
  | [] => .error (.truncated c.position) c
  | b :: rest => .ok b ⟨rest, c.position + 1⟩

/-- All `n` bytes or none; the error points at the end of the input. -/
def readBytes (n : Nat) : Reader (List UInt8) := fun c =>
  let taken := c.rest.take n
  if taken.length = n then .ok taken ⟨c.rest.drop n, c.position + n⟩
  else .error (.truncated (c.position + c.remaining)) c

theorem readBytes_append {taken rest : List UInt8} {start : Nat} :
    readBytes taken.length ⟨taken ++ rest, start⟩ = .ok taken ⟨rest, start + taken.length⟩ := by
  simp [readBytes]

theorem length_of_readBytes {n : Nat} {c c' : Cursor} {taken : List UInt8}
    (h : readBytes n c = .ok taken c') : taken.length = n := by
  by_cases hlen : (c.rest.take n).length = n
  · simp only [readBytes, if_pos hlen] at h
    cases h; exact hlen
  · simp only [readBytes, if_neg hlen] at h
    cases h

/-- A word of two bytes, low byte first. -/
def word16 (w : UInt16) : List UInt8 := [w.toUInt8, (w >>> 8).toUInt8]

/-- The word whose bytes are given, low byte first. -/
def ofLittleEndian (bytes : List UInt8) : UInt16 :=
  bytes.foldr (fun b w => b.toUInt16 ||| (w <<< 8)) 0

def readWord16 : Reader UInt16 := return ofLittleEndian (← readBytes 2)

end Provenance.Wire
