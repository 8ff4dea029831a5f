import Provenance.Sha256
import Provenance.Wire.Field

/-!
The artifact a sealed record list is kept in: a magic word, the format version, the
number of records, the records, and a digest of everything before it. Nothing here
depends on which hash makes the digest, so it is a parameter.
-/
namespace Provenance.Artifact

open Wire

def magic : List UInt8 := [0x53, 0x56, 0x4d, 0x52]

def formatVersion : UInt16 := 1

def digestLength : Nat := 32

def payload (records : List SealedRecord) : List UInt8 :=
  magic ++ word16 formatVersion ++ unsigned records.length ++ records.flatMap record

/-- A payload under its digest. -/
def sealed (hash : Hash) (payload : List UInt8) : List UInt8 := payload ++ (hash payload).bytes

def encodeWith (hash : Hash) (records : List SealedRecord) : List UInt8 :=
  sealed hash (payload records)

def readMany : Nat → Reader (List SealedRecord)
  | 0 => return []
  | n + 1 => do
    let r ← readRecord
    return r :: (← readMany n)

/-- A payload has to end with its last record. -/
def readPayload : Reader (List SealedRecord) := do
  let _ ← readBytes magic.length
  let version ← readWord16
  if version ≠ formatVersion then throw (.unsupportedVersion version)
  let count ← readUnsigned
  let records ← readMany count
  if (← get).rest ≠ [] then throw (.trailingBytes (← position))
  return records

def parsePayload (payload : List UInt8) : Except DecodeError (List SealedRecord) :=
  match readPayload (Cursor.start payload) with
  | .ok records _ => .ok records
  | .error e _ => .error e

/-- The magic and the digest are looked at before any record. -/
def decodeWith (hash : Hash) (bytes : List UInt8) : Except DecodeError (List SealedRecord) :=
  let length := bytes.length
  if length < magic.length then .error (.truncated length)
  else if bytes.take magic.length ≠ magic then .error (.badMagic (bytes.take magic.length))
  else if length < digestLength then .error (.truncated length)
  else
    let body := bytes.take (length - digestLength)
    if (hash body).bytes ≠ bytes.drop (length - digestLength) then .error .checksumMismatch
    else parsePayload body

def encode (records : List SealedRecord) : List UInt8 := encodeWith Sha256.hash records

def decode (bytes : List UInt8) : Except DecodeError (List SealedRecord) :=
  decodeWith Sha256.hash bytes

end Provenance.Artifact
