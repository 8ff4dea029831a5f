import Provenance.Record.Fields
import Provenance.Utf8
import Provenance.Wire.Leb128

/-!
The persisted form of the fields of a record. Each shape has one form, and the form says
where it ends, so fields are written one after the other with nothing between them.
Errors in a field point at its first byte.
-/
namespace Provenance.Wire

def text (s : String) : List UInt8 := unsigned (utf8 s).length ++ utf8 s

def field : (s : Shape) → s.Value SymbolId SymbolId → List UInt8
  | .type, id => word16 id.raw
  | .procedure, id => word16 id.raw
  | .text, s => text s
  | .digest, d => d.bytes
  | .index, n => unsigned n.toNat
  | .offset, n => signed n.toInt
  | .flag, b => [if b then 1 else 0]

def fields : (fs : List FieldSpec) → Values SymbolId SymbolId fs → List UInt8
  | [], _ => []
  | f :: fs, (v, vs) => field f.shape v ++ fields fs vs

def readSymbolId : Reader SymbolId := do
  let start ← position
  match SymbolId.ofRaw? (← readWord16) with
  | some id => return id
  | none => throw (.zeroSymbolId start)

def readIndex : Reader UInt32 := do
  let start ← position
  let n ← readUnsigned
  if n < UInt32.size then return UInt32.ofNat n else throw (.integerOverflow start)

def readOffset : Reader Int32 := do
  let start ← position
  let v ← readSigned
  if Int32.minValue.toInt ≤ v ∧ v ≤ Int32.maxValue.toInt then return Int32.ofInt v
  else throw (.integerOverflow start)

def readFlag : Reader Bool := do
  let start ← position
  let b ← readByte
  if b = 0 then return false
  else if b = 1 then return true
  else throw (.invalidBool start b)

def readText : Reader String := do
  let start ← position
  let length ← readUnsigned
  let bytes ← readBytes length
  match String.fromUTF8? ⟨bytes.toArray⟩ with
  | some s => return s
  | none => throw (.invalidUtf8 start)

def readDigest : Reader Digest := fun c =>
  match h : readBytes 32 c with
  | .ok bytes c' => .ok ⟨bytes, length_of_readBytes h⟩ c'
  | .error e c' => .error e c'

def readField : (s : Shape) → Reader (s.Value SymbolId SymbolId)
  | .type => readSymbolId
  | .procedure => readSymbolId
  | .text => readText
  | .digest => readDigest
  | .index => readIndex
  | .offset => readOffset
  | .flag => readFlag

def readFields : (fs : List FieldSpec) → Reader (Values SymbolId SymbolId fs)
  | [] => return ()
  | f :: fs => do
    let v ← readField f.shape
    return (v, ← readFields fs)

/-- A record is its tag followed by its fields. -/
def record (r : SealedRecord) : List UInt8 := r.kind.tag :: fields _ r.values

def readRecord : Reader SealedRecord := do
  let start ← position
  let tag ← readByte
  match Kind.ofTag? tag with
  | none => throw (.unknownKind start tag)
  | some k => return Record.ofValues k (← readFields k.fields)

end Provenance.Wire
