import Provenance.Hex

/-!
What can be wrong with the bytes of an artifact, and the text that says so.
Offsets count from the first byte of the artifact.
-/
namespace Provenance

inductive DecodeError where
  | truncated (offset : Nat)
  | badMagic (found : List UInt8)
  | unsupportedVersion (version : UInt16)
  | unknownKind (offset : Nat) (tag : UInt8)
  | zeroSymbolId (offset : Nat)
  | invalidBool (offset : Nat) (value : UInt8)
  | integerOverflow (offset : Nat)
  | invalidUtf8 (offset : Nat)
  | checksumMismatch
  | trailingBytes (offset : Nat)
deriving DecidableEq, Repr

def DecodeError.message : DecodeError → String
  | truncated offset => s!"record list truncated at byte {offset}"
  | badMagic found =>
    let bytes := ", ".intercalate (found.map Hex.upper)
    s!"bad record list magic [{bytes}]"
  | unsupportedVersion version => s!"unsupported record list version {version.toNat}"
  | unknownKind offset tag => s!"unknown record kind tag {tag.toNat} at byte {offset}"
  | zeroSymbolId offset => s!"reserved symbol ID 0 used as an operand at byte {offset}"
  | invalidBool offset value => s!"invalid boolean 0x{Hex.upper value} at byte {offset}"
  | integerOverflow offset => s!"variable-length integer overflows at byte {offset}"
  | invalidUtf8 offset => s!"invalid UTF-8 string at byte {offset}"
  | checksumMismatch => "record list checksum mismatch"
  | trailingBytes offset => s!"unexpected bytes after the last record at byte {offset}"

end Provenance
