/-!
Hexadecimal text of a byte: always two digits.
-/
namespace Provenance.Hex

def lower (b : UInt8) : String :=
  String.ofList [Nat.digitChar (b.toNat / 16), Nat.digitChar (b.toNat % 16)]

def upper (b : UInt8) : String := (lower b).toUpper

end Provenance.Hex
