import Provenance.Hex

/-!
Digests of 32 bytes. A digest identifies the shape of a type and seals an artifact.
What produces one is a parameter wherever it is not essential.
-/
namespace Provenance

structure Digest where
  bytes : List UInt8
  length_bytes : bytes.length = 32
deriving DecidableEq, Hashable, Repr

/-- A function that may stand for the digest of a byte string. -/
abbrev Hash := List UInt8 → Digest

namespace Digest

def ofBytes? (bytes : List UInt8) : Option Digest :=
  if h : bytes.length = 32 then some ⟨bytes, h⟩ else none

theorem ext_bytes {a b : Digest} (h : a.bytes = b.bytes) : a = b := by
  cases a; cases b; cases h; rfl

@[simp] theorem ofBytes?_bytes (d : Digest) : ofBytes? d.bytes = some d := by
  simp [ofBytes?, d.length_bytes]

/-- The first six bytes are enough to tell digests apart in a log. -/
def brief (d : Digest) : String :=
  String.join ((d.bytes.take 6).map Hex.lower) ++ "…"

end Digest

instance : ToString Digest := ⟨Digest.brief⟩

/-- Digests are ordered bytewise. -/
instance : Ord Digest := ⟨fun a b => compare a.bytes b.bytes⟩

instance : Std.TransOrd Digest where
  eq_swap := Std.OrientedOrd.eq_swap (α := List UInt8)
  isLE_trans := Std.TransOrd.isLE_trans (α := List UInt8)

instance : Std.LawfulEqOrd Digest where
  compare_self := Std.ReflOrd.compare_self (α := List UInt8)
  eq_of_compare h := Digest.ext_bytes (Std.LawfulEqOrd.eq_of_compare h)

end Provenance
