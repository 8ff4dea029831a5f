import Provenance.Wire.Reader

/-!
Integers of variable length: groups of seven bits, the lowest first, one group a byte,
with the top bit set on every byte but the last. A signed integer is written in two's
complement, and bit six of its last group is its sign. Written integers are as short as
possible; a reader also accepts longer forms of at most ten bytes.
-/
namespace Provenance.Wire

def unsigned (n : Nat) : List UInt8 :=
  if n < 128 then [UInt8.ofNat n]
  else UInt8.ofNat (n % 128 + 128) :: unsigned (n / 128)

def signed (v : Int) : List UInt8 :=
  if -64 ≤ v ∧ v < 64 then [UInt8.ofNat (v % 128).toNat]
  else UInt8.ofNat ((v % 128).toNat + 128) :: signed (v / 128)
termination_by v.natAbs
decreasing_by omega

/-- The groups of one integer put together: their sum, the number of bits they span, and
bit six of the last one. -/
structure Groups where
  value : Nat
  width : Nat
  negative : Bool
deriving DecidableEq, Repr

/-- The tenth group holds the bits from 63 on and has to stay below `tenth`; there is no
eleventh. An integer that breaks this overflows at `start`, after the offending byte. -/
def groupsFrom (tenth start : Nat) :
    (width value position : Nat) → List UInt8 → EStateM.Result DecodeError Cursor Groups
  | _, _, position, [] => .error (.truncated position) ⟨[], position⟩
  | width, value, position, b :: rest =>
    let group := b.toNat % 128
    if 63 < width ∨ (width = 63 ∧ tenth ≤ group) then
      .error (.integerOverflow start) ⟨rest, position + 1⟩
    else
      let value := value + group <<< width
      if b.toNat < 128 then .ok ⟨value, width + 7, 64 ≤ group⟩ ⟨rest, position + 1⟩
      else groupsFrom tenth start (width + 7) value (position + 1) rest

def readGroups (tenth : Nat) : Reader Groups := fun c =>
  groupsFrom tenth c.position 0 0 c.position c.rest

/-- An integer below 2^64. -/
def readUnsigned : Reader Nat := return (← readGroups 2).value

def Groups.signed (g : Groups) : Int :=
  if g.negative then (g.value : Int) - (1 <<< g.width : Nat) else g.value

/-- A signed integer of 64 bits; bits above them are dropped. -/
def readSigned : Reader Int := return (← readGroups 128).signed.bmod UInt64.size

end Provenance.Wire
