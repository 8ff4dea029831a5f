/-!
Symbol IDs: the small numbers that stand for symbols inside one session and in
a sealed record list. Zero is never an ID, so a raw word of zero can mean "no symbol".
-/
namespace Provenance

structure SymbolId where
  raw : UInt16
  raw_ne_zero : raw ≠ 0
deriving DecidableEq, Hashable, Repr

namespace SymbolId

def first : SymbolId := ⟨1, by decide⟩

def ofRaw? (raw : UInt16) : Option SymbolId :=
  if h : raw = 0 then none else some ⟨raw, h⟩

/-- The successor wraps to zero after the last ID, and zero is none. -/
def next? (id : SymbolId) : Option SymbolId := ofRaw? (id.raw + 1)

def toNat (id : SymbolId) : Nat := id.raw.toNat

/-- The raw word of an ID that may be missing. -/
def rawOrZero : Option SymbolId → UInt16
  | some id => id.raw
  | none => 0

theorem ext_raw {a b : SymbolId} (h : a.raw = b.raw) : a = b := by
  cases a; cases b; cases h; rfl

theorem toNat_pos (id : SymbolId) : 0 < id.toNat := by
  have h := id.raw_ne_zero
  rw [Ne, ← UInt16.toNat_inj] at h
  exact Nat.pos_of_ne_zero h

theorem toNat_lt (id : SymbolId) : id.toNat < 65536 := id.raw.toNat_lt

theorem toNat_inj {a b : SymbolId} : a.toNat = b.toNat ↔ a = b :=
  ⟨fun h => ext_raw (UInt16.toNat_inj.mp h), fun h => h ▸ rfl⟩

@[simp] theorem ofRaw?_raw (id : SymbolId) : ofRaw? id.raw = some id := by
  simp [ofRaw?, id.raw_ne_zero]

theorem ofRaw?_eq_some {raw : UInt16} {id : SymbolId} : ofRaw? raw = some id ↔ id.raw = raw := by
  constructor
  · intro h
    unfold ofRaw? at h
    split at h
    · cases h
    · cases h; rfl
  · rintro rfl; exact ofRaw?_raw id

theorem toNat_of_next? {id succ : SymbolId} (h : id.next? = some succ) :
    succ.toNat = id.toNat + 1 := by
  have hraw : succ.raw = id.raw + 1 := ofRaw?_eq_some.mp h
  have hpos := succ.toNat_pos
  have hlt := id.toNat_lt
  unfold toNat at *
  rw [hraw, UInt16.toNat_add] at *
  simp only [UInt16.reduceToNat] at *
  omega

theorem next?_eq_none {id : SymbolId} : id.next? = none ↔ id.toNat = 65535 := by
  have hlt := id.toNat_lt
  constructor
  · intro h
    unfold next? ofRaw? at h
    split at h
    case isFalse => cases h
    case isTrue hz =>
      have := congrArg UInt16.toNat hz
      rw [UInt16.toNat_add] at this
      simp only [UInt16.reduceToNat] at this
      unfold toNat at *
      omega
  · intro h
    have hz : id.raw + 1 = 0 := by
      apply UInt16.toNat_inj.mp
      rw [UInt16.toNat_add]
      unfold toNat at h
      simp [h]
    simp [next?, ofRaw?, hz]

end SymbolId

instance : ToString SymbolId := ⟨fun id => s!"#{id.raw.toNat}"⟩

instance : Ord SymbolId := ⟨fun a b => compare a.raw b.raw⟩

instance : Std.TransOrd SymbolId where
  eq_swap := Std.OrientedOrd.eq_swap (α := UInt16)
  isLE_trans := Std.TransOrd.isLE_trans (α := UInt16)

instance : Std.LawfulEqOrd SymbolId where
  compare_self := Std.ReflOrd.compare_self (α := UInt16)
  eq_of_compare h := SymbolId.ext_raw (Std.LawfulEqOrd.eq_of_compare h)

end Provenance
