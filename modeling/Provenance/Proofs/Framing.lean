import Mathlib
import Provenance.Wire.Field

/-!
Framing: a reader that takes exactly the bytes of a value and leaves what follows, whatever
that is and wherever it stands. Readers that frame may be put one after the other, so every
written form has to be looked at only by itself.
-/
namespace Provenance.Wire

variable {α β : Type}

/-- The reader takes these bytes for this value, wherever they stand and whatever follows. -/
def Frames (reader : Reader α) (bytes : List UInt8) (a : α) : Prop :=
  ∀ rest position,
    reader ⟨bytes ++ rest, position⟩ = .ok a ⟨rest, position + bytes.length⟩

theorem Frames.pure (a : α) : Frames (pure a) [] a := fun _ _ => rfl

/-- What follows a value once it is read, wherever it stood. -/
theorem Frames.bind_eq {reader : Reader α} {next : α → Reader β} {bytes : List UInt8} {a : α}
    (h : Frames reader bytes a) (rest : List UInt8) (position : Nat) :
    (reader >>= next) ⟨bytes ++ rest, position⟩ =
      next a ⟨rest, position + bytes.length⟩ := by
  show EStateM.bind reader next _ = _
  rw [EStateM.bind, h rest position]

theorem Frames.bind {reader : Reader α} {next : α → Reader β} {bytes bytes' : List UInt8}
    {a : α} {b : β} (h : Frames reader bytes a) (h' : Frames (next a) bytes' b) :
    Frames (reader >>= next) (bytes ++ bytes') b := by
  intro rest position
  rw [List.append_assoc, h.bind_eq, h', List.length_append, Nat.add_assoc]

/-- A reader that ends with what it has read takes no more bytes. -/
theorem Frames.ends {reader : Reader α} {next : α → Reader β} {bytes : List UInt8} {a : α}
    {b : β} (h : Frames reader bytes a) (h' : Frames (next a) [] b) :
    Frames (reader >>= next) bytes b := by
  have hbind := h.bind h'
  rwa [List.append_nil] at hbind

/-- Where a value starts matters for errors only. -/
theorem Frames.position {next : Nat → Reader β} {bytes : List UInt8} {b : β}
    (h : ∀ start, Frames (next start) bytes b) : Frames (position >>= next) bytes b := by
  intro rest start
  exact h start rest start

theorem frames_readByte (b : UInt8) : Frames readByte [b] b := fun _ _ => rfl

theorem frames_readBytes (bytes : List UInt8) : Frames (readBytes bytes.length) bytes bytes :=
  fun _ _ => readBytes_append

theorem ofLittleEndian_word16 (w : UInt16) : ofLittleEndian (word16 w) = w := by
  apply UInt16.toNat_inj.mp
  have hlt := w.toNat_lt
  have hor := Nat.two_pow_add_eq_or_of_lt (i := 8) (b := w.toNat % 256) (by omega) (w.toNat / 256)
  have hhigh : w.toNat / 256 % 256 * 256 % 65536 = 2 ^ 8 * (w.toNat / 256) := by omega
  simp only [ofLittleEndian, word16, List.foldr_cons, List.foldr_nil, UInt16.toNat_or,
    UInt16.toNat_shiftLeft, UInt16.toNat_shiftRight, UInt8.toNat_toUInt16, UInt16.toNat_toUInt8]
  simp only [UInt16.reduceToNat, Nat.shiftLeft_eq, Nat.shiftRight_eq_div_pow, Nat.zero_mul,
    Nat.or_zero, Nat.zero_mod]
  rw [hhigh, Nat.or_comm, ← hor]
  omega

theorem frames_readWord16 (w : UInt16) : Frames readWord16 (word16 w) w := by
  have h : Frames readWord16 (word16 w) (ofLittleEndian (word16 w)) :=
    (frames_readBytes (word16 w)).ends (Frames.pure _)
  rwa [ofLittleEndian_word16] at h

section Groups

variable {tenth start width value place : Nat} {b : UInt8} {rest : List UInt8}

theorem groupsFrom_last (hwidth : width ≤ 63) (hvalue : width = 63 → b.toNat < tenth)
    (hlast : b.toNat < 128) :
    groupsFrom tenth start width value place (b :: rest) =
      .ok ⟨value + b.toNat * 2 ^ width, width + 7, 64 ≤ b.toNat⟩ ⟨rest, place + 1⟩ := by
  have hmod : b.toNat % 128 = b.toNat := Nat.mod_eq_of_lt hlast
  rw [groupsFrom, hmod, if_neg (by omega), if_pos hlast, Nat.shiftLeft_eq]

theorem groupsFrom_more (hwidth : width < 63) (hmore : 128 ≤ b.toNat) :
    groupsFrom tenth start width value place (b :: rest) =
      groupsFrom tenth start (width + 7) (value + b.toNat % 128 * 2 ^ width) (place + 1) rest := by
  rw [groupsFrom, if_neg (by omega), if_neg (by omega), Nat.shiftLeft_eq]

/-- The lowest group of a number and the groups above it make up the number. -/
theorem add_groups (value n width : Nat) :
    value + n % 128 * 2 ^ width + n / 128 * 2 ^ (width + 7) = value + n * 2 ^ width := by
  have hsplit : n = n % 128 + n / 128 * 128 := by omega
  rw [Nat.pow_add]
  grind

/-- The groups of a number that has room in the bits that are left. -/
theorem groupsFrom_unsigned (n width value place bits : Nat) (hbits : width + bits = 64)
    (hpos : 0 < bits) (hn : n < 2 ^ bits) :
    ∃ width' negative, groupsFrom 2 start width value place (unsigned n ++ rest) =
      .ok ⟨value + n * 2 ^ width, width', negative⟩ ⟨rest, place + (unsigned n).length⟩ := by
  induction n using unsigned.induct generalizing width value place bits with
  | case1 n hsmall =>
    have hbyte : (UInt8.ofNat n).toNat = n := by
      rw [UInt8.toNat_ofNat']
      omega
    rw [unsigned, if_pos hsmall, List.singleton_append,
      groupsFrom_last (by omega) ?_ (by omega), hbyte]
    · exact ⟨_, _, rfl⟩
    · intro hwidth
      have hone : bits = 1 := by omega
      rw [hone] at hn
      omega
  | case2 n hlarge ih =>
    have hbyte : (UInt8.ofNat (n % 128 + 128)).toNat = n % 128 + 128 := by
      rw [UInt8.toNat_ofNat']
      omega
    obtain ⟨more, rfl⟩ : ∃ more, bits = more + 8 := by
      refine ⟨bits - 8, ?_⟩
      have hlt : 2 ^ 7 < 2 ^ bits := by omega
      have := (Nat.pow_lt_pow_iff_right (by decide)).mp hlt
      omega
    have hrest : n / 128 < 2 ^ (more + 1) := by
      rw [Nat.div_lt_iff_lt_mul (by decide)]
      calc
        n < 2 ^ (more + 1 + 7) := hn
        _ = 2 ^ (more + 1) * 128 := Nat.pow_add 2 (more + 1) 7
    obtain ⟨width', negative, heq⟩ := ih (width + 7) (value + n % 128 * 2 ^ width) (place + 1)
      (more + 1) (by omega) (by omega) hrest
    refine ⟨width', negative, ?_⟩
    rw [unsigned, if_neg hlarge, List.cons_append, groupsFrom_more (by omega) (by omega), hbyte,
      Nat.add_mod_right, Nat.mod_mod, heq, add_groups, List.length_cons]
    congr 2
    omega

theorem byte_of_group {v : Int} (offset : Nat) (hoffset : offset ≤ 128) :
    (UInt8.ofNat ((v % 128).toNat + offset)).toNat = (v % 128).toNat + offset := by
  rw [UInt8.toNat_ofNat']
  omega

/-- The groups of a signed number that has room in the bits that are left, its sign apart. -/
theorem groupsFrom_signed (v : Int) (width value place bits : Nat) (hbits : width + bits = 63)
    (lo : -2 ^ bits ≤ v) (hi : v < 2 ^ bits) :
    ∃ g, groupsFrom 128 start width value place (signed v ++ rest) =
        .ok g ⟨rest, place + (signed v).length⟩ ∧ g.signed = value + v * 2 ^ width := by
  induction v using signed.induct generalizing width value place bits with
  | case1 v hsmall =>
    have hbyte := byte_of_group (v := v) 0 (by omega)
    rw [Nat.add_zero] at hbyte
    rw [signed, if_pos hsmall, List.singleton_append,
      groupsFrom_last (by omega) (by omega) (by omega), hbyte]
    refine ⟨_, rfl, ?_⟩
    rw [Groups.signed, Nat.one_shiftLeft]
    by_cases hneg : 64 ≤ (v % 128).toNat
    · have hv : ((v % 128).toNat : Int) = v + 128 := by omega
      simp only [hneg, decide_true, if_true]
      push_cast
      rw [hv, Int.pow_add]
      grind
    · have hv : ((v % 128).toNat : Int) = v := by omega
      simp only [hneg, decide_false, Bool.false_eq_true, if_false]
      push_cast
      rw [hv]
  | case2 v hlarge ih =>
    have hbyte := byte_of_group (v := v) 128 (by omega)
    obtain ⟨more, rfl⟩ : ∃ more, bits = more + 7 := by
      refine ⟨bits - 7, ?_⟩
      by_cases hfew : bits < 7
      · have hpow : 2 ^ bits ≤ 2 ^ 6 := Nat.pow_le_pow_right (by decide) (by omega)
        have hcast : ((2 ^ bits : Nat) : Int) = 2 ^ bits := by push_cast; rfl
        omega
      · omega
    rw [Int.pow_add] at lo hi
    obtain ⟨g, heq, hsigned⟩ := ih (width + 7) (value + (v % 128).toNat * 2 ^ width) (place + 1)
      more (by omega) (by omega) (by omega)
    refine ⟨g, ?_, ?_⟩
    · rw [signed, if_neg hlarge, List.cons_append, groupsFrom_more (by omega) (by omega), hbyte,
        Nat.add_mod_right, Nat.mod_eq_of_lt (by omega), heq, List.length_cons]
      congr 2
      omega
    · have hsplit : v = v % 128 + v / 128 * 128 := by omega
      have hgroup : ((v % 128).toNat : Int) = v % 128 := by omega
      rw [hsigned]
      push_cast
      rw [hgroup, Int.pow_add]
      grind

end Groups

theorem frames_readUnsigned {n : Nat} (hn : n < 2 ^ 64) :
    Frames readUnsigned (unsigned n) n := by
  intro rest position
  obtain ⟨width, negative, heq⟩ : ∃ width negative,
      readGroups 2 ⟨unsigned n ++ rest, position⟩ =
        .ok ⟨0 + n * 2 ^ 0, width, negative⟩ ⟨rest, position + (unsigned n).length⟩ :=
    groupsFrom_unsigned n 0 0 position 64 (Nat.zero_add 64) (by decide) hn
  show EStateM.bind (readGroups 2) _ _ = _
  rw [EStateM.bind, heq]
  simp only [Nat.zero_add, Nat.pow_zero, Nat.mul_one]
  rfl

theorem frames_readSigned {v : Int} (lo : -2 ^ 63 ≤ v) (hi : v < 2 ^ 63) :
    Frames readSigned (signed v) v := by
  intro rest position
  obtain ⟨g, heq, hsigned⟩ : ∃ g, readGroups 128 ⟨signed v ++ rest, position⟩ =
      .ok g ⟨rest, position + (signed v).length⟩ ∧ g.signed = (0 : Nat) + v * 2 ^ 0 :=
    groupsFrom_signed v 0 0 position 63 (Nat.zero_add 63) lo hi
  have hv : g.signed.bmod UInt64.size = v := by
    have hg : g.signed = v := by omega
    rw [hg]
    exact Int.bmod_eq_of_le (by unfold UInt64.size; omega) (by unfold UInt64.size; omega)
  show EStateM.bind (readGroups 128) _ _ = _
  rw [EStateM.bind, heq]
  show EStateM.Result.ok (g.signed.bmod UInt64.size) _ = _
  rw [hv]

end Provenance.Wire
