import Provenance.Proofs.Wrapping

/-!
Integers of 64 bits as machine words. A loop writes a word by masking its lowest group of seven bits
and shifting it out until what is left says nothing new. The word is put together again by setting
the bits of each group and, if it is signed, filling the bits above the last group with the sign.
Numbers of 64 bits are written and read just so: the loops end on every word, after ten bytes at
most, and reading gives the word back wherever its bytes stand.
-/
namespace Provenance.Wire

/-- A loop that writes a word a group a round: the byte of the lowest group, the word without that
group, and whether it is the last one. -/
structure WordLoop (Word : Type) where
  group : Word → UInt8
  left : Word → Word
  isLast : Word → Bool

namespace WordLoop

variable {Word : Type} {loop : WordLoop Word} {v : Word} {bytes : List UInt8}

/-- The loop comes to its end on a word, and has then written these bytes. -/
inductive Writes (loop : WordLoop Word) : Word → List UInt8 → Prop
  | last {v : Word} (done : loop.isLast v = true) : Writes loop v [loop.group v]
  | more {v : Word} {bytes : List UInt8} (undone : loop.isLast v = false)
      (rest : Writes loop (loop.left v) bytes) : Writes loop v ((loop.group v ||| 0x80) :: bytes)

/-- A form that begins with what a round writes, and goes on with the form of what the round leaves,
is what the loop writes. -/
theorem writes_iff {form : Word → List UInt8}
    (round : ∀ v, form v = if loop.isLast v then [loop.group v]
      else (loop.group v ||| 0x80) :: form (loop.left v)) :
    loop.Writes v bytes ↔ bytes = form v := by
  constructor
  · intro writes
    induction writes with
    | last done => rw [round, if_pos done]
    | more undone rest ih =>
      rw [round, undone, ih]
      rfl
  · -- The induction is on the bytes, for each round takes one of them.
    intro same
    induction bytes generalizing v with
    | nil =>
      rw [round] at same
      split at same <;> cases same
    | cons b bytes ih =>
      rw [round] at same
      cases done : loop.isLast v with
      | true =>
        rw [if_pos done] at same
        cases same
        exact .last done
      | false =>
        rw [done] at same
        obtain ⟨rfl, rest⟩ := List.cons.inj same
        exact .more done (ih rest)

end WordLoop

section Bits

variable {b : UInt8}

theorem toNat_group (b : UInt8) : (b &&& 0x7F).toNat = b.toNat % 128 := by
  rw [UInt8.toNat_and]
  exact Nat.and_two_pow_sub_one_eq_mod b.toNat 7

/-- Seven bits with the top bit set. -/
theorem ofNat_add_top (low : b.toNat < 128) : UInt8.ofNat (b.toNat + 128) = b ||| 0x80 := by
  have disjoint : 2 ^ 7 * 1 + b.toNat = 2 ^ 7 * 1 ||| b.toNat := Nat.two_pow_add_eq_or_of_lt low 1
  rw [← UInt8.toNat_inj, UInt8.toNat_ofNat', Nat.mod_eq_of_lt (by omega), UInt8.toNat_or,
    Nat.or_comm, Nat.add_comm]
  exact disjoint

theorem testBit_six (b : UInt8) : (b &&& 0x40 != 0) = b.toNat.testBit 6 := by
  have masked : (b &&& 0x40).toNat = (b.toNat.testBit 6).toNat * 2 ^ 6 := by
    rw [UInt8.toNat_and]
    exact Nat.and_two_pow b.toNat 6
  rw [Bool.eq_iff_iff, bne_iff_ne, ne_eq, ← UInt8.toNat_inj, masked]
  cases b.toNat.testBit 6 <;> simp

def lowGroup (word : UInt64) : UInt8 := (word &&& 0x7F).toUInt8

theorem toNat_lowGroup (word : UInt64) : (lowGroup word).toNat = word.toNat % 128 := by
  have masked : (word &&& 0x7F).toNat = word.toNat % 128 := by
    rw [UInt64.toNat_and]
    exact Nat.and_two_pow_sub_one_eq_mod word.toNat 7
  rw [lowGroup, UInt64.toNat_toUInt8, masked]
  omega

theorem lowGroup_lt (word : UInt64) : (lowGroup word).toNat < 128 := by
  rw [toNat_lowGroup]
  exact Nat.mod_lt _ (by decide)

theorem toInt_toInt64 (word : UInt64) : word.toInt64.toInt = (word.toNat : Int).bmod (2 ^ 64) :=
  BitVec.toInt_eq_toNat_bmod word.toBitVec

theorem toNat_lowGroup_toUInt64 (v : Int64) :
    (lowGroup v.toUInt64).toNat = (v.toInt % 128).toNat := by
  have congruent : v.toInt % 2 ^ 64 = v.toUInt64.toNat % 2 ^ 64 := by
    rw [show v.toInt = (v.toUInt64.toNat : Int).bmod (2 ^ 64) from toInt_toInt64 v.toUInt64]
    exact Int.bmod_emod
  rw [toNat_lowGroup]
  omega

end Bits

section Writing

theorem toNat_shiftRight_seven (v : UInt64) : (v >>> 7).toNat = v.toNat / 128 := by
  rw [UInt64.toNat_shiftRight, Nat.shiftRight_eq_div_pow]
  rfl

theorem toInt_shiftRight_seven (v : Int64) : (v >>> 7).toInt = v.toInt / 128 := by
  rw [← Int64.toInt_toBitVec, Int64.toBitVec_shiftRight, BitVec.toInt_sshiftRight',
    Int.shiftRight_eq_div_pow]
  rfl

def unsignedLoop : WordLoop UInt64 where
  group := lowGroup
  left v := v >>> 7
  isLast v := v >>> 7 == 0

/-- The shift copies the sign, so in the end only zeros or only ones are left. The last group has to
show which. -/
def signedLoop : WordLoop Int64 where
  group v := lowGroup v.toUInt64
  left v := v >>> 7
  isLast v :=
    let negative := lowGroup v.toUInt64 &&& 0x40 != 0
    (v >>> 7 == 0 && !negative) || (v >>> 7 == -1 && negative)

theorem unsignedLoop_isLast (v : UInt64) : unsignedLoop.isLast v = true ↔ v.toNat < 128 := by
  have left : v >>> 7 = 0 ↔ v.toNat / 128 = 0 := by
    rw [← UInt64.toNat_inj, toNat_shiftRight_seven]
    rfl
  rw [unsignedLoop, beq_iff_eq, left]
  omega

theorem signedLoop_isLast (v : Int64) :
    signedLoop.isLast v = true ↔ -64 ≤ v.toInt ∧ v.toInt < 64 := by
  have zeros : v >>> 7 = 0 ↔ v.toInt / 128 = 0 := by
    rw [← Int64.toInt_inj, toInt_shiftRight_seven]
    rfl
  have ones : v >>> 7 = -1 ↔ v.toInt / 128 = -1 := by
    rw [← Int64.toInt_inj, toInt_shiftRight_seven]
    rfl
  have negative : (lowGroup v.toUInt64 &&& 0x40 != 0) = decide (64 ≤ (v.toInt % 128).toNat) := by
    rw [testBit_six, toNat_lowGroup_toUInt64, Nat.testBit_eq_decide_div_mod_eq]
    exact decide_eq_decide.mpr (by omega)
  simp only [signedLoop, negative, Bool.or_eq_true, Bool.and_eq_true, beq_iff_eq,
    Bool.not_eq_true', decide_eq_true_eq, decide_eq_false_iff_not, zeros, ones]
  omega

theorem unsigned_round (v : UInt64) :
    unsigned v.toNat = if unsignedLoop.isLast v then [unsignedLoop.group v]
      else (unsignedLoop.group v ||| 0x80) :: unsigned (unsignedLoop.left v).toNat := by
  cases done : unsignedLoop.isLast v with
  | true =>
    have small := (unsignedLoop_isLast v).mp done
    have group : v.toNat = (lowGroup v).toNat := by
      rw [toNat_lowGroup, Nat.mod_eq_of_lt small]
    rw [unsigned, if_pos small, group, UInt8.ofNat_toNat]
    rfl
  | false =>
    have large : ¬ v.toNat < 128 := by
      rw [← unsignedLoop_isLast, done]
      decide
    rw [unsigned, if_neg large, ← toNat_lowGroup, ofNat_add_top (lowGroup_lt v),
      ← toNat_shiftRight_seven]
    rfl

theorem signed_round (v : Int64) :
    signed v.toInt = if signedLoop.isLast v then [signedLoop.group v]
      else (signedLoop.group v ||| 0x80) :: signed (signedLoop.left v).toInt := by
  have group := toNat_lowGroup_toUInt64 v
  cases done : signedLoop.isLast v with
  | true =>
    have small := (signedLoop_isLast v).mp done
    rw [signed, if_pos small, ← group, UInt8.ofNat_toNat]
    rfl
  | false =>
    have large : ¬ (-64 ≤ v.toInt ∧ v.toInt < 64) := by
      rw [← signedLoop_isLast, done]
      decide
    rw [signed, if_neg large, ← group, ofNat_add_top (lowGroup_lt v.toUInt64),
      ← toInt_shiftRight_seven]
    rfl

end Writing

section Joining

variable {shift : Nat} {word : UInt64} {bytes : List UInt8}

/-- The groups of the bytes are set in a word, the first of them from bit `shift` on. -/
def setGroups (shift : Nat) (word : UInt64) : List UInt8 → UInt64
  | [] => word
  | b :: bytes =>
    setGroups (shift + 7) (word ||| (b &&& 0x7F).toUInt64 <<< UInt64.ofNat shift) bytes

/-- The groups of the bytes in a word, with the sign of the last one above them. -/
def signExtended (bytes : List UInt8) : Int64 :=
  let word := setGroups 0 0 bytes
  let shift := 7 * bytes.length
  let negative := bytes.getLast?.any (· &&& 0x40 != 0)
  (if shift < 64 ∧ negative then word ||| (-1) <<< UInt64.ofNat shift else word).toInt64

/-- Bits set above all others are added; those that have no room are dropped. -/
theorem toNat_or_shiftLeft (room : shift < 64) (low : word.toNat < 2 ^ shift) (bits : UInt64) :
    (word ||| bits <<< UInt64.ofNat shift).toNat =
      word.toNat + bits.toNat * 2 ^ shift % 2 ^ 64 := by
  have amount : (UInt64.ofNat shift).toNat % 64 = shift := by
    rw [UInt64.toNat_ofNat']
    omega
  have size : 2 ^ 64 = 2 ^ shift * 2 ^ (64 - shift) := by
    rw [← Nat.pow_add]
    congr 1
    omega
  have kept : bits.toNat * 2 ^ shift % 2 ^ 64 =
      2 ^ shift * (bits.toNat % 2 ^ (64 - shift)) := by
    rw [size, Nat.mul_comm, Nat.mul_mod_mul_left]
  rw [UInt64.toNat_or, UInt64.toNat_shiftLeft, amount, Nat.shiftLeft_eq, kept, Nat.or_comm,
    ← Nat.two_pow_add_eq_or_of_lt low, Nat.add_comm]

/-- What the groups make up is added, and bits above the word are dropped. -/
theorem toNat_setGroups (low : word.toNat < 2 ^ shift) (few : shift + 7 * bytes.length ≤ 70) :
    (setGroups shift word bytes).toNat =
      (word.toNat + groupSum bytes * 2 ^ shift) % 2 ^ 64 := by
  induction bytes generalizing shift word with
  | nil =>
    rw [setGroups, groupSum_nil, Nat.zero_mul, Nat.add_zero, Nat.mod_eq_of_lt word.toNat_lt]
  | cons b bytes ih =>
    rw [List.length_cons] at few
    have set := toNat_or_shiftLeft (by omega) low (b &&& 0x7F).toUInt64
    rw [UInt8.toNat_toUInt64, toNat_group] at set
    -- What is set so far stays below the next group, whatever was dropped of this one.
    have below : (word ||| (b &&& 0x7F).toUInt64 <<< UInt64.ofNat shift).toNat <
        2 ^ (shift + 7) := by
      have group : b.toNat % 128 * 2 ^ shift ≤ 127 * 2 ^ shift :=
        Nat.mul_le_mul_right _ (by omega)
      have kept := Nat.mod_le (b.toNat % 128 * 2 ^ shift) (2 ^ 64)
      rw [set, Nat.pow_add]
      omega
    calc
      (setGroups shift word (b :: bytes)).toNat
      _ = (word.toNat + b.toNat % 128 * 2 ^ shift % 2 ^ 64 +
          groupSum bytes * 2 ^ (shift + 7)) % 2 ^ 64 := by
        rw [setGroups, ih below (by omega), set]
      _ = (word.toNat + b.toNat % 128 * 2 ^ shift + groupSum bytes * 2 ^ (shift + 7)) % 2 ^ 64 := by
        rw [Nat.add_right_comm, Nat.add_mod_mod, Nat.add_right_comm]
      _ = (word.toNat + groupSum (b :: bytes) * 2 ^ shift) % 2 ^ 64 := by
        rw [groupSum_cons, Nat.pow_add]
        congr 1
        ring

theorem toNat_setGroups_zero (few : bytes.length ≤ 10) :
    (setGroups 0 0 bytes).toNat = groupSum bytes % 2 ^ 64 := by
  have low : (0 : UInt64).toNat < 2 ^ 0 := by decide
  rw [toNat_setGroups low (by omega), UInt64.toNat_zero, Nat.zero_add, Nat.pow_zero, Nat.mul_one]

/-- With ones above its bits a word stands for a number below zero. -/
theorem toInt_or_ones (room : shift < 64) (low : word.toNat < 2 ^ shift) :
    (word ||| (-1) <<< UInt64.ofNat shift).toInt64.toInt =
      ((word.toNat : Int) - 2 ^ shift).bmod (2 ^ 64) := by
  have filled := toNat_or_shiftLeft room low (-1)
  rw [show (-1 : UInt64).toNat = 2 ^ 64 - 1 from rfl] at filled
  have taken : (word.toNat : Int) + (2 ^ 64 - 1 : Nat) * (2 ^ shift : Nat) =
      word.toNat - 2 ^ shift + (2 ^ 64 : Nat) * 2 ^ shift := by
    push_cast
    ring
  rw [toInt_toInt64, filled, Nat.cast_add, Int.natCast_emod, Nat.cast_mul, Int.add_emod_bmod, taken]
  exact Int.add_mul_bmod_self_left _ _ _

/-- Filling in the sign takes its place value away. The place of the sign of a tenth group is above
the word, and so is its value. -/
theorem toInt_signExtended (few : bytes.length ≤ 10) :
    (signExtended bytes).toInt = (signedSum bytes).bmod (2 ^ 64) := by
  have word := toNat_setGroups_zero few
  have unfilled : ((setGroups 0 0 bytes).toNat : Int).bmod (2 ^ 64) =
      (groupSum bytes : Int).bmod (2 ^ 64) := by
    rw [word, Int.natCast_emod]
    exact Int.emod_bmod _ _
  simp only [signExtended, signedSum, testBit_six]
  cases negative : bytes.getLast?.any fun b => b.toNat.testBit 6 with
  | false =>
    rw [if_neg (by simp), if_neg (by simp), toInt_toInt64, unfilled, Int.sub_zero]
  | true =>
    rw [if_pos rfl]
    by_cases room : 7 * bytes.length < 64
    · have sum : groupSum bytes < 2 ^ (7 * bytes.length) := by
        rw [Nat.pow_mul]
        exact groupSum_lt bytes
      rw [Nat.mod_eq_of_lt (sum.trans (Nat.pow_lt_pow_right (by decide) room))] at word
      have place : (2 : Int) ^ (7 * bytes.length) = 128 ^ bytes.length := by
        rw [pow_mul]
        rfl
      rw [if_pos ⟨room, rfl⟩, toInt_or_ones room (by rwa [word]), word, place]
    · have ten : bytes.length = 10 := by omega
      rw [if_neg fun h => room h.1, toInt_toInt64, unfilled, ten]
      exact (Int.sub_mul_bmod_self_left (groupSum bytes) (2 ^ 64) 64).symm

theorem length_take_le_ten {k : Nat} (few : k ≤ 9) (bytes : List UInt8) :
    (bytes.take (k + 1)).length ≤ 10 :=
  (List.length_take_le _ _).trans (Nat.succ_le_succ few)

/-- What is read as an unsigned integer is the word in which its groups are set. -/
theorem word_of_readUnsigned {c c' : Cursor} {n : Nat} (read : readUnsigned c = .ok n c') :
    ∃ k ≤ 9, n = (setGroups 0 0 (c.rest.take (k + 1))).toNat ∧ c' = c.skip (k + 1) := by
  rw [readUnsigned_eq] at read
  have grouped := readGroups_grouped 2 c
  generalize readGroups 2 c = result at grouped read
  cases grouped with
  | @ended k few ends low =>
    cases read
    have fits := fitsUnsigned_of_low few ends low
    refine ⟨k, few, ?_, rfl⟩
    rw [toNat_setGroups_zero (length_take_le_ten few _), Nat.mod_eq_of_lt fits]
  | starved | high | eleventh => cases read

/-- What is read as a signed integer is the word in which its groups are set below its sign. -/
theorem word_of_readSigned {c c' : Cursor} {v : Int} (read : readSigned c = .ok v c') :
    ∃ k ≤ 9, v = (signExtended (c.rest.take (k + 1))).toInt ∧ c' = c.skip (k + 1) := by
  obtain ⟨k, few, -, rfl, rfl⟩ := ((readSigned_iff c).1 v c').mp read
  exact ⟨k, few, (toInt_signExtended (length_take_le_ten few _)).symm, rfl⟩

end Joining

section RoundTrip

variable {bytes after : List UInt8}

/-- A value that is framed is read from the middle of an input, up to the byte behind it. -/
theorem Frames.amid {α : Type} {reader : Reader α} {a : α} (frames : Frames reader bytes a)
    (before after : List UInt8) :
    reader ((Cursor.start (before ++ bytes ++ after)).skip before.length) =
      .ok a ⟨after, (before ++ bytes).length⟩ := by
  have place : (Cursor.start (before ++ bytes ++ after)).skip before.length =
      ⟨bytes ++ after, before.length⟩ := by
    rw [Cursor.start, List.append_assoc]
    simp [Cursor.skip]
  rw [place, frames, List.length_append]

/-- How far a reader came tells which bytes it read. -/
theorem take_of_skip {place k : Nat}
    (stopped : ⟨after, place + bytes.length⟩ = Cursor.skip ⟨bytes ++ after, place⟩ (k + 1)) :
    (bytes ++ after).take (k + 1) = bytes := by
  have length : bytes.length = k + 1 := Nat.add_left_cancel (congrArg Cursor.position stopped)
  rw [← length, List.take_left]

theorem setGroups_unsigned (v : UInt64) : setGroups 0 0 (unsigned v.toNat) = v := by
  have read := frames_readUnsigned v.toNat_lt [] 0
  obtain ⟨k, -, word, stopped⟩ := word_of_readUnsigned read
  rw [take_of_skip stopped] at word
  exact (UInt64.toNat_inj.mp word).symm

theorem signExtended_signed (v : Int64) : signExtended (signed v.toInt) = v := by
  have read := frames_readSigned v.le_toInt v.toInt_lt [] 0
  obtain ⟨k, -, word, stopped⟩ := word_of_readSigned read
  rw [take_of_skip stopped] at word
  exact (Int64.toInt_inj.mp word).symm

theorem length_unsigned_word (v : UInt64) : (unsigned v.toNat).length ≤ 10 :=
  length_unsigned_le (v.toNat_lt.trans (by decide))

theorem length_signed_word (v : Int64) : (signed v.toInt).length ≤ 10 := by
  have lo := v.le_toInt
  have hi := v.toInt_lt
  exact length_signed_le (by omega) (by omega)

/-- The loops that write words of 64 bits end on every word and write at most ten bytes. Put
together again these are the word, and wherever they stand in an input, the word is read from there
and the next byte to be read is the one behind them. -/
theorem words_are_read_back (before after : List UInt8) :
    (∀ v : UInt64,
      (∀ bytes, unsignedLoop.Writes v bytes ↔ bytes = unsigned v.toNat) ∧
      (unsigned v.toNat).length ≤ 10 ∧ setGroups 0 0 (unsigned v.toNat) = v ∧
      readUnsigned ((Cursor.start (before ++ unsigned v.toNat ++ after)).skip before.length) =
        .ok v.toNat ⟨after, (before ++ unsigned v.toNat).length⟩) ∧
    ∀ v : Int64,
      (∀ bytes, signedLoop.Writes v bytes ↔ bytes = signed v.toInt) ∧
      (signed v.toInt).length ≤ 10 ∧ signExtended (signed v.toInt) = v ∧
      readSigned ((Cursor.start (before ++ signed v.toInt ++ after)).skip before.length) =
        .ok v.toInt ⟨after, (before ++ signed v.toInt).length⟩ := by
  constructor
  · intro v
    exact ⟨fun bytes => WordLoop.writes_iff unsigned_round, length_unsigned_word v,
      setGroups_unsigned v, (frames_readUnsigned v.toNat_lt).amid before after⟩
  · intro v
    exact ⟨fun bytes => WordLoop.writes_iff signed_round, length_signed_word v,
      signExtended_signed v, (frames_readSigned v.le_toInt v.toInt_lt).amid before after⟩

/-- The largest word and the least take all ten bytes. -/
example : unsigned (2 ^ 64 - 1) = List.replicate 9 0xFF ++ [0x01] ∧
    signed (-2 ^ 63) = List.replicate 9 0x80 ++ [0x7F] := by decide +kernel

end RoundTrip

end Provenance.Wire
