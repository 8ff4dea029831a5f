import Provenance.Proofs.Grouping

/-!
What is read as a signed integer. As with unsigned ones the integer has to end within ten bytes, but
nothing else is asked: of the tenth group all bits above the lowest are dropped. So an integer that
has 64 bits is read as it is, and one that has more is not refused but read modulo 2^64. Only ten
bytes have room for such an integer, and only if the last of them does not just repeat the sign.
-/
namespace Provenance.Wire

/-- The number that groups of seven bits make up in two's complement, the lowest first. Bit six of
the last one is the sign. -/
def signedSum (bytes : List UInt8) : Int :=
  groupSum bytes - if bytes.getLast?.any (·.toNat.testBit 6) then 128 ^ bytes.length else 0

/-- A number that has 64 bits with its sign. -/
def FitsSigned (v : Int) : Prop := -2 ^ 63 ≤ v ∧ v < 2 ^ 63

theorem bmod_eq_self_iff (v : Int) : v.bmod (2 ^ 64) = v ↔ FitsSigned v := by
  rw [Int.bmod_eq_iff (by decide), FitsSigned, Int.sub_self]
  simp only [Int.dvd_zero, and_true]
  norm_num

section Sums

variable {bytes : List UInt8} {k : Nat}

theorem signedSum_concat (front : List UInt8) {b : UInt8} (last : b.toNat < 128) :
    signedSum (front ++ [b]) =
      groupSum (front ++ [b]) - if 64 ≤ b.toNat then 128 ^ (front.length + 1) else 0 := by
  have bit : b.toNat.testBit 6 = decide (64 ≤ b.toNat) := by
    rw [Nat.testBit_eq_decide_div_mod_eq]
    exact decide_eq_decide.mpr (by omega)
  rw [signedSum, List.getLast?_concat, Option.any_some, bit, List.length_append]
  simp

theorem signed_groups_eq (ends : lastGroup? bytes = some k) :
    Groups.signed ⟨groupSum (bytes.take (k + 1)), 7 * (k + 1),
      64 * 128 ^ k ≤ groupSum (bytes.take (k + 1))⟩ = signedSum (bytes.take (k + 1)) := by
  obtain ⟨front, b, taken, rfl, -, last⟩ := take_of_lastGroup? ends
  rw [taken, signedSum_concat front last, Groups.signed, Nat.one_shiftLeft, Nat.pow_mul]
  simp only [← sign_iff front last, decide_eq_true_eq]
  split
  · push_cast
    rfl
  · rw [Int.sub_zero]

/-- An integer that does not have 64 bits has ten bytes, and the last of them does not just repeat
the sign. -/
theorem fitsSigned_signedSum_iff (few : k ≤ 9) (ends : lastGroup? bytes = some k) :
    FitsSigned (signedSum (bytes.take (k + 1))) ↔
      (k = 9 → bytes[9]? = some 0 ∨ bytes[9]? = some 127) := by
  obtain ⟨front, b, taken, length, tenth, last⟩ := take_of_lastGroup? ends
  rcases Nat.lt_or_ge k 9 with early | late
  · have sum : groupSum (bytes.take (k + 1)) < 128 ^ (k + 1) := by
      rw [taken, ← length, ← List.length_concat, List.concat_eq_append]
      exact groupSum_lt _
    obtain ⟨lo, hi⟩ := signed_groups sum
    rw [signed_groups_eq ends] at lo hi
    have room : (128 : Int) ^ k ≤ 128 ^ 8 :=
      pow_le_pow_right₀ (by decide) (Nat.le_of_lt_succ early)
    have fits : FitsSigned (signedSum (bytes.take (k + 1))) := ⟨by omega, by omega⟩
    exact ⟨fun _ nine => absurd nine early.ne, fun _ => fits⟩
  · obtain rfl : k = 9 := Nat.le_antisymm few late
    have below := groupSum_lt front
    have byte (n : UInt8) : bytes[9]? = some n ↔ b.toNat = n.toNat := by
      rw [tenth, Option.some_inj, UInt8.toNat_inj]
    rw [taken, signedSum_concat front last, groupSum_concat, Nat.mod_eq_of_lt last, byte, byte,
      FitsSigned]
    rw [length] at below ⊢
    simp only [UInt8.reduceToNat, eq_self, true_imp_iff]
    push_cast
    split <;> omega

end Sums

theorem readSigned_eq (c : Cursor) :
    readSigned c = mapRead (fun g => g.signed.bmod (2 ^ 64)) (readGroups 128 c) := by
  rw [readSigned, bind_pure_eq]
  rfl

/-- No group is too high for a signed integer. -/
theorem not_tenthReaches_group (bytes : List UInt8) : ¬ TenthReaches 128 bytes := by
  rintro ⟨b, -, reaches⟩
  exact absurd reaches (Nat.not_le_of_lt (Nat.mod_lt _ (by decide)))

/-- A signed integer is read if it ends within ten bytes, but only its lowest 64 bits are. -/
theorem readSigned_iff (c : Cursor) :
    (∀ v c', readSigned c = .ok v c' ↔
      ∃ k ≤ 9, lastGroup? c.rest = some k ∧ v = (signedSum (c.rest.take (k + 1))).bmod (2 ^ 64) ∧
        c' = c.skip (k + 1)) ∧
    (∀ e c', readSigned c = .error e c' ↔ (∀ k ≤ 9, lastGroup? c.rest ≠ some k) ∧
      (c.rest.length ≤ 10 ∧ e = .truncated (c.position + c.remaining) ∧ c' = c.skip c.remaining ∨
        10 < c.rest.length ∧ e = .integerOverflow c.position ∧ c' = c.skip 11)) := by
  rw [readSigned_eq]
  have grouped := readGroups_grouped 128 c
  generalize readGroups 128 c = result at grouped
  cases grouped with
  | @ended k few ends low =>
    simp only [mapRead_ok, signed_groups_eq ends]
    refine ⟨fun v c' => ⟨?_, ?_⟩, fun e c' => ⟨?_, ?_⟩⟩
    · rintro ⟨⟩
      exact ⟨k, few, ends, rfl, rfl⟩
    · rintro ⟨k', -, ends', rfl, rfl⟩
      rw [Option.some.inj (ends'.symm.trans ends)]
    · rintro ⟨⟩
    · rintro ⟨none, -⟩
      exact absurd ends (none k few)
  | starved unended few low =>
    have none : ∀ k, lastGroup? c.rest ≠ some k := not_ends_of_starved unended
    refine ⟨fun v c' => ?_, fun e c' => ?_⟩
    · simp [none]
    · simp [none, few, eq_comm]
  | high unended high => exact absurd high (not_tenthReaches_group c.rest)
  | eleventh unended long low =>
    have none : ∀ k ≤ 9, lastGroup? c.rest ≠ some k := fun k few =>
      not_ends_of_unended unended long.le (Nat.lt_succ_of_le few)
    refine ⟨fun v c' => ⟨?_, ?_⟩, fun e c' => ?_⟩
    · rintro ⟨⟩
    · rintro ⟨k, few, ends, -⟩
      exact absurd ends (none k few)
    · rw [and_iff_right none]
      simp [long, eq_comm]

theorem readOffset_eq (c : Cursor) : readOffset c =
    match readSigned c with
    | .ok v c' => if -2 ^ 31 ≤ v ∧ v < 2 ^ 31 then .ok (Int32.ofInt v) c'
      else .error (.integerOverflow c.position) c'
    | .error e c' => .error e c' := by
  have low : Int32.minValue.toInt = -2 ^ 31 := rfl
  have high (v : Int) : v ≤ Int32.maxValue.toInt ↔ v < 2 ^ 31 := Int.lt_add_one_iff.symm
  show EStateM.bind readSigned _ c = _
  rw [EStateM.bind]
  cases readSigned c with
  | error e c' => rfl
  | ok v c' =>
    simp only [low, high]
    split <;> rfl

/-- An offset is a signed integer that has 32 bits. -/
theorem readOffset_iff (c : Cursor) :
    (∀ w c', readOffset c = .ok w c' ↔ readSigned c = .ok w.toInt c') ∧
    (∀ e c', readOffset c = .error e c' ↔ readSigned c = .error e c' ∨
      ∃ v, readSigned c = .ok v c' ∧ ¬ (-2 ^ 31 ≤ v ∧ v < 2 ^ 31) ∧
        e = .integerOverflow c.position) := by
  rw [readOffset_eq]
  cases readSigned c with
  | error e c₁ => simp
  | ok v c₁ =>
    by_cases fits : -2 ^ 31 ≤ v ∧ v < 2 ^ 31
    · have back : (Int32.ofInt v).toInt = v := Int32.toInt_ofInt_of_le fits.1 fits.2
      have same (w : Int32) : Int32.ofInt v = w ↔ v = w.toInt := by
        rw [← Int32.toInt_inj, back]
      simp only [if_pos fits]
      refine ⟨fun w c' => by simp [same], fun e c' => ⟨?_, ?_⟩⟩
      · rintro ⟨⟩
      · rintro (⟨⟨⟩⟩ | ⟨_, ⟨⟩, unfit, -⟩)
        exact absurd fits unfit
    · have wide (w : Int32) : v ≠ w.toInt := by
        rintro rfl
        exact fits ⟨w.le_toInt, w.toInt_lt⟩
      simp only [if_neg fits]
      refine ⟨fun w c' => by simp [wide], fun e c' => ⟨?_, ?_⟩⟩
      · rintro ⟨⟩
        exact .inr ⟨v, rfl, fits, rfl⟩
      · rintro (⟨⟨⟩⟩ | ⟨_, ⟨⟩, -, rfl⟩)
        rfl

/-- Whatever ends within ten bytes is read as a signed integer, modulo 2^64. It is read as it is
just if it has 64 bits, and it has them unless there is a tenth byte that does not just repeat the
sign. All else is cut off or too long. The same holds of offsets, which are refused only if what was
read of them does not have 32 bits. -/
theorem signed_is_read_modulo_64_bits (c : Cursor) :
    (∀ v c', readSigned c = .ok v c' ↔
      ∃ k ≤ 9, lastGroup? c.rest = some k ∧ v = (signedSum (c.rest.take (k + 1))).bmod (2 ^ 64) ∧
        c' = c.skip (k + 1)) ∧
    (∀ k, lastGroup? c.rest = some k →
      (readSigned c = .ok (signedSum (c.rest.take (k + 1))) (c.skip (k + 1)) ↔
        k ≤ 9 ∧ FitsSigned (signedSum (c.rest.take (k + 1))))) ∧
    (∀ k ≤ 9, lastGroup? c.rest = some k → (FitsSigned (signedSum (c.rest.take (k + 1))) ↔
      (k = 9 → c.rest[9]? = some 0 ∨ c.rest[9]? = some 127))) ∧
    (∀ e c', readSigned c = .error e c' ↔ (∀ k ≤ 9, lastGroup? c.rest ≠ some k) ∧
      (c.rest.length ≤ 10 ∧ e = .truncated (c.position + c.remaining) ∧ c' = c.skip c.remaining ∨
        10 < c.rest.length ∧ e = .integerOverflow c.position ∧ c' = c.skip 11)) ∧
    (∀ w c', readOffset c = .ok w c' ↔
      ∃ k ≤ 9, lastGroup? c.rest = some k ∧
        w.toInt = (signedSum (c.rest.take (k + 1))).bmod (2 ^ 64) ∧ c' = c.skip (k + 1)) ∧
    (∀ e c', readOffset c = .error e c' ↔ readSigned c = .error e c' ∨
      ∃ v, readSigned c = .ok v c' ∧ ¬ (-2 ^ 31 ≤ v ∧ v < 2 ^ 31) ∧
        e = .integerOverflow c.position) := by
  obtain ⟨accepted, refused⟩ := readSigned_iff c
  obtain ⟨offset, offset_refused⟩ := readOffset_iff c
  refine ⟨accepted, fun k ends => ?_, fun k few ends => fitsSigned_signedSum_iff few ends, refused,
    fun w c' => (offset w c').trans (accepted w.toInt c'), offset_refused⟩
  rw [accepted, ← bmod_eq_self_iff]
  constructor
  · rintro ⟨k', few, ends', same, -⟩
    obtain rfl : k = k' := Option.some.inj (ends.symm.trans ends')
    exact ⟨few, same.symm⟩
  · rintro ⟨few, same⟩
    exact ⟨k, few, ends, same.symm, rfl⟩

/-- In the middle of an input: a negative number that is padded to ten bytes. -/
theorem signed_is_read_modulo_64_bits_of_padded :
    let c : Cursor := ⟨[133, 255, 255, 255, 255, 255, 255, 255, 255, 127, 7], 3⟩
    lastGroup? c.rest = some 9 ∧ FitsSigned (signedSum (c.rest.take 10)) ∧
      readSigned c = .ok (-123) ⟨[7], 13⟩ ∧ readOffset c = .ok (-123) ⟨[7], 13⟩ := by
  intro c
  obtain ⟨-, same, fits, -, offset, -⟩ := signed_is_read_modulo_64_bits c
  have ends : lastGroup? c.rest = some 9 := rfl
  have sum : signedSum (c.rest.take 10) = -123 := by decide +kernel
  have fit := (fits 9 (by decide) ends).mpr fun _ => .inr rfl
  have read := (same 9 ends).mpr ⟨by decide, fit⟩
  rw [sum] at read
  exact ⟨ends, fit, read, (offset _ _).mpr ⟨9, by decide, ends, by rw [sum]; rfl, rfl⟩⟩

/-- An integer of ten bytes that does not have 64 bits is not refused. It is read as zero, also as
an offset, while the same bytes are refused as an unsigned integer. -/
theorem signed_wraps_in_the_tenth_byte :
    let c : Cursor := ⟨[128, 128, 128, 128, 128, 128, 128, 128, 128, 2], 0⟩
    lastGroup? c.rest = some 9 ∧ signedSum (c.rest.take 10) = 2 ^ 64 ∧
      ¬ FitsSigned (signedSum (c.rest.take 10)) ∧
      readSigned c = .ok 0 ⟨[], 10⟩ ∧ readOffset c = .ok 0 ⟨[], 10⟩ ∧
      readUnsigned c = .error (.integerOverflow 0) ⟨[], 10⟩ := by
  intro c
  have sum : signedSum (c.rest.take 10) = 2 ^ 64 := by decide +kernel
  refine ⟨rfl, sum, ?_, rfl, rfl, rfl⟩
  rw [sum]
  exact fun fits => absurd fits.2 (by decide)

end Provenance.Wire
