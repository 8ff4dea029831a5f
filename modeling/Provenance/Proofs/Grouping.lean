import Provenance.Proofs.Shortest

/-!
Which bytes are read as an integer, and what comes of all others. An integer ends with the first
byte that has its top bit clear. A reader looks at ten bytes at most and can end in four ways: it
comes to the last byte, it runs out of bytes, it finds the tenth group too high, or it meets an
eleventh byte. What is read of an unsigned integer is the sum of its groups if there are at most ten
and the sum has 64 bits, and nothing is read otherwise.
-/
namespace Provenance.Wire

/-- The number that groups of seven bits make up, the lowest first. Top bits do not count. -/
def groupSum (bytes : List UInt8) : Nat := Nat.ofDigits 128 (bytes.map fun b => b.toNat % 128)

/-- Where the first byte stands that has its top bit clear. -/
def lastGroup? (bytes : List UInt8) : Option Nat := bytes.findIdx? fun b => b.toNat < 128

/-- None of the bytes ends an integer. -/
def Unended (bytes : List UInt8) : Prop := ∀ b ∈ bytes, 128 ≤ b.toNat

/-- The tenth group is not below a bound. -/
def TenthReaches (bound : Nat) (bytes : List UInt8) : Prop :=
  ∃ b, bytes[9]? = some b ∧ bound ≤ b.toNat % 128

/-- The place some bytes on. -/
def Cursor.skip (c : Cursor) (n : Nat) : Cursor := ⟨c.rest.drop n, c.position + n⟩

theorem Cursor.skip_append (front rest : List UInt8) (place n : Nat) :
    Cursor.skip ⟨front ++ rest, place⟩ (front.length + n) =
      Cursor.skip ⟨rest, place + front.length⟩ n := by
  rw [Cursor.skip, Cursor.skip, List.drop_length_add_append, Nat.add_assoc]

section Sums

variable {b : UInt8} {bytes front rest : List UInt8} {k : Nat}

@[simp] theorem groupSum_nil : groupSum [] = 0 := rfl

theorem groupSum_cons (b : UInt8) (bytes : List UInt8) :
    groupSum (b :: bytes) = b.toNat % 128 + 128 * groupSum bytes := Nat.ofDigits_cons ..

theorem groupSum_concat (bytes : List UInt8) (b : UInt8) :
    groupSum (bytes ++ [b]) = groupSum bytes + 128 ^ bytes.length * (b.toNat % 128) := by
  simp only [groupSum, List.map_append, Nat.ofDigits_append, List.length_map, List.map_cons,
    List.map_nil, Nat.ofDigits_singleton]

theorem groupSum_lt (bytes : List UInt8) : groupSum bytes < 128 ^ bytes.length := by
  have digits : ∀ d ∈ bytes.map (fun b => b.toNat % 128), d < 128 := by
    intro d hd
    obtain ⟨b, -, rfl⟩ := List.mem_map.mp hd
    exact Nat.mod_lt _ (by decide)
  simpa [groupSum] using Nat.ofDigits_lt_base_pow_length (by decide) digits

/-- Bit six of the last group is the highest of the sum. -/
theorem sign_iff (front : List UInt8) (last : b.toNat < 128) :
    64 ≤ b.toNat ↔ 64 * 128 ^ front.length ≤ groupSum (front ++ [b]) := by
  have below := groupSum_lt front
  rw [groupSum_concat, Nat.mod_eq_of_lt last]
  constructor
  · intro negative
    rw [Nat.mul_comm]
    exact (Nat.mul_le_mul_left _ negative).trans (Nat.le_add_left _ _)
  · intro negative
    by_contra positive
    have := Nat.mul_le_mul_left (128 ^ front.length) (Nat.le_of_lt_succ (Nat.lt_of_not_le positive))
    omega

/-- The tenth group counts from bit 63 on. -/
theorem groupSum_take_ten (tenth : bytes[9]? = some b) :
    groupSum (bytes.take 10) = groupSum (bytes.take 9) + 2 ^ 63 * (b.toNat % 128) := by
  obtain ⟨long, hb⟩ := List.getElem?_eq_some_iff.mp tenth
  have nine : (bytes.take 9).length = 9 := by
    rw [List.length_take]
    omega
  rw [List.take_succ_eq_append_getElem long, hb, groupSum_concat, nine]
  rfl

theorem groupSum_take_lt (few : k ≤ 8) : groupSum (bytes.take (k + 1)) < 2 ^ 63 := by
  have short : (bytes.take (k + 1)).length ≤ 9 := by
    rw [List.length_take]
    omega
  calc
    groupSum (bytes.take (k + 1)) < 128 ^ (bytes.take (k + 1)).length := groupSum_lt _
    _ ≤ 128 ^ 9 := Nat.pow_le_pow_right (by decide) short
    _ = 2 ^ 63 := by decide

theorem lastGroup?_of_unended (unended : Unended front) :
    lastGroup? (front ++ rest) = (lastGroup? rest).map (· + front.length) := by
  have none : front.findIdx? (fun b => b.toNat < 128) = none :=
    List.findIdx?_eq_none_iff.mpr fun b hb => decide_eq_false (by have := unended b hb; omega)
  rw [lastGroup?, List.findIdx?_append, none]
  rfl

theorem lastGroup?_of_last (unended : Unended front) (last : b.toNat < 128) :
    lastGroup? (front ++ b :: rest) = some front.length := by
  rw [lastGroup?_of_unended unended, lastGroup?, List.findIdx?_cons, if_pos (decide_eq_true last)]
  simp

/-- Nothing ends among the bytes at the front. -/
theorem length_le_of_lastGroup? (unended : Unended front)
    (ends : lastGroup? (front ++ rest) = some k) : front.length ≤ k := by
  rw [lastGroup?_of_unended unended] at ends
  obtain ⟨i, -, rfl⟩ := Option.map_eq_some_iff.mp ends
  exact Nat.le_add_left _ _

theorem le_of_lastGroup? {n : Nat} (unended : Unended (bytes.take n)) (long : n ≤ bytes.length)
    (ends : lastGroup? bytes = some k) : n ≤ k := by
  rw [← List.take_append_drop n bytes] at ends
  have := length_le_of_lastGroup? unended ends
  rwa [List.length_take, Nat.min_eq_left long] at this

theorem lastGroup?_lt (ends : lastGroup? bytes = some k) : k < bytes.length :=
  (List.findIdx?_eq_some_iff_getElem.mp ends).1

theorem take_of_lastGroup? (ends : lastGroup? bytes = some k) :
    ∃ front b, bytes.take (k + 1) = front ++ [b] ∧ front.length = k ∧ bytes[k]? = some b ∧
      b.toNat < 128 := by
  obtain ⟨long, last, -⟩ := List.findIdx?_eq_some_iff_getElem.mp ends
  exact ⟨bytes.take k, bytes[k], List.take_succ_eq_append_getElem long,
    List.length_take_of_le long.le, List.getElem?_eq_getElem long, of_decide_eq_true last⟩

theorem not_ends_of_unended {n : Nat} (unended : Unended (bytes.take n))
    (long : n ≤ bytes.length) (few : k < n) : lastGroup? bytes ≠ some k := by
  intro ends
  exact absurd (le_of_lastGroup? unended long ends) (Nat.not_le_of_lt few)

theorem not_ends_of_starved (unended : Unended bytes) (k : Nat) : lastGroup? bytes ≠ some k := by
  intro ends
  refine not_ends_of_unended ?_ (Nat.le_refl _) (lastGroup?_lt ends) ends
  rwa [List.take_length]

/-- Within the first bytes an integer ends, or it is cut off, or it goes on. -/
theorem unended_split (n : Nat) (bytes : List UInt8) :
    (∃ front b rest, bytes = front ++ b :: rest ∧ Unended front ∧ front.length < n ∧
      b.toNat < 128) ∨
    (Unended bytes ∧ bytes.length ≤ n) ∨
    ∃ front b rest, bytes = front ++ b :: rest ∧ Unended front ∧ front.length = n := by
  induction bytes generalizing n with
  | nil => exact .inr (.inl ⟨List.forall_mem_nil _, Nat.zero_le n⟩)
  | cons b bytes ih =>
    cases n with
    | zero => exact .inr (.inr ⟨[], b, bytes, rfl, List.forall_mem_nil _, rfl⟩)
    | succ n =>
      by_cases last : b.toNat < 128
      · exact .inl ⟨[], b, bytes, rfl, List.forall_mem_nil _, Nat.succ_pos n, last⟩
      · have more : 128 ≤ b.toNat := Nat.le_of_not_lt last
        rcases ih n with ⟨front, b', rest, rfl, unended, short, last⟩ | ⟨unended, short⟩ |
          ⟨front, b', rest, rfl, unended, length⟩
        · exact .inl ⟨b :: front, b', rest, rfl, List.forall_mem_cons.mpr ⟨more, unended⟩,
            Nat.succ_lt_succ short, last⟩
        · exact .inr (.inl ⟨List.forall_mem_cons.mpr ⟨more, unended⟩, Nat.succ_le_succ short⟩)
        · exact .inr (.inr ⟨b :: front, b', rest, rfl, List.forall_mem_cons.mpr ⟨more, unended⟩,
            congrArg Nat.succ length⟩)

end Sums

section Groups

variable {tenth start width value place : Nat} {b : UInt8} {front rest bytes : List UInt8}

theorem groupsFrom_of_unended (unended : Unended front) (room : width + 7 * front.length ≤ 63) :
    groupsFrom tenth start width value place (front ++ rest) =
      groupsFrom tenth start (width + 7 * front.length) (value + groupSum front * 2 ^ width)
        (place + front.length) rest := by
  induction front generalizing width value place with
  | nil => simp
  | cons b front ih =>
    obtain ⟨more, unended⟩ := List.forall_mem_cons.mp unended
    rw [List.length_cons] at room ⊢
    have sum : value + b.toNat % 128 * 2 ^ width + groupSum front * 2 ^ (width + 7) =
        value + groupSum (b :: front) * 2 ^ width := by
      rw [groupSum_cons, Nat.pow_add]
      ring
    rw [List.cons_append, groupsFrom_more (by omega) more, ih unended (by omega), sum]
    congr 1 <;> omega

/-- Up to nine groups may be passed over before anything is decided. -/
theorem readGroups_of_unended (unended : Unended front) (few : front.length ≤ 9)
    (tenth place : Nat) (rest : List UInt8) :
    readGroups tenth ⟨front ++ rest, place⟩ =
      groupsFrom tenth place (7 * front.length) (groupSum front) (place + front.length) rest := by
  show groupsFrom tenth place 0 0 place (front ++ rest) = _
  rw [groupsFrom_of_unended unended (by omega), Nat.zero_add, Nat.zero_add, Nat.pow_zero,
    Nat.mul_one]

/-- What comes of reading the groups of an integer of which the tenth has to stay below a bound. -/
inductive Grouped (tenth : Nat) (c : Cursor) : EStateM.Result DecodeError Cursor Groups → Prop
  | ended {k : Nat} (few : k ≤ 9) (ends : lastGroup? c.rest = some k)
      (low : k = 9 → ¬ TenthReaches tenth c.rest) :
      Grouped tenth c (.ok ⟨groupSum (c.rest.take (k + 1)), 7 * (k + 1),
        64 * 128 ^ k ≤ groupSum (c.rest.take (k + 1))⟩ (c.skip (k + 1)))
  | starved (unended : Unended c.rest) (few : c.rest.length ≤ 10)
      (low : ¬ TenthReaches tenth c.rest) :
      Grouped tenth c (.error (.truncated (c.position + c.remaining)) (c.skip c.remaining))
  | high (unended : Unended (c.rest.take 9)) (high : TenthReaches tenth c.rest) :
      Grouped tenth c (.error (.integerOverflow c.position) (c.skip 10))
  | eleventh (unended : Unended (c.rest.take 10)) (long : 10 < c.rest.length)
      (low : ¬ TenthReaches tenth c.rest) :
      Grouped tenth c (.error (.integerOverflow c.position) (c.skip 11))

theorem tenthReaches_iff (bound : Nat) (nine : front.length = 9) (b : UInt8) (rest : List UInt8) :
    TenthReaches bound (front ++ b :: rest) ↔ bound ≤ b.toNat % 128 := by
  simp [TenthReaches, ← nine]

theorem not_tenthReaches (bound : Nat) (short : bytes.length ≤ 9) :
    ¬ TenthReaches bound bytes := by
  rintro ⟨b, hb, -⟩
  rw [List.getElem?_eq_none short] at hb
  cases hb

theorem readGroups_last (unended : Unended front) (few : front.length ≤ 9) (last : b.toNat < 128)
    (low : front.length = 9 → ¬ TenthReaches tenth (front ++ b :: rest)) :
    Grouped tenth ⟨front ++ b :: rest, place⟩ (readGroups tenth ⟨front ++ b :: rest, place⟩) := by
  have group : b.toNat % 128 = b.toNat := Nat.mod_eq_of_lt last
  have fits : 7 * front.length = 63 → b.toNat < tenth := by
    intro late
    have nine : front.length = 9 := by omega
    simpa [tenthReaches_iff tenth nine, group] using low nine
  have taken : (front ++ b :: rest).take (front.length + 1) = front ++ [b] := by
    rw [List.take_length_add_append]
    rfl
  have left : Cursor.skip ⟨front ++ b :: rest, place⟩ (front.length + 1) =
      ⟨rest, place + front.length + 1⟩ := Cursor.skip_append front (b :: rest) place 1
  have sum : groupSum (front ++ [b]) = groupSum front + b.toNat * 2 ^ (7 * front.length) := by
    rw [groupSum_concat, group, Nat.pow_mul, Nat.mul_comm b.toNat]
  have ended : Grouped tenth ⟨front ++ b :: rest, place⟩ _ :=
    .ended few (lastGroup?_of_last unended last) low
  simp only [taken, left, ← sign_iff front last, Nat.mul_add, Nat.mul_one] at ended
  rw [readGroups_of_unended unended few tenth place (b :: rest),
    groupsFrom_last (by omega) fits last, ← sum]
  exact ended

/-- After nine groups the tenth byte decides, or the one after it. -/
theorem readGroups_tenth (unended : Unended front) (nine : front.length = 9) :
    Grouped tenth ⟨front ++ b :: rest, place⟩ (readGroups tenth ⟨front ++ b :: rest, place⟩) := by
  have read := readGroups_of_unended unended nine.le tenth place (b :: rest)
  have skip := Cursor.skip_append front (b :: rest) place
  have reaches := tenthReaches_iff tenth nine b rest
  rw [nine] at read skip
  by_cases high : tenth ≤ b.toNat % 128
  · have nines : (front ++ b :: rest).take 9 = front := by rw [← nine, List.take_left]
    rw [read, groupsFrom, if_pos (.inr ⟨rfl, high⟩)]
    have ten : Cursor.skip ⟨front ++ b :: rest, place⟩ 10 = ⟨rest, place + 9 + 1⟩ := skip 1
    rw [← ten]
    exact .high (by rwa [nines]) (reaches.mpr high)
  by_cases last : b.toNat < 128
  · exact readGroups_last unended nine.le last fun _ => by rwa [reaches]
  have more : Unended (front ++ [b]) :=
    List.forall_mem_append.mpr ⟨unended, List.forall_mem_singleton.mpr (Nat.le_of_not_lt last)⟩
  rw [read, groupsFrom, if_neg (by omega), if_neg last]
  cases rest with
  | nil =>
    have ten : Cursor.skip ⟨front ++ [b], place⟩ 10 = ⟨[], place + 9 + 1⟩ := skip 1
    have length : (front ++ [b]).length = 10 := by rw [List.length_append, nine]; rfl
    have starved : Grouped tenth ⟨front ++ [b], place⟩ _ :=
      .starved more length.le (by rwa [reaches])
    rw [Cursor.remaining, length, ten] at starved
    exact starved
  | cons b' rest =>
    have tens : (front ++ b :: b' :: rest).take (9 + 1) = front ++ [b] := by
      rw [← nine, List.take_length_add_append]
      rfl
    have eleven : Cursor.skip ⟨front ++ b :: b' :: rest, place⟩ 11 = ⟨rest, place + 9 + 1 + 1⟩ :=
      skip 2
    have long : 10 < (front ++ b :: b' :: rest).length := by
      rw [List.length_append, nine, List.length_cons, List.length_cons]
      omega
    rw [groupsFrom, if_pos (.inl (by decide)), ← eleven]
    exact .eleventh (tens ▸ more) long (by rwa [reaches])

/-- Reading groups comes to one of the four ends. -/
theorem readGroups_grouped (tenth : Nat) (c : Cursor) : Grouped tenth c (readGroups tenth c) := by
  obtain ⟨bytes, place⟩ := c
  rcases unended_split 9 bytes with ⟨front, b, rest, rfl, unended, short, last⟩ |
    ⟨unended, short⟩ | ⟨front, b, rest, rfl, unended, nine⟩
  · exact readGroups_last unended short.le last fun nine => absurd nine short.ne
  · have read := readGroups_of_unended unended short tenth place []
    have starved : Grouped tenth ⟨bytes, place⟩ _ :=
      .starved unended (Nat.le_succ_of_le short) (not_tenthReaches tenth short)
    rw [List.append_nil] at read
    rw [read, groupsFrom]
    simpa [Cursor.skip, Cursor.remaining] using starved
  · exact readGroups_tenth unended nine

end Groups

/-- The same end with something else made of what was read. -/
def mapRead {α β : Type} (f : α → β) :
    EStateM.Result DecodeError Cursor α → EStateM.Result DecodeError Cursor β
  | .ok a c => .ok (f a) c
  | .error e c => .error e c

@[simp] theorem mapRead_ok {α β : Type} (f : α → β) (a : α) (c : Cursor) :
    mapRead f (.ok a c) = .ok (f a) c := rfl

@[simp] theorem mapRead_error {α β : Type} (f : α → β) (e : DecodeError) (c : Cursor) :
    mapRead f (.error e c) = .error e c := rfl

theorem bind_pure_eq {α β : Type} (reader : Reader α) (f : α → β) (c : Cursor) :
    (do return f (← reader)) c = mapRead f (reader c) := by
  show EStateM.bind reader _ c = _
  rw [EStateM.bind]
  cases reader c <;> rfl

theorem readUnsigned_eq (c : Cursor) : readUnsigned c = mapRead Groups.value (readGroups 2 c) :=
  bind_pure_eq (readGroups 2) Groups.value c

/-- The place a reader comes to, whether it succeeds or fails. -/
def stop {α : Type} (reader : Reader α) (c : Cursor) : Cursor :=
  match reader c with
  | .ok _ c' | .error _ c' => c'

/-- An unsigned integer that can be read: it ends within ten bytes and has 64 bits. -/
def FitsUnsigned (bytes : List UInt8) : Prop :=
  ∃ k ≤ 9, lastGroup? bytes = some k ∧ groupSum (bytes.take (k + 1)) < 2 ^ 64

theorem fitsUnsigned_of_low {bytes : List UInt8} {k : Nat} (few : k ≤ 9)
    (ends : lastGroup? bytes = some k) (low : k = 9 → ¬ TenthReaches 2 bytes) :
    groupSum (bytes.take (k + 1)) < 2 ^ 64 := by
  rcases Nat.lt_or_ge k 9 with early | late
  · exact (groupSum_take_lt (Nat.le_of_lt_succ early)).trans (by decide)
  · obtain rfl : k = 9 := Nat.le_antisymm few late
    have long := lastGroup?_lt ends
    have tenth : bytes[9]? = some bytes[9] := List.getElem?_eq_getElem long
    have one : ¬ 2 ≤ bytes[9].toNat % 128 := fun high => low rfl ⟨_, tenth, high⟩
    have nine : groupSum (bytes.take 9) < 2 ^ 63 := groupSum_take_lt (Nat.le_refl 8)
    rw [groupSum_take_ten tenth]
    omega

theorem not_fitsUnsigned_of_high {bytes : List UInt8} (unended : Unended (bytes.take 9))
    (high : TenthReaches 2 bytes) : ¬ FitsUnsigned bytes := by
  rintro ⟨k, few, ends, fits⟩
  obtain ⟨b, tenth, reaches⟩ := high
  have long := (List.getElem?_eq_some_iff.mp tenth).1
  obtain rfl : k = 9 := Nat.le_antisymm few (le_of_lastGroup? unended long.le ends)
  rw [groupSum_take_ten tenth] at fits
  omega

theorem unread {c c' stopped : Cursor} {e : DecodeError} {n : Nat}
    (unfit : ¬ FitsUnsigned c.rest) :
    EStateM.Result.error e stopped = .ok n c' ↔
      ∃ k ≤ 9, lastGroup? c.rest = some k ∧ n = groupSum (c.rest.take (k + 1)) ∧ n < 2 ^ 64 ∧
        c' = c.skip (k + 1) := by
  constructor
  · rintro ⟨⟩
  · rintro ⟨k, few, ends, rfl, fits, -⟩
    exact absurd ⟨k, few, ends, fits⟩ unfit

/-- An unsigned integer is read if it ends within ten bytes and has 64 bits, and then it is the sum
of its groups. Otherwise there are too few bytes if they end before the tenth group is too high and
before an eleventh byte, and the integer is too large in all other cases. The reader never passes
the end of the input. -/
theorem unsigned_is_read_iff_it_fits (c : Cursor) :
    (∀ n c', readUnsigned c = .ok n c' ↔
      ∃ k ≤ 9, lastGroup? c.rest = some k ∧ n = groupSum (c.rest.take (k + 1)) ∧ n < 2 ^ 64 ∧
        c' = c.skip (k + 1)) ∧
    (∀ e c', readUnsigned c = .error e c' ↔ ¬ FitsUnsigned c.rest ∧
      (¬ (TenthReaches 2 c.rest ∨ 10 < c.rest.length) ∧
          e = .truncated (c.position + c.remaining) ∧ c' = c.skip c.remaining ∨
        TenthReaches 2 c.rest ∧ e = .integerOverflow c.position ∧ c' = c.skip 10 ∨
        (¬ TenthReaches 2 c.rest ∧ 10 < c.rest.length) ∧
          e = .integerOverflow c.position ∧ c' = c.skip 11)) ∧
    ∃ n ≤ c.remaining, stop readUnsigned c = c.skip n := by
  rw [stop, readUnsigned_eq]
  have grouped := readGroups_grouped 2 c
  generalize readGroups 2 c = result at grouped
  cases grouped with
  | @ended k few ends low =>
    have fits := fitsUnsigned_of_low few ends low
    simp only [mapRead_ok]
    refine ⟨fun n c' => ⟨?_, ?_⟩, fun e c' => ⟨?_, ?_⟩, k + 1, lastGroup?_lt ends, rfl⟩
    · rintro ⟨⟩
      exact ⟨k, few, ends, rfl, fits, rfl⟩
    · rintro ⟨k', -, ends', rfl, -, rfl⟩
      rw [Option.some.inj (ends'.symm.trans ends)]
    · rintro ⟨⟩
    · rintro ⟨unfit, -⟩
      exact absurd ⟨k, few, ends, fits⟩ unfit
  | starved unended few low =>
    have unfit : ¬ FitsUnsigned c.rest := by
      rintro ⟨k, -, ends, -⟩
      exact not_ends_of_starved unended k ends
    refine ⟨fun n c' => unread unfit, fun e c' => ?_, c.remaining, Nat.le_refl _, rfl⟩
    simp [unfit, low, few, eq_comm]
  | high unended high =>
    have unfit := not_fitsUnsigned_of_high unended high
    have long : 9 < c.rest.length := by
      obtain ⟨b, tenth, -⟩ := high
      exact (List.getElem?_eq_some_iff.mp tenth).1
    refine ⟨fun n c' => unread unfit, fun e c' => ?_, 10, long, rfl⟩
    simp [unfit, high, eq_comm]
  | eleventh unended long low =>
    have unfit : ¬ FitsUnsigned c.rest := by
      rintro ⟨k, few, ends, -⟩
      exact not_ends_of_unended unended long.le (Nat.lt_succ_of_le few) ends
    refine ⟨fun n c' => unread unfit, fun e c' => ?_, 11, long, rfl⟩
    simp [unfit, low, long, eq_comm]

end Provenance.Wire
