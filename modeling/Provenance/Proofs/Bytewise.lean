import Mathlib
import Provenance.Utf8

/-!
Texts compare as their bytes do. UTF-8 keeps the order of code points: the bytes of two characters
differ before those of either end, and where they first differ the smaller character has the smaller
byte. So it makes no difference whether texts are ordered by code points or by bytes.
-/
namespace Provenance

/-- Where two byte strings first differ, which they do before either ends, the first has the smaller
byte. -/
inductive Below : List UInt8 → List UInt8 → Prop
  | head {a b : UInt8} {xs ys : List UInt8} (less : a < b) : Below (a :: xs) (b :: ys)
  | tail {a : UInt8} {xs ys : List UInt8} (below : Below xs ys) : Below (a :: xs) (a :: ys)

/-- What follows does not matter any more. -/
theorem Below.append_lt {xs ys : List UInt8} (h : Below xs ys) (more more' : List UInt8) :
    xs ++ more < ys ++ more' := by
  induction h with
  | head less => exact List.cons_lt_cons_iff.mpr (.inl less)
  | tail _ ih => exact List.cons_lt_cons_iff.mpr (.inr ⟨rfl, ih⟩)

namespace CodePoint

/-- The bytes of a code point that hold its lowest digits in base 64, the highest of them first. -/
def trailing : Nat → Nat → List UInt8
  | 0, _ => []
  | n + 1, v => UInt8.ofNat (v / 64 ^ n % 64 + 128) :: trailing n v

theorem below_of_head {x y : Nat} (less : x < y) (byte : y < 256) (xs ys : List UInt8) :
    Below (UInt8.ofNat x :: xs) (UInt8.ofNat y :: ys) := by
  refine .head (UInt8.lt_iff_toNat_lt.mpr ?_)
  rwa [UInt8.toNat_ofNat', UInt8.toNat_ofNat', Nat.mod_eq_of_lt (less.trans byte),
    Nat.mod_eq_of_lt byte]

theorem below_trailing {n v w : Nat} (less : v % 64 ^ n < w % 64 ^ n) :
    Below (trailing n v) (trailing n w) := by
  induction n with
  | zero =>
    rw [Nat.pow_zero, Nat.mod_one, Nat.mod_one] at less
    exact absurd less (Nat.lt_irrefl 0)
  | succ n ih =>
    rw [Nat.pow_succ, Nat.mod_mul, Nat.mod_mul] at less
    rcases Nat.lt_trichotomy (v / 64 ^ n % 64) (w / 64 ^ n % 64) with digit | digit | digit
    · exact below_of_head (by omega) (by omega) _ _
    · rw [digit] at less
      rw [trailing, trailing, digit]
      exact .tail (ih (Nat.lt_of_add_lt_add_right less))
    · -- A higher digit outweighs all below it.
      have higher := Nat.mul_le_mul_left (64 ^ n) (Nat.succ_le_of_lt digit)
      have lower : w % 64 ^ n < 64 ^ n := Nat.mod_lt w (Nat.pow_pos (by decide))
      rw [Nat.mul_succ] at higher
      omega

/-- Code points of one length are told apart by their digits. -/
theorem below_of_lead {lead n v w : Nat} (less : v < w) (byte : w / 64 ^ n + lead < 256) :
    Below (UInt8.ofNat (v / 64 ^ n + lead) :: trailing n v)
      (UInt8.ofNat (w / 64 ^ n + lead) :: trailing n w) := by
  rcases Nat.lt_or_eq_of_le (Nat.div_le_div_right (c := 64 ^ n) less.le) with digit | digit
  · exact below_of_head (Nat.add_lt_add_right digit lead) byte _ _
  · rw [digit]
    refine .tail (below_trailing ?_)
    have hv := Nat.div_add_mod v (64 ^ n)
    have hw := Nat.div_add_mod w (64 ^ n)
    rw [digit] at hv
    omega

/-- A character has one of four lengths, and the first byte tells which. -/
theorem utf8EncodeChar_cases (c : Char) :
    let v := c.val.toNat
    (v < 128 ∧ String.utf8EncodeChar c = UInt8.ofNat (v / 64 ^ 0 + 0) :: trailing 0 v) ∨
    (128 ≤ v ∧ v < 2048 ∧
      String.utf8EncodeChar c = UInt8.ofNat (v / 64 ^ 1 + 192) :: trailing 1 v) ∨
    (2048 ≤ v ∧ v < 65536 ∧
      String.utf8EncodeChar c = UInt8.ofNat (v / 64 ^ 2 + 224) :: trailing 2 v) ∨
    (65536 ≤ v ∧ v < 1114112 ∧
      String.utf8EncodeChar c = UInt8.ofNat (v / 64 ^ 3 + 240) :: trailing 3 v) := by
  have valid : c.val.toNat < 1114112 := by
    rcases c.valid with low | ⟨-, high⟩
    · exact low.trans (by decide)
    · exact high
  simp only [String.utf8EncodeChar, trailing]
  generalize c.val.toNat = v at valid
  rcases Nat.lt_or_ge v 128 with one | one
  · refine .inl ⟨one, ?_⟩
    rw [if_pos (by omega)]
    simp
  rcases Nat.lt_or_ge v 2048 with two | two
  · refine .inr (.inl ⟨one, two, ?_⟩)
    have lead : v / 64 % 32 = v / 64 := Nat.mod_eq_of_lt (by omega)
    rw [if_neg (by omega), if_pos (by omega), lead]
    simp
  rcases Nat.lt_or_ge v 65536 with three | three
  · refine .inr (.inr (.inl ⟨two, three, ?_⟩))
    have lead : v / 4096 % 16 = v / 4096 := Nat.mod_eq_of_lt (by omega)
    rw [if_neg (by omega), if_neg (by omega), if_pos (by omega), lead]
    simp
  · refine .inr (.inr (.inr ⟨three, valid, ?_⟩))
    have lead : v / 262144 % 8 = v / 262144 := Nat.mod_eq_of_lt (by omega)
    rw [if_neg (by omega), if_neg (by omega), if_neg (by omega), lead]
    simp

theorem below_utf8EncodeChar {c d : Char} (less : c < d) :
    Below (String.utf8EncodeChar c) (String.utf8EncodeChar d) := by
  have less : c.val.toNat < d.val.toNat := less
  -- Of one length the digits decide, otherwise the lead: a smaller character is never longer.
  rcases utf8EncodeChar_cases c with ⟨hc, ec⟩ | ⟨hc, hc', ec⟩ | ⟨hc, hc', ec⟩ | ⟨hc, hc', ec⟩ <;>
  rcases utf8EncodeChar_cases d with ⟨hd, ed⟩ | ⟨hd, hd', ed⟩ | ⟨hd, hd', ed⟩ | ⟨hd, hd', ed⟩ <;>
  rw [ec, ed] <;>
  first
  | exact below_of_lead less (by omega)
  | exact below_of_head (by omega) (by omega) _ _

end CodePoint

theorem flatMap_utf8EncodeChar_lt {cs ds : List Char} (less : cs < ds) :
    cs.flatMap String.utf8EncodeChar < ds.flatMap String.utf8EncodeChar := by
  induction less with
  | @nil d ds =>
    rw [List.flatMap_nil, List.flatMap_cons]
    obtain ⟨b, bytes, encoded⟩ := List.exists_cons_of_ne_nil (String.utf8EncodeChar_ne_nil (c := d))
    rw [encoded]
    exact List.nil_lt_cons _ _
  | cons _ ih => exact List.append_left_lt ih
  | rel less => exact (CodePoint.below_utf8EncodeChar less).append_lt _ _

theorem utf8_eq_flatMap (s : String) : utf8 s = s.toList.flatMap String.utf8EncodeChar := by
  rw [utf8, ← String.utf8Encode_toList, List.utf8Encode, List.data_toByteArray]

/-- Texts are ordered as their bytes are. -/
theorem utf8_lt_iff {s t : String} : utf8 s < utf8 t ↔ s < t := by
  have keeps {s t : String} (less : s < t) : utf8 s < utf8 t := by
    rw [utf8_eq_flatMap, utf8_eq_flatMap]
    exact flatMap_utf8EncodeChar_lt (String.lt_iff_toList_lt.mp less)
  refine ⟨fun less => ?_, keeps⟩
  rcases lt_trichotomy s t with before | rfl | after
  · exact before
  · exact absurd less (List.lt_irrefl _)
  · exact absurd less (List.lt_asymm (keeps after))

end Provenance
