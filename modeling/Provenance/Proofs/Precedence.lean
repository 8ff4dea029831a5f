import Provenance.Proofs.Bytewise
import Provenance.Record.Order

/-!
The order of records in its own terms. Of two records one comes first or they are equal, the
smaller tag comes first, and of two records of one kind the first field decides in which they
differ: symbols by their numbers, texts and digests byte by byte, indices and offsets as the numbers
they are, false before true. Handles and symbol IDs are ordered alike.
-/
namespace Provenance

variable {T P : Type}

/-- The value of one field. -/
def Values.get : {fs : List FieldSpec} → Values T P fs → (i : Fin fs.length) →
    (fs.get i).shape.Value T P
  | _ :: _, (v, _), ⟨0, _⟩ => v
  | _ :: _, (_, vs), ⟨i + 1, h⟩ => Values.get vs ⟨i, Nat.lt_of_succ_lt_succ h⟩

/-- One value of a field comes before another, symbols by the numbers they have. -/
def Shape.Before (typeNumber : T → Nat) (procedureNumber : P → Nat) :
    (s : Shape) → s.Value T P → s.Value T P → Prop
  | .type, a, b => typeNumber a < typeNumber b
  | .procedure, a, b => procedureNumber a < procedureNumber b
  | .text, a, b => utf8 a < utf8 b
  | .digest, a, b => a.bytes < b.bytes
  | .index, a, b => a.toNat < b.toNat
  | .offset, a, b => a.toInt < b.toInt
  | .flag, a, b => a = false ∧ b = true

section Fields

theorem compare_bytes_eq_lt {a b : List UInt8} : compare a b = .lt ↔ a < b := by
  induction a generalizing b with
  | nil => cases b <;> simp
  | cons x xs ih =>
    cases b with
    | nil => simp
    | cons y ys =>
      rw [List.compare_cons_cons, Ordering.then_eq_lt, ih, Std.compare_eq_lt, Std.compare_eq_iff_eq,
        List.cons_lt_cons_iff]

variable [Ord T] [Ord P] {typeNumber : T → Nat} {procedureNumber : P → Nat}
  (types : ∀ a b : T, Ord.compare a b = .lt ↔ typeNumber a < typeNumber b)
  (procedures : ∀ a b : P, Ord.compare a b = .lt ↔ procedureNumber a < procedureNumber b)

include types procedures

theorem Shape.compare_eq_lt (s : Shape) (a b : s.Value T P) :
    s.compare a b = .lt ↔ s.Before typeNumber procedureNumber a b := by
  cases s with
  | type => exact types a b
  | procedure => exact procedures a b
  | text => exact (compareOfLessAndEq_eq_lt (x := a) (y := b)).trans utf8_lt_iff.symm
  | digest => exact compare_bytes_eq_lt
  | index => exact (Std.compare_eq_lt (α := UInt32)).trans UInt32.lt_iff_toNat_lt
  | offset => exact (Std.compare_eq_lt (α := Int32)).trans Int32.lt_iff_toInt_lt
  | flag => exact (by decide : ∀ a b : Bool, Ord.compare a b = .lt ↔ a = false ∧ b = true) a b

/-- The first field that differs decides. -/
theorem Values.compare_eq_lt [Std.TransOrd T] [Std.TransOrd P] [Std.LawfulEqOrd T]
    [Std.LawfulEqOrd P] (fs : List FieldSpec) (a b : Values T P fs) :
    Values.compare fs a b = .lt ↔ ∃ i, (∀ j < i, a.get j = b.get j) ∧
      (fs.get i).shape.Before typeNumber procedureNumber (a.get i) (b.get i) := by
  induction fs with
  | nil => exact ⟨nofun, fun ⟨i, _⟩ => i.elim0⟩
  | cons f fs ih =>
    obtain ⟨x, xs⟩ := a
    obtain ⟨y, ys⟩ := b
    have same : f.shape.compare x y = .eq ↔ x = y :=
      ⟨f.shape.eq_of_compare, fun h => h ▸ Std.ReflCmp.compare_self⟩
    rw [Values.compare, Ordering.then_eq_lt, Shape.compare_eq_lt types procedures, same, ih]
    constructor
    · rintro (first | ⟨rfl, i, before, decides⟩)
      · exact ⟨⟨0, Nat.succ_pos _⟩, fun j hj => absurd hj (Nat.not_lt_zero _), first⟩
      · refine ⟨i.succ, fun j hj => ?_, decides⟩
        cases j using Fin.cases with
        | zero => rfl
        | succ j => exact before j (Fin.succ_lt_succ_iff.mp hj)
    · rintro ⟨i, before, decides⟩
      cases i using Fin.cases with
      | zero => exact .inl decides
      | succ i =>
        exact .inr ⟨before 0 (Fin.succ_pos i), i,
          fun j hj => before j.succ (Fin.succ_lt_succ_iff.mpr hj), decides⟩

end Fields

variable [Ord T] [Ord P]

/-- What the order of records is, where symbols have numbers. -/
structure Record.Ordered (typeNumber : T → Nat) (procedureNumber : P → Nat) : Prop where
  exactly_one (a b : Record T P) :
    (a.isLessThan b ∧ a ≠ b ∧ ¬ b.isLessThan a) ∨
    (¬ a.isLessThan b ∧ a = b ∧ ¬ b.isLessThan a) ∨
    (¬ a.isLessThan b ∧ a ≠ b ∧ b.isLessThan a)
  trans (a b c : Record T P) : a.isLessThan b → b.isLessThan c → a.isLessThan c
  same_iff (a b : Record T P) : a.isSame b ↔ a = b
  tag_decides (a b : Record T P) : a.kind.tag < b.kind.tag → a.isLessThan b
  field_decides (k : Kind) (a b : Values T P k.fields) :
    (Record.ofValues k a).isLessThan (Record.ofValues k b) ↔
      ∃ i, (∀ j < i, a.get j = b.get j) ∧
        (k.fields.get i).shape.Before typeNumber procedureNumber (a.get i) (b.get i)

namespace Record

theorem isLessThan_iff (a b : Record T P) : a.isLessThan b ↔ compare a b = .lt :=
  Ordering.isLT_iff_eq_lt

theorem compare_ofValues (k : Kind) (a b : Values T P k.fields) :
    compare (ofValues k a) (ofValues k b) = Values.compare k.fields a b := by
  cases k <;> rfl

theorem isLessThan_of_tag {a b : Record T P} (less : a.kind.tag < b.kind.tag) : a.isLessThan b := by
  have other : a.kind ≠ b.kind := fun same => by
    rw [same] at less
    exact absurd less (UInt8.lt_irrefl _)
  rw [isLessThan_iff]
  show compareFields _ _ _ _ = _
  rw [compareFields, dif_neg other]
  exact Std.compare_eq_lt.mpr less

variable [Std.TransOrd T] [Std.TransOrd P] [Std.LawfulEqOrd T] [Std.LawfulEqOrd P]

theorem ordered {typeNumber : T → Nat} {procedureNumber : P → Nat}
    (types : ∀ a b : T, compare a b = .lt ↔ typeNumber a < typeNumber b)
    (procedures : ∀ a b : P, compare a b = .lt ↔ procedureNumber a < procedureNumber b) :
    Ordered typeNumber procedureNumber where
  exactly_one a b := by
    have converse : compare b a = (compare a b).swap := Std.OrientedCmp.eq_swap
    have equal : compare a b = .eq ↔ a = b := Std.compare_eq_iff_eq
    simp only [isLessThan_iff, converse, ← equal, ne_eq]
    cases compare a b <;> decide
  trans a b c := by
    simp only [isLessThan_iff]
    exact Std.TransCmp.lt_trans
  same_iff a b := by
    have converse : compare b a = (compare a b).swap := Std.OrientedCmp.eq_swap
    rw [isSame, isLessThan, isLessThan, converse, ← Std.compare_eq_iff_eq (a := a)]
    cases compare a b <;> decide
  tag_decides _ _ := isLessThan_of_tag
  field_decides k a b := by
    rw [isLessThan_iff, compare_ofValues]
    exact Values.compare_eq_lt types procedures k.fields a b

/-- Records of handles and records of symbol IDs are strictly and totally ordered, no two that are
different are tied, and tags and then fields decide. Fields are types, then procedures, then all
else, in this order. -/
theorem records_are_strictly_ordered :
    Ordered TypeRef.index ProcRef.index ∧ Ordered SymbolId.toNat SymbolId.toNat ∧
    ∀ k : Kind, k.fields = k.fields.filter (·.shape = .type) ++
      k.fields.filter (·.shape = .procedure) ++
      k.fields.filter fun f => f.shape ≠ .type ∧ f.shape ≠ .procedure := by
  refine ⟨ordered (fun a b => ?_) fun a b => ?_, ordered (fun a b => ?_) fun a b => ?_, fun k => ?_⟩
  · exact Nat.compare_eq_lt
  · exact Nat.compare_eq_lt
  · exact (Std.compare_eq_lt (α := UInt16)).trans UInt16.lt_iff_toNat_lt
  · exact (Std.compare_eq_lt (α := UInt16)).trans UInt16.lt_iff_toNat_lt
  · cases k <;> rfl

end Record

end Provenance
