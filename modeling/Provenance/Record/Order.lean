import Provenance.Record.Fields

/-!
The order of records: the smaller tag first, then the first field in which two records
of one kind differ. Strings are compared by code point, offsets as signed numbers,
false before true and digests bytewise. The order is total and two records tie only
if they are equal, so a set under this order is a set of records.
-/
namespace Provenance

variable {T P : Type} [Ord T] [Ord P]

def Shape.compare : (s : Shape) → s.Value T P → s.Value T P → Ordering
  | .type, a, b => Ord.compare (α := T) a b
  | .procedure, a, b => Ord.compare (α := P) a b
  | .text, a, b => Ord.compare (α := String) a b
  | .digest, a, b => Ord.compare (α := Digest) a b
  | .index, a, b => Ord.compare (α := UInt32) a b
  | .offset, a, b => Ord.compare (α := Int32) a b
  | .flag, a, b => Ord.compare (α := Bool) a b

/-- The first field that differs decides. -/
def Values.compare : (fs : List FieldSpec) → Values T P fs → Values T P fs → Ordering
  | [], _, _ => .eq
  | f :: fs, (a, as), (b, bs) => (f.shape.compare a b).then (Values.compare fs as bs)

namespace Record

/-- The tag decides first; only equal kinds have fields to compare. -/
def compareFields (k : Kind) (a : Values T P k.fields) (l : Kind) (b : Values T P l.fields) :
    Ordering :=
  if h : k = l then Values.compare l.fields (h ▸ a) b else Ord.compare k.tag l.tag

instance : Ord (Record T P) := ⟨fun r s => compareFields r.kind r.values s.kind s.values⟩

def isLessThan (r s : Record T P) : Bool := (compare r s).isLT

/-- Two records are the same if neither comes before the other. -/
def isSame (r s : Record T P) : Bool := !r.isLessThan s && !s.isLessThan r

end Record

theorem Record.compareFields_self_kind (k : Kind) (a b : Values T P k.fields) :
    Record.compareFields k a k b = Values.compare k.fields a b := by
  simp [Record.compareFields]

section Laws

variable [Std.TransOrd T] [Std.TransOrd P]

theorem Shape.compare_swap (s : Shape) (a b : s.Value T P) :
    s.compare a b = (s.compare b a).swap := by
  cases s <;> exact Std.OrientedOrd.eq_swap

theorem Shape.compare_trans (s : Shape) {a b c : s.Value T P} :
    (s.compare a b).isLE → (s.compare b c).isLE → (s.compare a c).isLE := by
  cases s <;> exact Std.TransOrd.isLE_trans

instance (s : Shape) : Std.TransCmp (s.compare (T := T) (P := P)) where
  eq_swap := s.compare_swap _ _
  isLE_trans := s.compare_trans

theorem Values.compare_swap (fs : List FieldSpec) (a b : Values T P fs) :
    Values.compare fs a b = (Values.compare fs b a).swap := by
  induction fs with
  | nil => rfl
  | cons f fs ih =>
    simp only [Values.compare, Ordering.swap_then]
    rw [f.shape.compare_swap, ih]

theorem Values.compare_trans (fs : List FieldSpec) {a b c : Values T P fs}
    (hab : (Values.compare fs a b).isLE) (hbc : (Values.compare fs b c).isLE) :
    (Values.compare fs a c).isLE := by
  induction fs with
  | nil => rfl
  | cons f fs ih =>
    simp only [Values.compare, Ordering.isLE_then_iff_and] at hab hbc ⊢
    refine ⟨f.shape.compare_trans hab.1 hbc.1, ?_⟩
    rcases hab.2 with hlt | htail
    · exact .inl (Std.TransCmp.lt_of_lt_of_isLE hlt hbc.1)
    · rcases hbc.2 with hlt | htail'
      · exact .inl (Std.TransCmp.lt_of_isLE_of_lt hab.1 hlt)
      · exact .inr (ih htail htail')

theorem Record.compareFields_swap (k l : Kind) (a : Values T P k.fields) (b : Values T P l.fields) :
    Record.compareFields k a l b = (Record.compareFields l b k a).swap := by
  by_cases h : k = l
  · subst h
    simp only [Record.compareFields_self_kind, Values.compare_swap k.fields a b]
  · simp only [Record.compareFields, dif_neg h, dif_neg (Ne.symm h)]
    exact Std.OrientedOrd.eq_swap

theorem Kind.compare_tag_ne_eq {k l : Kind} (h : k ≠ l) : compare k.tag l.tag ≠ .eq :=
  fun he => h (Kind.tag_inj.mp (Std.LawfulEqOrd.eq_of_compare he))

theorem Record.compareFields_trans (k l m : Kind) {a : Values T P k.fields}
    {b : Values T P l.fields} {c : Values T P m.fields}
    (hab : (Record.compareFields k a l b).isLE) (hbc : (Record.compareFields l b m c).isLE) :
    (Record.compareFields k a m c).isLE := by
  by_cases hkl : k = l
  · subst hkl
    by_cases hkm : k = m
    · subst hkm
      simp only [Record.compareFields_self_kind] at *
      exact Values.compare_trans _ hab hbc
    · simpa only [Record.compareFields, dif_neg hkm] using hbc
  · by_cases hlm : l = m
    · subst hlm
      simpa only [Record.compareFields, dif_neg hkl] using hab
    · simp only [Record.compareFields, dif_neg hkl, dif_neg hlm] at hab hbc
      have hle : (compare k.tag m.tag).isLE := Std.TransOrd.isLE_trans hab hbc
      by_cases hkm : k = m
      · subst hkm
        have := Std.OrientedCmp.isLE_antisymm hab hbc
        exact absurd this (Kind.compare_tag_ne_eq hkl)
      · simpa only [Record.compareFields, dif_neg hkm] using hle

instance : Std.TransOrd (Record T P) where
  eq_swap := Record.compareFields_swap _ _ _ _
  isLE_trans := Record.compareFields_trans _ _ _

end Laws

section Equality

variable [Std.LawfulEqOrd T] [Std.LawfulEqOrd P]

theorem Shape.eq_of_compare (s : Shape) {a b : s.Value T P} (h : s.compare a b = .eq) : a = b := by
  cases s <;> exact Std.LawfulEqOrd.eq_of_compare h

theorem Values.eq_of_compare (fs : List FieldSpec) {a b : Values T P fs}
    (h : Values.compare fs a b = .eq) : a = b := by
  induction fs with
  | nil => rfl
  | cons f fs ih =>
    simp only [Values.compare, Ordering.then_eq_eq] at h
    exact Prod.ext (f.shape.eq_of_compare h.1) (ih h.2)

theorem Record.eq_of_compareFields {k l : Kind} {a : Values T P k.fields} {b : Values T P l.fields}
    (h : Record.compareFields k a l b = .eq) : Record.ofValues k a = Record.ofValues l b := by
  by_cases hkl : k = l
  · subst hkl
    rw [Record.compareFields_self_kind] at h
    rw [Values.eq_of_compare _ h]
  · simp only [Record.compareFields, dif_neg hkl] at h
    exact absurd h (Kind.compare_tag_ne_eq hkl)

instance [Std.TransOrd T] [Std.TransOrd P] : Std.LawfulEqOrd (Record T P) where
  compare_self := Std.ReflOrd.compare_self
  eq_of_compare {r s} h := by
    have := Record.eq_of_compareFields h
    rwa [Record.ofValues_values, Record.ofValues_values] at this

end Equality

end Provenance
