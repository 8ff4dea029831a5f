import Provenance.Numbering
import Provenance.Model

/-!
A numbering in which IDs and symbols name each other, and one that has given out its IDs
in the order of a list. Binding an ID and issuing one keep the first; issuing keeps the
second and appends to the list.
-/
namespace Provenance

/-- The symbols known after one more, in the order in which they became known. -/
def learn {T P : Type} [DecidableEq T] [DecidableEq P] (known : List (Operand T P))
    (x : Operand T P) : List (Operand T P) :=
  if x ∈ known then known else known ++ [x]

theorem learn_of_mem {T P : Type} [DecidableEq T] [DecidableEq P] {known : List (Operand T P)}
    {x : Operand T P} (h : x ∈ known) : learn known x = known := if_pos h

theorem learn_of_not_mem {T P : Type} [DecidableEq T] [DecidableEq P]
    {known : List (Operand T P)} {x : Operand T P} (h : x ∉ known) :
    learn known x = known ++ [x] := if_neg h

theorem mem_learn {T P : Type} [DecidableEq T] [DecidableEq P] {known : List (Operand T P)}
    {x y : Operand T P} : y ∈ learn known x ↔ y ∈ known ∨ y = x := by
  by_cases h : x ∈ known
  · rw [learn_of_mem h]
    constructor
    · exact Or.inl
    · rintro (hy | rfl)
      · exact hy
      · exact h
  · rw [learn_of_not_mem h, List.mem_append, List.mem_singleton]

theorem prefix_learn {T P : Type} [DecidableEq T] [DecidableEq P] (known : List (Operand T P))
    (x : Operand T P) : known <+: learn known x := by
  by_cases h : x ∈ known
  · simp only [learn_of_mem h, List.prefix_refl]
  · rw [learn_of_not_mem h]
    exact List.prefix_append known [x]

theorem prefix_foldl_learn {T P : Type} [DecidableEq T] [DecidableEq P]
    (known : List (Operand T P)) (xs : List (Operand T P)) : known <+: xs.foldl learn known := by
  induction xs generalizing known with
  | nil => exact List.prefix_refl known
  | cons x xs ih => exact (prefix_learn known x).trans (ih (learn known x))

theorem mem_foldl_learn {T P : Type} [DecidableEq T] [DecidableEq P]
    {known xs : List (Operand T P)} {x : Operand T P} :
    x ∈ xs.foldl learn known ↔ x ∈ known ∨ x ∈ xs := by
  induction xs generalizing known with
  | nil => simp
  | cons y xs ih => rw [List.foldl_cons, ih, mem_learn, List.mem_cons, or_assoc]

/-- Symbols that are all new are learned in their order. -/
theorem foldl_learn_of_nodup {T P : Type} [DecidableEq T] [DecidableEq P]
    {known xs : List (Operand T P)} (h : (known ++ xs).Nodup) :
    xs.foldl learn known = known ++ xs := by
  induction xs generalizing known with
  | nil => simp
  | cons x xs ih =>
    have hx : x ∉ known := fun hx => (List.nodup_append.mp h).2.2 x hx x List.mem_cons_self rfl
    rw [List.append_cons] at h ⊢
    rw [List.foldl_cons, learn_of_not_mem hx]
    exact ih h

/-- Symbols that are renamed without confusion are learned in the same order. -/
theorem foldl_learn_map {T P T' P' : Type} [DecidableEq T] [DecidableEq P] [DecidableEq T']
    [DecidableEq P'] {f : Operand T P → Operand T' P'} (known xs : List (Operand T P))
    (hf : ∀ x ∈ known ++ xs, ∀ y ∈ known ++ xs, f x = f y → x = y) :
    (xs.map f).foldl learn (known.map f) = (xs.foldl learn known).map f := by
  induction xs generalizing known with
  | nil => rfl
  | cons x xs ih =>
    have hlearn : learn (known.map f) (f x) = (learn known x).map f := by
      by_cases h : x ∈ known
      · rw [learn_of_mem h, learn_of_mem (List.mem_map_of_mem h)]
      · have hmap : f x ∉ known.map f := by
          intro hx
          obtain ⟨y, hy, hyx⟩ := List.mem_map.mp hx
          rw [hf y (by simp [hy]) x (by simp) hyx] at hy
          exact h hy
        rw [learn_of_not_mem h, learn_of_not_mem hmap, List.map_append]
        rfl
    have hmem : ∀ y ∈ learn known x ++ xs, y ∈ known ++ x :: xs := by
      simp [mem_learn, or_assoc]
    rw [List.map_cons, List.foldl_cons, List.foldl_cons, hlearn]
    exact ih (learn known x) fun y hy z hz => hf y (hmem y hy) z (hmem z hz)

theorem getElem?_of_front {α : Type} {xs ys : List α} {i : Nat} {a : α} (front : xs <+: ys)
    (hi : xs[i]? = some a) : ys[i]? = some a := by
  obtain ⟨hlt, rfl⟩ := List.getElem?_eq_some_iff.mp hi
  exact List.prefix_iff_getElem?.mp front i hlt

theorem SymbolId.exists_toNat {k : Nat} (hpos : 0 < k) (hlt : k < 65536) :
    ∃ id : SymbolId, id.toNat = k := by
  have hk : (UInt16.ofNat k).toNat = k := by
    rw [UInt16.toNat_ofNat']
    omega
  refine ⟨⟨UInt16.ofNat k, ?_⟩, hk⟩
  intro hz
  rw [hz] at hk
  simp at hk
  omega

namespace Numbering

variable {n : Numbering} {x y : Symbol} {id other : SymbolId} {xs : List Symbol}

@[simp] theorem id?_issue (n : Numbering) (x y : Symbol) (id : SymbolId) :
    (n.issue x id).id? y = (n.assign x id).id? y := rfl

@[simp] theorem symbolOf?_issue (n : Numbering) (x : Symbol) (id other : SymbolId) :
    (n.issue x id).symbolOf? other = (n.assign x id).symbolOf? other := rfl

/-- IDs and symbols name each other. -/
def IsBijection (n : Numbering) : Prop := ∀ x id, n.id? x = some id ↔ n.symbolOf? id = some x

theorem isBijection_empty : empty.IsBijection := by
  intro x id
  simp

theorem IsBijection.eq_of_id? (h : n.IsBijection) (hx : n.id? x = some id)
    (hy : n.id? y = some id) : x = y := by
  rw [h] at hx hy
  exact Option.some.inj (hx.symm.trans hy)

theorem IsBijection.assign (h : n.IsBijection) (hx : n.id? x = none)
    (hid : n.symbolOf? id = none) : (n.assign x id).IsBijection := by
  intro y other
  rw [id?_assign, symbolOf?_assign]
  by_cases hxy : x = y
  · subst hxy
    by_cases ho : id = other
    · simp [ho]
    · have hne : n.symbolOf? other ≠ some x := fun hs => by
        rw [← h x other, hx] at hs
        cases hs
      simp [ho, hne]
  · by_cases ho : id = other
    · subst ho
      have hne : n.id? y ≠ some id := fun hs => by
        rw [h y id, hid] at hs
        cases hs
      simp [hxy, hne]
    · simp only [if_neg hxy, if_neg ho]
      exact h y other

theorem bind_of_bound (h : n.symbolOf? id = some x) : n.bind id x = (.confirmed, n) := by
  simp [bind, h]

theorem bind_of_free (hid : n.symbolOf? id = none) (hx : n.id? x = none) :
    n.bind id x = (.bound, n.assign x id) := by
  simp [bind, hid, hx]

/-- Short of a conflict the ID names the symbol already, or both were free. -/
theorem bind_cases (h : (n.bind id x).1 ≠ .conflict) :
    (n.symbolOf? id = some x ∧ (n.bind id x).2 = n) ∨
      (n.symbolOf? id = none ∧ n.id? x = none ∧ (n.bind id x).2 = n.assign x id) := by
  cases hid : n.symbolOf? id with
  | some y =>
    left
    by_cases hy : y = x
    · subst hy
      rw [bind_of_bound hid]
      exact ⟨rfl, rfl⟩
    · simp [bind, hid, hy] at h
  | none =>
    right
    cases hx : n.id? x with
    | some other => simp [bind, hid, hx] at h
    | none =>
      rw [bind_of_free hid hx]
      exact ⟨rfl, rfl, rfl⟩

theorem bind_of_conflict (h : (n.bind id x).1 = .conflict) : (n.bind id x).2 = n := by
  unfold bind at h ⊢
  cases hid : n.symbolOf? id with
  | some y => rfl
  | none =>
    simp only [hid] at h ⊢
    by_cases hx : (n.id? x).isSome
    · rw [if_pos hx]
    · rw [if_neg hx] at h
      cases h

/-- The IDs from one on name the symbols of a list in its order, and the next ID is the one
after the last. -/
structure Lists (n : Numbering) (xs : List Symbol) : Prop where
  isBijection : n.IsBijection
  symbolOf?_eq : ∀ id, n.symbolOf? id = xs[id.toNat - 1]?
  next_some : ∀ id, n.next = some id → id.toNat = xs.length + 1
  next_none : n.next = none → xs.length = 65535
  size_eq : n.size = xs.length

theorem lists_empty : empty.Lists [] where
  isBijection := isBijection_empty
  symbolOf?_eq id := by simp
  next_some id h := by
    cases h
    rfl
  next_none h := by cases h
  size_eq := rfl

namespace Lists

theorem length_le (h : n.Lists xs) : xs.length ≤ 65535 := by
  cases hn : n.next with
  | none => exact Nat.le_of_eq (h.next_none hn)
  | some id =>
    have hnext := h.next_some id hn
    have hlt := id.toNat_lt
    omega

theorem exists_next (h : n.Lists xs) (room : xs.length < 65535) :
    ∃ id, n.next = some id ∧ id.toNat = xs.length + 1 := by
  cases hn : n.next with
  | none =>
    have hfull := h.next_none hn
    omega
  | some id => exact ⟨id, rfl, h.next_some id hn⟩

/-- The symbol at a place of the list has the ID of that place. -/
theorem id?_of_getElem? (h : n.Lists xs) {i : Nat} (hi : xs[i]? = some x) :
    ∃ id, n.id? x = some id ∧ id.toNat = i + 1 := by
  have hlt : i < xs.length := (List.getElem?_eq_some_iff.mp hi).1
  have hle := h.length_le
  obtain ⟨id, hid⟩ := SymbolId.exists_toNat (k := i + 1) (by omega) (by omega)
  refine ⟨id, ?_, hid⟩
  rw [h.isBijection x id, h.symbolOf?_eq, hid]
  exact hi

theorem getElem?_of_id? (h : n.Lists xs) (hid : n.id? x = some id) :
    xs[id.toNat - 1]? = some x := by
  rw [← h.symbolOf?_eq, ← h.isBijection x id]
  exact hid

theorem mem_iff (h : n.Lists xs) : x ∈ xs ↔ (n.id? x).isSome := by
  constructor
  · intro hx
    obtain ⟨i, hi⟩ := List.mem_iff_getElem?.mp hx
    obtain ⟨id, hid, _⟩ := h.id?_of_getElem? hi
    rw [hid]
    rfl
  · intro hx
    obtain ⟨id, hid⟩ := Option.isSome_iff_exists.mp hx
    exact List.mem_of_getElem? (h.getElem?_of_id? hid)

theorem not_mem_iff (h : n.Lists xs) : x ∉ xs ↔ n.id? x = none := by
  rw [h.mem_iff, Option.not_isSome_iff_eq_none]

theorem nodup (h : n.Lists xs) : xs.Nodup := by
  rw [List.Nodup, List.pairwise_iff_getElem]
  intro i j hi hj hij heq
  obtain ⟨a, ha, hai⟩ := h.id?_of_getElem? (List.getElem?_eq_getElem hi)
  obtain ⟨b, hb, hbj⟩ := h.id?_of_getElem? (List.getElem?_eq_getElem hj)
  rw [heq, hb] at ha
  cases ha
  omega

theorem issue (h : n.Lists xs) (hx : n.id? x = none) (hnext : n.next = some id) :
    (n.issue x id).Lists (xs ++ [x]) where
  isBijection := by
    have hid := h.next_some id hnext
    have hfree : n.symbolOf? id = none := by
      rw [h.symbolOf?_eq, List.getElem?_eq_none]
      omega
    exact h.isBijection.assign hx hfree
  symbolOf?_eq other := by
    have hid := h.next_some id hnext
    have hpos := other.toNat_pos
    rw [symbolOf?_issue, symbolOf?_assign, h.symbolOf?_eq]
    by_cases ho : id = other
    · subst ho
      rw [if_pos rfl, List.getElem?_append_right (by omega)]
      simp [hid]
    · have hne : other.toNat ≠ xs.length + 1 := by
        rw [← hid, Ne, SymbolId.toNat_inj]
        exact Ne.symm ho
      rw [if_neg ho]
      by_cases hlt : other.toNat - 1 < xs.length
      · rw [List.getElem?_append_left hlt]
      · rw [List.getElem?_eq_none (by omega), List.getElem?_eq_none]
        simp only [List.length_append, List.length_singleton]
        omega
  next_some other ho := by
    have hid := h.next_some id hnext
    have hsucc := SymbolId.toNat_of_next? ho
    simp only [List.length_append, List.length_singleton]
    omega
  next_none hn := by
    have hid := h.next_some id hnext
    have hlast : id.toNat = 65535 := SymbolId.next?_eq_none.mp hn
    simp only [List.length_append, List.length_singleton]
    omega
  size_eq := by
    have hsize : (n.issue x id).size = n.size + 1 := size_assign n x id hx
    rw [hsize, h.size_eq, List.length_append, List.length_singleton]

/-- IDs stay when more symbols are listed. -/
theorem id?_of_front {n' : Numbering} {xs' : List Symbol} (h : n.Lists xs) (h' : n'.Lists xs')
    (front : xs <+: xs') (hid : n.id? x = some id) : n'.id? x = some id := by
  rw [h'.isBijection x id, h'.symbolOf?_eq]
  exact getElem?_of_front front (h.getElem?_of_id? hid)

/-- A symbol and its renaming have the same ID where they have the same place. -/
theorem id?_map {n' : Numbering} {known : List Symbol} {f : Symbol → Symbol} (h : n.Lists xs)
    (front : known <+: xs) (h' : n'.Lists (known.map f)) {i : Nat} (hi : known[i]? = some x) :
    n'.id? (f x) = n.id? x := by
  obtain ⟨id, hid, htoNat⟩ := h.id?_of_getElem? (getElem?_of_front front hi)
  have hi' : (known.map f)[i]? = some (f x) := by
    rw [List.getElem?_map, hi]
    rfl
  obtain ⟨id', hid', htoNat'⟩ := h'.id?_of_getElem? hi'
  rw [hid, hid', SymbolId.toNat_inj.mp (htoNat'.trans htoNat.symm)]

/-- Enrolling a symbol while IDs are left appends it to the list if it is new. -/
theorem enrol (h : n.Lists xs) (hroom : xs.length < 65535) (x : Symbol) :
    (((n.enrol x).map Prod.snd).getD n).Lists (learn xs x) := by
  cases hx : n.id? x with
  | some id =>
    have hmem : x ∈ xs := h.mem_iff.mpr (by rw [hx]; rfl)
    rw [learn_of_mem hmem]
    simpa [Numbering.enrol, hx] using h
  | none =>
    rw [learn_of_not_mem (h.not_mem_iff.mpr hx)]
    cases hnext : n.next with
    | none =>
      have := h.next_none hnext
      omega
    | some id => simpa [Numbering.enrol, hx, hnext] using h.issue hx hnext

end Lists

end Numbering

end Provenance
