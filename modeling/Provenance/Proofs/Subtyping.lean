import Mathlib.Logic.Relation
import Provenance.Proofs.Links

/-!
What the hierarchy of a world is. Going up along supertypes and interfaces meets what declarations
lead to, and nothing else. The root is below nothing, an array is below the root only, and every
other type that is no interface has a supertype. Subtypes are told by going up, except that arrays
are compared as their components are; the relation is transitive as long as no type is declared
below an array.
-/
namespace Provenance.World

variable {w : World} {t s u a b c : TypeRef}

/-- Declarations lead up from one type to another. -/
def LeadsUp (w : World) : TypeRef → TypeRef → Prop :=
  Relation.ReflTransGen fun t p => p ∈ w.parents t

theorem mem_parents_of_superType (h : w.superType t = some s) : s ∈ w.parents t :=
  List.mem_append_left _ (Option.mem_toList.mpr h)

theorem mem_parents_of_interfaces (h : s ∈ w.interfaces t) : s ∈ w.parents t :=
  List.mem_append_right _ h

theorem mem_parents_iff : s ∈ w.parents t ↔ w.superType t = some s ∨ s ∈ w.interfaces t := by
  rw [parents, List.mem_append, Option.mem_toList]

/-- On the chain of a type is what supertypes lead to. -/
theorem mem_superChain_iff :
    s ∈ w.superChain t ↔ Relation.ReflTransGen (fun t s => w.superType t = some s) t s := by
  constructor
  · intro h
    induction t using superChain.induct w with
    | case1 t ih =>
      cases hsuper : w.superType t with
      | none =>
        rw [superChain_of_none hsuper, List.mem_singleton] at h
        rw [h]
      | some p =>
        rw [superChain_of_some hsuper, List.mem_cons] at h
        rcases h with rfl | h
        · exact .refl
        · exact .head hsuper (ih p hsuper h)
  · intro path
    induction path using Relation.ReflTransGen.head_induction_on with
    | refl => exact w.self_mem_superChain s
    | head hsuper _ ih =>
      rw [superChain_of_some hsuper]
      exact List.mem_cons_of_mem _ ih

theorem leadsUp_of_mem_superChain (h : s ∈ w.superChain t) : w.LeadsUp t s :=
  Relation.ReflTransGen.mono (fun _ _ => mem_parents_of_superType) _ _ (mem_superChain_iff.mp h)

/-- What leads up from a type does so along its chain, or from an interface that the chain names. -/
theorem leadsUp_cases (h : w.LeadsUp t s) :
    s ∈ w.superChain t ∨ ∃ i ∈ (w.superChain t).flatMap w.interfaces, w.LeadsUp i s := by
  induction h using Relation.ReflTransGen.head_induction_on with
  | refl => exact .inl (w.self_mem_superChain s)
  | @head t p hp hrest ih =>
    rcases mem_parents_iff.mp hp with hsuper | hinterface
    · rw [superChain_of_some hsuper, List.flatMap_cons]
      rcases ih with hmem | ⟨i, hi, hup⟩
      · exact .inl (List.mem_cons_of_mem t hmem)
      · exact .inr ⟨i, List.mem_append_right _ hi, hup⟩
    · exact .inr ⟨p, List.mem_flatMap.mpr ⟨t, w.self_mem_superChain t, hinterface⟩, hrest⟩

/-- A walk among types that the world has meets all that its steps lead to. -/
theorem mem_walk_of_has {next : TypeRef → List TypeRef} {start : List TypeRef}
    (hstart : ∀ i ∈ start, w.Has (.type i)) (hnext : ∀ u, ∀ v ∈ next u, w.Has (.type v)) :
    s ∈ walk w.types.size next ∅ start ↔
      ∃ i ∈ start, Relation.ReflTransGen (fun u v => v ∈ next u) i s := by
  have isOpen {u : TypeRef} (hu : w.Has (.type u)) :
      u.index < w.types.size ∧ u ∉ (∅ : Std.HashSet TypeRef) := ⟨hu, by simp⟩
  rw [mem_walk_iff]
  constructor
  · intro reached
    induction reached with
    | start hi => exact ⟨_, hi, .refl⟩
    | step _ hv _ ih =>
      obtain ⟨i, hi, path⟩ := ih
      exact ⟨i, hi, path.tail hv⟩
  · rintro ⟨i, hi, path⟩
    induction path with
    | refl => exact .start hi (isOpen (hstart i hi))
    | tail _ hv ih => exact .step ih hv (isOpen (hnext _ _ hv))

theorem WellFormed.mem_aboveInterfaces_iff (h : w.WellFormed) :
    s ∈ w.aboveInterfaces t ↔
      ∃ i ∈ (w.superChain t).flatMap w.interfaces, w.LeadsUp i s :=
  mem_walk_of_has h.has_chainInterfaces fun _ => h.has_parents

/-- The walk of a query meets what declarations lead up to. -/
theorem WellFormed.isAbove_iff (h : w.WellFormed) : w.isAbove s t = true ↔ w.LeadsUp t s := by
  rw [isAbove, Bool.or_eq_true, List.contains_iff_mem, List.contains_iff_mem,
    h.mem_aboveInterfaces_iff]
  constructor
  · rintro (hmem | ⟨i, hi, hup⟩)
    · exact leadsUp_of_mem_superChain hmem
    · obtain ⟨u, hu, hinterface⟩ := List.mem_flatMap.mp hi
      exact (leadsUp_of_mem_superChain hu).trans (.head (mem_parents_of_interfaces hinterface) hup)
  · exact leadsUp_cases

/-- What holds of a type and of all right above one of which it holds, holds of all above. -/
theorem LeadsUp.keeps {P : TypeRef → Prop} (h : w.LeadsUp t s) (start : P t)
    (step : ∀ u, P u → ∀ p ∈ w.parents u, P p) : P s := by
  induction h with
  | refl => exact start
  | tail _ hnext ih => exact step _ ih _ hnext

/-- Of two types on one chain, one is on the chain of the other. -/
theorem mem_superChain_or (ha : a ∈ w.superChain t) (hb : b ∈ w.superChain t) :
    b ∈ w.superChain a ∨ a ∈ w.superChain b := by
  induction t using superChain.induct w with
  | case1 t ih =>
    cases hsuper : w.superType t with
    | none =>
      rw [superChain_of_none hsuper, List.mem_singleton] at ha hb
      rw [ha, hb]
      exact .inl (w.self_mem_superChain t)
    | some p =>
      have chain := superChain_of_some hsuper
      rw [chain, List.mem_cons] at ha hb
      rcases ha with rfl | ha
      · rw [chain, List.mem_cons]
        exact .inl hb
      · rcases hb with rfl | hb
        · rw [chain, List.mem_cons]
          exact .inr (.inr ha)
        · exact ih p hsuper ha hb

theorem isSubtype_refl (w : World) (t : TypeRef) : w.isSubtype t t = true := by
  rw [isSubtype, decide_eq_true rfl, Bool.true_or]

theorem isSubtype_of_components (ha : w.component t = some a) (hb : w.component s = some b) :
    w.isSubtype t s = w.isSubtype a b := by
  rw [isSubtype_of_some ha hb]
  by_cases same : t = s
  · subst same
    cases ha.symm.trans hb
    rw [w.isSubtype_refl, Bool.or_true]
  · rw [decide_eq_false same, Bool.false_or]

/-- Unless both are arrays, subtypes are told by going up. -/
theorem WellFormed.isSubtype_iff (h : w.WellFormed)
    (other : w.component t = none ∨ w.component s = none) :
    w.isSubtype t s = true ↔ w.LeadsUp t s := by
  have hnone : ∀ a b, w.component t = some a → w.component s ≠ some b := by
    intro a b ha hb
    rcases other with ht | hs
    · cases ht.symm.trans ha
    · cases hs.symm.trans hb
  rw [isSubtype_of_none hnone, Bool.or_eq_true, h.isAbove_iff, decide_eq_true_eq, or_iff_right_of_imp]
  rintro rfl
  exact .refl

/-- How a declaration places its type: an array is right below the root and below nothing else, the
root is below nothing, and a type that is neither the root nor an interface has a supertype. -/
structure Places (d : TypeDecl) (t : TypeRef) : Prop where
  array : ∀ c, d.component = some c →
    d.superType = some rootType ∧ d.interfaces = [] ∧ d.isInterface = false
  root : t = rootType →
    d.superType = none ∧ d.interfaces = [] ∧ d.component = none ∧ d.isInterface = false
  other : d.isInterface = false → t ≠ rootType → d.superType.isSome

def Placed (w : World) : Prop := ∀ t, w.Has (.type t) → Places (w.typeDecl t) t

theorem Placed.addType (h : w.Placed) {d : TypeDecl} (hd : Places d ⟨w.types.size⟩) :
    (w.addType d).2.Placed := by
  intro t ht
  rw [typeDecl_addType]
  by_cases hnew : t.index = w.types.size
  · rw [if_pos hnew, show t = ⟨w.types.size⟩ from by rw [← hnew]]
    exact { hd with }
  · have hlt : t.index < (w.addType d).2.types.size := ht
    simp only [World.addType, addName, Array.size_push] at hlt
    rw [if_neg hnew]
    exact h t (Nat.lt_of_le_of_ne (Nat.le_of_lt_succ hlt) hnew)

theorem Placed.modifyType (h : w.Placed) {f : TypeDecl → TypeDecl}
    (keeps : ∀ d t, Places d t → Places (f d) t) : (w.modifyType u f).Placed := by
  intro t ht
  have place := h t (has_modifyType.mp ht)
  rw [typeDecl_modifyType]
  split
  · exact keeps _ t place
  · exact place

theorem Built.placed (h : w.Built) : w.Placed := by
  have new {w : World} (built : w.Built) : (⟨w.types.size⟩ : TypeRef) ≠ rootType := by
    intro same
    have hroot : 0 < w.types.size := built.wellFormed.rootType
    rw [rootType, TypeRef.mk.injEq] at same
    omega
  induction h with
  | fresh =>
    rintro ⟨_ | _ | n⟩ ht
    · exact ⟨by rintro _ ⟨⟩, fun _ => ⟨rfl, rfl, rfl, rfl⟩, fun _ other => absurd rfl other⟩
    · exact ⟨by rintro _ ⟨⟩, by rintro ⟨⟩, fun _ _ => rfl⟩
    · exact absurd ht (by simp [Has, World.fresh, World.addType, World.empty, addName])
  | newContext _ ih | setMaySkipFrames _ _ _ _ ih => exact ih
  | defineType spec built _ _ ih =>
    refine ih.addType ⟨by rintro _ ⟨⟩, fun same => absurd same (new built), ?_⟩
    rintro (plain : spec.isInterface = false) -
    simp [plain]
  | arrayOf t built _ ih =>
    rw [World.arrayOf]
    split
    · exact ih
    · refine (ih.addType ⟨fun _ _ => ⟨rfl, rfl, rfl⟩, fun same => absurd same (new built),
        fun _ _ => rfl⟩).modifyType fun _ _ place => { place with }
  | rename t name _ _ ih => exact ih.modifyType fun _ _ place => { place with }
  | markInitialized _ _ _ _ ih | addEntry _ _ _ _ ih | defineProcedure _ _ _ ih =>
    exact ih.modifyType fun _ _ place => { place with }

theorem typeDecl_of_not_has (unknown : ¬ w.Has (.type t)) : w.typeDecl t = .plain "" := by
  rw [typeDecl, Array.getD_eq_getD_getElem?, Array.getElem?_eq_none (Nat.le_of_not_lt unknown)]
  rfl

theorem has_of_component (h : w.component t = some c) : w.Has (.type t) := by
  by_contra unknown
  rw [component, typeDecl_of_not_has unknown] at h
  cases h

theorem has_of_parents (h : s ∈ w.parents t) : w.Has (.type t) := by
  by_contra unknown
  rw [parents, superType, interfaces, typeDecl_of_not_has unknown] at h
  cases h

theorem Built.parents_root (h : w.Built) : w.parents rootType = [] := by
  obtain ⟨super, interfaces, -⟩ := (h.placed rootType h.wellFormed.rootType).root rfl
  rw [parents, superType, super, World.interfaces, interfaces]
  rfl

theorem Built.superType_eq (h : w.Built) : w.superType t = (w.typeDecl t).superType := by
  rw [superType]
  cases hs : (w.typeDecl t).superType with
  | none => rfl
  | some s =>
    have older : s.index < t.index := h.layered t s (by simp [TypeDecl.bases, hs])
    exact Option.filter_some_pos (by simpa using older)

/-- Right above an array is the root and nothing else. -/
theorem Built.parents_array (h : w.Built) (ht : w.component t = some c) :
    w.parents t = [rootType] ∧ (w.typeDecl t).isInterface = false := by
  obtain ⟨super, interfaces, plain⟩ :=
    (h.placed t (has_of_component ht)).array c (Option.filter_eq_some_iff.mp ht).1
  rw [parents, h.superType_eq, super, World.interfaces, interfaces]
  exact ⟨rfl, plain⟩

theorem Built.exists_superType (h : w.Built) (ht : w.Has (.type t))
    (plain : (w.typeDecl t).isInterface = false) (other : t ≠ rootType) :
    ∃ s, w.superType t = some s := by
  rw [h.superType_eq]
  exact Option.isSome_iff_exists.mp ((h.placed t ht).other plain other)

theorem Built.eq_root_of_leadsUp (h : w.Built) (hup : w.LeadsUp rootType s) : s = rootType := by
  refine hup.keeps (P := fun u => u = rootType) rfl ?_
  rintro u rfl p hp
  rw [h.parents_root] at hp
  cases hp

/-- Above an array there are no types but itself and the root. -/
theorem Built.leadsUp_array (h : w.Built) (ht : w.component t = some c) :
    w.LeadsUp t s ↔ s = t ∨ s = rootType := by
  obtain ⟨parents, -⟩ := h.parents_array ht
  constructor
  · intro hup
    rcases Relation.ReflTransGen.cases_head hup with same | ⟨p, hp, hrest⟩
    · exact .inl same.symm
    · rw [parents, List.mem_singleton] at hp
      rw [hp] at hrest
      exact .inr (h.eq_root_of_leadsUp hrest)
  · rintro (rfl | rfl)
    · exact .refl
    · exact .single (by rw [parents]; exact List.mem_singleton.mpr rfl)

/-- No type is declared to extend or to implement an array. -/
def ArraysAreLeaves (w : World) : Prop := ∀ t, ∀ p ∈ w.parents t, w.component p = none

section ArraysAreLeaves

variable (leaves : w.ArraysAreLeaves)
include leaves

/-- Nothing leads up to an array but itself. -/
theorem ArraysAreLeaves.eq_of_leadsUp (hup : w.LeadsUp t s) (hs : w.component s = some c) : t = s := by
  rcases Relation.ReflTransGen.cases_tail hup with same | ⟨u, -, hnext⟩
  · exact same.symm
  · cases (leaves u s hnext).symm.trans hs

/-- Only arrays are subtypes of arrays. -/
theorem ArraysAreLeaves.component_of_isSubtype (h : w.Built) (below : w.isSubtype t s = true)
    (hs : w.component s = some b) : ∃ a, w.component t = some a ∧ w.isSubtype a b = true := by
  cases ht : w.component t with
  | some a =>
    rw [isSubtype_of_components ht hs] at below
    exact ⟨a, rfl, below⟩
  | none =>
    have same := leaves.eq_of_leadsUp ((h.wellFormed.isSubtype_iff (.inl ht)).mp below) hs
    rw [same] at ht
    cases ht.symm.trans hs

theorem ArraysAreLeaves.isSubtype_trans (h : w.Built) (first : w.isSubtype t s = true)
    (second : w.isSubtype s u = true) : w.isSubtype t u = true := by
  induction u using w.finiteNesting.induction generalizing t s with
  | _ u ih =>
    cases hu : w.component u with
    | some c =>
      obtain ⟨b, hs, second⟩ := leaves.component_of_isSubtype h second hu
      obtain ⟨a, ht, first⟩ := leaves.component_of_isSubtype h first hs
      rw [isSubtype_of_components ht hu]
      exact ih c hu first second
    | none =>
      have second := (h.wellFormed.isSubtype_iff (.inr hu)).mp second
      rw [h.wellFormed.isSubtype_iff (.inr hu)]
      cases hs : w.component s with
      | none => exact ((h.wellFormed.isSubtype_iff (.inr hs)).mp first).trans second
      | some b =>
        -- An array is below its own kind and the root, and the root is above all arrays.
        obtain ⟨a, ht, -⟩ := leaves.component_of_isSubtype h first hs
        rcases (h.leadsUp_array hs).mp second with rfl | rfl
        · cases hu.symm.trans hs
        · exact (h.leadsUp_array ht).mpr (.inr rfl)

end ArraysAreLeaves

end Provenance.World
