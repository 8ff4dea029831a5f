import Provenance.Proofs.Verdicts

/-!
What going up from a type comes to. Types are declared on older ones only, so every way up ends, and
a search along all of them ends too, though it takes no note of where it has been. The test of
subtypes is such a search. As long as no type is declared below an array, it tells the least order
in which a type is below what it extends and implements and arrays stand as their components do.
-/
namespace Provenance

/-- A search for a type among those that are pending and all that these lead to, the steps from a
type before what was pending already. It may meet a type many times, and it comes to nothing if the
fuel runs out first. -/
def search (next : TypeRef → List TypeRef) (wanted : TypeRef → Bool) :
    (fuel : Nat) → List TypeRef → Option (Option TypeRef)
  | 0, _ => none
  | _ + 1, [] => some none
  | fuel + 1, t :: pending =>
    if wanted t then some (some t) else search next wanted fuel (next t ++ pending)

section Search

variable {next : TypeRef → List TypeRef} {wanted : TypeRef → Bool} {pending : List TypeRef}

/-- With enough fuel the search comes to an end. -/
def Ends (next : TypeRef → List TypeRef) (wanted : TypeRef → Bool) (pending : List TypeRef) :
    Prop :=
  ∃ fuel found, search next wanted fuel pending = some found

theorem Ends.append {more : List TypeRef} (h : Ends next wanted pending)
    (each : ∀ t ∈ more, ∀ pending, Ends next wanted pending → Ends next wanted (t :: pending)) :
    Ends next wanted (more ++ pending) := by
  induction more with
  | nil => exact h
  | cons t more ih =>
    exact each t List.mem_cons_self _ (ih fun s hs => each s (List.mem_cons_of_mem t hs))

/-- Where steps lead to older types only, one more type to search from makes no difference. -/
theorem Ends.cons (older : ∀ t, ∀ s ∈ next t, s.index < t.index) (t : TypeRef)
    (h : Ends next wanted pending) : Ends next wanted (t :: pending) := by
  induction t using (InvImage.wf TypeRef.index Nat.lt_wfRel.wf).induction generalizing pending with
  | _ t ih =>
    obtain ⟨fuel, found, hfound⟩ :=
      h.append fun s hs pending hpending => ih s (older t s hs) hpending
    by_cases ht : wanted t = true
    · exact ⟨1, some t, by rw [search, if_pos ht]⟩
    · exact ⟨fuel + 1, found, by rw [search, if_neg ht, hfound]⟩

theorem search_ends (older : ∀ t, ∀ s ∈ next t, s.index < t.index) (pending : List TypeRef) :
    Ends next wanted pending := by
  induction pending with
  | nil => exact ⟨1, none, rfl⟩
  | cons t pending ih => exact .cons older t ih

/-- A search that ends has found something exactly if there is something to be found. -/
theorem isSome_of_search {fuel : Nat} {found : Option TypeRef}
    (h : search next wanted fuel pending = some found) :
    found.isSome ↔ ∃ t ∈ pending, ∃ s,
      Relation.ReflTransGen (fun t s => s ∈ next t) t s ∧ wanted s = true := by
  induction fuel generalizing pending with
  | zero => cases h
  | succ fuel ih =>
    cases pending with
    | nil =>
      cases h
      simp
    | cons t pending =>
      rw [search] at h
      split at h
      · rename_i ht
        cases h
        exact ⟨fun _ => ⟨t, List.mem_cons_self, t, .refl, ht⟩, fun _ => rfl⟩
      · rename_i ht
        rw [ih h]
        constructor
        · rintro ⟨s, hs, u, hup, hu⟩
          rcases List.mem_append.mp hs with hnext | hpending
          · exact ⟨t, List.mem_cons_self, u, .head hnext hup, hu⟩
          · exact ⟨s, List.mem_cons_of_mem t hpending, u, hup, hu⟩
        · rintro ⟨s, hs, u, hup, hu⟩
          rcases List.mem_cons.mp hs with rfl | hpending
          · -- What is wanted is not the type itself, so the way to it takes a step.
            rcases Relation.ReflTransGen.cases_head hup with rfl | ⟨v, hnext, hrest⟩
            · exact absurd hu ht
            · exact ⟨v, List.mem_append_left pending hnext, u, hrest, hu⟩
          · exact ⟨s, List.mem_append_right _ hpending, u, hup, hu⟩

end Search

namespace World

variable {w : World} {t s u a b c : TypeRef}

/-- Interfaces are declared before what names them. -/
def InterfacesFirst (w : World) : Prop := ∀ t, ∀ i ∈ w.interfaces t, i.index < t.index

theorem InterfacesFirst.addType (h : w.InterfacesFirst) {d : TypeDecl}
    (has : ∀ i ∈ d.interfaces, w.Has (.type i)) : (w.addType d).2.InterfacesFirst :=
  older_addType h has

theorem InterfacesFirst.modifyType (h : w.InterfacesFirst) {f : TypeDecl → TypeDecl}
    (same : ∀ d, (f d).interfaces = d.interfaces) : (w.modifyType u f).InterfacesFirst :=
  older_modifyType h same

theorem Built.interfacesFirst (h : w.Built) : w.InterfacesFirst := by
  induction h with
  | fresh => rintro ⟨_ | _ | n⟩ i ⟨⟩
  | newContext _ ih | setMaySkipFrames _ _ _ _ ih => exact ih
  | defineType _ _ _ has ih => exact ih.addType has
  | arrayOf t _ _ ih =>
    rw [World.arrayOf]
    split
    · exact ih
    · exact (ih.addType fun _ hi => by cases hi).modifyType fun _ => rfl
  | rename _ _ _ _ ih | markInitialized _ _ _ _ ih | addEntry _ _ _ _ ih
  | defineProcedure _ _ _ ih =>
    exact ih.modifyType fun _ => rfl

theorem Built.parents_lt (h : w.Built) (hs : s ∈ w.parents t) : s.index < t.index := by
  rcases mem_parents_iff.mp hs with hsuper | hinterface
  · exact w.superType_lt hsuper
  · exact h.interfacesFirst t s hinterface

theorem Built.le_of_leadsUp (h : w.Built) (hup : w.LeadsUp t s) : s.index ≤ t.index :=
  hup.keeps (P := fun u => u.index ≤ t.index) (Nat.le_refl _) fun _ hu _ hp =>
    Nat.le_of_lt (Nat.lt_of_lt_of_le (h.parents_lt hp) hu)

theorem Built.component_eq (h : w.Built) : w.component t = (w.typeDecl t).component :=
  Option.ext fun c => h.component_iff.trans (h.linked c t)

theorem components_or (w : World) (t s : TypeRef) :
    (∃ a b, w.component t = some a ∧ w.component s = some b) ∨
      (w.component t = none ∨ w.component s = none) := by
  cases ht : w.component t with
  | none => exact .inr (.inl rfl)
  | some a =>
    cases hs : w.component s with
    | none => exact .inr (.inr rfl)
    | some b => exact .inl ⟨a, b, rfl, rfl⟩

/-- What a declaration says is right above a type, the last named first. -/
def declaredParents (w : World) (t : TypeRef) : List TypeRef :=
  ((w.typeDecl t).superType.toList ++ (w.typeDecl t).interfaces).reverse

theorem Built.mem_declaredParents (h : w.Built) : s ∈ w.declaredParents t ↔ s ∈ w.parents t := by
  rw [declaredParents, List.mem_reverse, parents, h.superType_eq, interfaces]

/-- Goes from arrays to their components and from other types up, wherever declarations lead, until
it meets the second type. -/
def seekSubtype (w : World) : (fuel : Nat) → (sub sup : TypeRef) → Option Bool
  | 0, _, _ => none
  | fuel + 1, sub, sup =>
    if sub = sup then some true
    else match (w.typeDecl sub).component, (w.typeDecl sup).component with
      | some a, some b => w.seekSubtype fuel a b
      | _, _ => (search w.declaredParents (· = sup) fuel [sub]).map Option.isSome

theorem seekSubtype_of_components {fuel : Nat} (hne : t ≠ s)
    (ha : (w.typeDecl t).component = some a) (hb : (w.typeDecl s).component = some b) :
    w.seekSubtype (fuel + 1) t s = w.seekSubtype fuel a b := by
  rw [seekSubtype, if_neg hne]
  simp only [ha, hb]

theorem seekSubtype_of_none {fuel : Nat} (hne : t ≠ s)
    (other : (w.typeDecl t).component = none ∨ (w.typeDecl s).component = none) :
    w.seekSubtype (fuel + 1) t s =
      (search w.declaredParents (· = s) fuel [t]).map Option.isSome := by
  rw [seekSubtype, if_neg hne]
  split
  · simp_all
  · rfl

/-- The search for the second type among what is above the first ends, and finds it if it is. -/
theorem Built.climb_ends (h : w.Built) (t s : TypeRef) :
    ∃ fuel found, search w.declaredParents (· = s) fuel [t] = some found ∧
      (found.isSome ↔ w.LeadsUp t s) := by
  have older : ∀ t, ∀ u ∈ w.declaredParents t, u.index < t.index := fun t u hu =>
    h.parents_lt (h.mem_declaredParents.mp hu)
  have same : Relation.ReflTransGen (fun t u => u ∈ w.declaredParents t) t s ↔ w.LeadsUp t s := by
    simp only [LeadsUp, h.mem_declaredParents]
  obtain ⟨fuel, found, hfound⟩ : Ends w.declaredParents (· = s) [t] := search_ends older [t]
  refine ⟨fuel, found, hfound, ?_⟩
  rw [isSome_of_search hfound, ← same]
  simp

/-- The test ends, and it tells what is told when no type is met twice. -/
theorem Built.seekSubtype_ends (h : w.Built) (t s : TypeRef) :
    ∃ fuel, w.seekSubtype fuel t s = some (w.isSubtype t s) := by
  induction t using w.finiteNesting.induction generalizing s with
  | _ t ih =>
    by_cases hne : t = s
    · refine ⟨1, ?_⟩
      rw [seekSubtype, if_pos hne, hne, w.isSubtype_refl]
    · rcases w.components_or t s with ⟨a, b, ha, hb⟩ | other
      · obtain ⟨fuel, hfuel⟩ := ih a ha b
        refine ⟨fuel + 1, ?_⟩
        rw [isSubtype_of_components ha hb, ← hfuel]
        rw [h.component_eq] at ha hb
        exact seekSubtype_of_components hne ha hb
      · obtain ⟨fuel, found, hfound, hiff⟩ := h.climb_ends t s
        refine ⟨fuel + 1, ?_⟩
        rw [seekSubtype_of_none hne (by rwa [h.component_eq, h.component_eq] at other), hfound,
          Option.map_some, Option.some_inj, Bool.eq_iff_iff, hiff, h.wellFormed.isSubtype_iff other]

/-- The least order in which a type is below its supertype and its interfaces, and the array of a
type below the array of another if the one type is below the other. -/
inductive Below (w : World) : TypeRef → TypeRef → Prop where
  | refl (t : TypeRef) : Below w t t
  | trans {t s u : TypeRef} : Below w t s → Below w s u → Below w t u
  | superType {t s : TypeRef} : (w.typeDecl t).superType = some s → Below w t s
  | interface {t i : TypeRef} : i ∈ (w.typeDecl t).interfaces → Below w t i
  | arrays {t s a b : TypeRef} : (w.typeDecl t).component = some a →
      (w.typeDecl s).component = some b → Below w a b → Below w t s

theorem Built.below_of_leadsUp (h : w.Built) (hup : w.LeadsUp t s) : w.Below t s := by
  induction hup with
  | refl => exact .refl t
  | tail _ hnext ih =>
    refine ih.trans ?_
    rcases mem_parents_iff.mp hnext with hsuper | hinterface
    · exact .superType (h.superType_eq ▸ hsuper)
    · exact .interface hinterface

theorem Built.below_of_isSubtype (h : w.Built) (below : w.isSubtype t s = true) : w.Below t s := by
  induction t using w.finiteNesting.induction generalizing s with
  | _ t ih =>
    rcases w.components_or t s with ⟨a, b, ha, hb⟩ | other
    · rw [isSubtype_of_components ha hb] at below
      exact .arrays (h.component_eq ▸ ha) (h.component_eq ▸ hb) (ih a ha below)
    · exact h.below_of_leadsUp ((h.wellFormed.isSubtype_iff other).mp below)

theorem ArraysAreLeaves.isSubtype_of_below (leaves : w.ArraysAreLeaves) (h : w.Built)
    (below : w.Below t s) : w.isSubtype t s = true := by
  have right_above {t p : TypeRef} (hp : p ∈ w.parents t) : w.isSubtype t p = true :=
    h.isSubtype_of_mem_parents hp (.inr (leaves t p hp))
  induction below with
  | refl t => exact w.isSubtype_refl t
  | trans _ _ first second => exact leaves.isSubtype_trans h first second
  | superType hsuper => exact right_above (mem_parents_of_superType (h.superType_eq.trans hsuper))
  | interface hinterface => exact right_above (mem_parents_of_interfaces hinterface)
  | arrays ha hb _ ih =>
    rw [isSubtype_of_components (h.component_eq.trans ha) (h.component_eq.trans hb)]
    exact ih

/-- Types that are subtypes of each other are the same: ways up lead to older types, and there is
one array only of a component. -/
theorem Built.isSubtype_antisymm (h : w.Built) (down : w.isSubtype t s = true)
    (up : w.isSubtype s t = true) : t = s := by
  induction t using w.finiteNesting.induction generalizing s with
  | _ t ih =>
    rcases w.components_or t s with ⟨a, b, ha, hb⟩ | other
    · rw [isSubtype_of_components ha hb] at down
      rw [isSubtype_of_components hb ha] at up
      cases ih a ha down up
      exact Option.some.inj ((h.component_iff.mp ha).symm.trans (h.component_iff.mp hb))
    · have hdown := h.le_of_leadsUp ((h.wellFormed.isSubtype_iff other).mp down)
      have hup := h.le_of_leadsUp ((h.wellFormed.isSubtype_iff other.symm).mp up)
      exact congrArg TypeRef.mk (Nat.le_antisymm hup hdown)

/-- The test of subtypes ends although it takes no note of where it has been. Where no type is
declared below an array, it holds of two types exactly if declarations put the one below the other,
so that subtypes are an order. -/
theorem subtypes_are_as_declared (built : w.Built) (leaves : w.ArraysAreLeaves) :
    (∀ sub sup, ∃ fuel, w.seekSubtype fuel sub sup = some (w.isSubtype sub sup)) ∧
    (∀ sub sup, w.isSubtype sub sup = true ↔ w.Below sub sup) ∧
    (∀ t, w.isSubtype t t = true) ∧
    (∀ t s u, w.isSubtype t s = true → w.isSubtype s u = true → w.isSubtype t u = true) ∧
    ∀ t s, w.isSubtype t s = true → w.isSubtype s t = true → t = s := by
  refine ⟨built.seekSubtype_ends, fun sub sup => ⟨built.below_of_isSubtype, ?_⟩, w.isSubtype_refl,
    fun _ _ _ => leaves.isSubtype_trans built, fun _ _ => built.isSubtype_antisymm⟩
  exact leaves.isSubtype_of_below built

/-- The array of a class is below that of an interface that the class implements, and not the other
way round. -/
theorem subtypes_are_as_declared_of_woven :
    woven.Built ∧ woven.ArraysAreLeaves ∧ woven.Below ⟨7⟩ ⟨6⟩ ∧ ¬ woven.Below ⟨6⟩ ⟨7⟩ ∧
      ∃ fuel, woven.seekSubtype fuel ⟨6⟩ ⟨7⟩ = some false := by
  obtain ⟨ends, same, -, -, antisymm⟩ :=
    subtypes_are_as_declared built_woven wellSorted_woven.leaves
  have down : woven.isSubtype ⟨7⟩ ⟨6⟩ = true := isSubtype_woven.2
  have up : woven.isSubtype ⟨6⟩ ⟨7⟩ = false :=
    Bool.eq_false_iff.mpr fun up => absurd (antisymm ⟨7⟩ ⟨6⟩ down up) (by decide)
  refine ⟨built_woven, wellSorted_woven.leaves, (same _ _).mp down, fun below => ?_, ?_⟩
  · cases up.symm.trans ((same _ _).mpr below)
  · exact up ▸ ends ⟨6⟩ ⟨7⟩

end World

end Provenance
