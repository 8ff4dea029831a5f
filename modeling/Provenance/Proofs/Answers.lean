import Provenance.Proofs.Building

/-!
What a well formed world answers. Every answer is something the world has, whatever is asked,
for it is read off a declaration or the names, or it is one of the types themselves.
-/
namespace Provenance.World.WellFormed

variable {w : World} {t s : TypeRef} {p : ProcRef} {name signature : String} {index : UInt32}

theorem has_superType (h : w.WellFormed) (hs : w.superType t = some s) : w.Has (.type s) :=
  (h.covers t).superType s (Option.filter_eq_some_iff.mp hs).1

theorem has_component (h : w.WellFormed) (hs : w.component t = some s) : w.Has (.type s) :=
  (h.covers t).component s (Option.filter_eq_some_iff.mp hs).1

theorem has_superChain (h : w.WellFormed) (ht : w.Has (.type t)) :
    ∀ s ∈ w.superChain t, w.Has (.type s) := by
  fun_induction w.superChain t with
  | case1 t ih =>
    intro s hs
    rcases List.mem_cons.mp hs with rfl | hs
    · exact ht
    · split at hs
      · cases hs
      · rename_i u hu
        exact ih u hu (h.has_superType hu) s hs

theorem has_interfaces (h : w.WellFormed) : ∀ i ∈ w.interfaces t, w.Has (.type i) :=
  (h.covers t).interfaces

theorem has_parents (h : w.WellFormed) : ∀ s ∈ w.parents t, w.Has (.type s) := by
  intro s hs
  rcases List.mem_append.mp hs with hs | hs
  · exact h.has_superType (Option.mem_toList.mp hs)
  · exact h.has_interfaces s hs

theorem has_chainInterfaces (h : w.WellFormed) :
    ∀ i ∈ (w.superChain t).flatMap w.interfaces, w.Has (.type i) := by
  intro i hi
  obtain ⟨u, -, hu⟩ := List.mem_flatMap.mp hi
  exact h.has_interfaces i hu

theorem has_of_mem_concreteSubtypes (hs : s ∈ w.concreteSubtypes t) : w.Has (.type s) :=
  mem_typeRefs.mp (List.mem_filter.mp hs).1

theorem has_find_named (h : w.WellFormed) {accept : TypeRef → Bool}
    (ht : (w.named name).find? accept = some t) : w.Has (.type t) :=
  (h.named name t (List.mem_of_find?_eq_some ht)).1

theorem has_typeByName (h : w.WellFormed) (ht : w.typeByName s name = some t) :
    w.Has (.type t) := by
  rw [typeByName, Option.orElse_eq_orElse, Option.orElse_eq_or, Option.or_eq_some_iff] at ht
  rcases ht with ht | ⟨-, ht⟩
  · exact h.has_find_named ht
  · exact h.has_find_named ht

theorem has_declaringType (h : w.WellFormed) (hs : w.Has (.type s)) {isStatic : Option Bool}
    (ht : w.declaringType s name isStatic = some t) : w.Has (.type t) :=
  h.has_superChain hs t (List.mem_of_find?_eq_some ht)

theorem has_searchOrder (h : w.WellFormed) (ht : w.Has (.type t)) :
    ∀ s ∈ w.searchOrder t, w.Has (.type s) := by
  intro s hs
  rcases List.mem_append.mp hs with hs | hs
  · exact h.has_superChain ht s hs
  · exact (mem_walk_iff.mp hs).is_open.1

theorem has_findProcedure (h : w.WellFormed) {accept : ProcDecl → Bool}
    (hp : w.findProcedure t name signature accept = some p) : w.Has (.procedure p) := by
  obtain ⟨s, -, hs⟩ := List.exists_of_findSome?_eq_some hp
  exact (h.covers s).procedures p (List.mem_of_find?_eq_some hs)

theorem has_virtualProcedureAt (h : w.WellFormed) {offset : Int32} {ignore : Bool}
    (hp : w.virtualProcedureAt t offset ignore = some p) : w.Has (.procedure p) := by
  rw [virtualProcedureAt] at hp
  split at hp
  · cases hp
  · exact (h.covers t).vtable p (List.mem_of_getElem? (Option.filter_eq_some_iff.mp hp).1)

theorem has_entryProcedure (h : w.WellFormed) {dispatch : Dispatch}
    (hp : w.entryProcedure t index dispatch = some p) : w.Has (.procedure p) := by
  obtain ⟨e, -, he⟩ := Option.bind_eq_some_iff.mp hp
  split at he
  · split at he
    · obtain ⟨s, -, hs⟩ := Option.bind_eq_some_iff.mp he
      exact h.has_findProcedure hs
    · cases he
  · cases he

theorem has_entryInterfaceProcedure (h : w.WellFormed)
    (hp : w.entryInterfaceProcedure t s index = some p) : w.Has (.procedure p) := by
  obtain ⟨e, -, he⟩ := Option.bind_eq_some_iff.mp hp
  split at he
  · exact h.has_findProcedure he
  · cases he

theorem has_orElse_findProcedure (h : w.WellFormed) {accept : ProcDecl → Bool}
    (hp : (w.findProcedure t name signature accept <|>
      w.findProcedure s name signature accept) = some p) : w.Has (.procedure p) := by
  rw [Option.orElse_eq_orElse, Option.orElse_eq_or, Option.or_eq_some_iff] at hp
  rcases hp with hp | ⟨-, hp⟩
  · exact h.has_findProcedure hp
  · exact h.has_findProcedure hp

theorem has_entryImproperProcedure (h : w.WellFormed)
    (hp : w.entryImproperProcedure t index = some p) : w.Has (.procedure p) := by
  obtain ⟨e, -, he⟩ := Option.bind_eq_some_iff.mp hp
  split at he
  · obtain ⟨s, -, hs⟩ := Option.bind_eq_some_iff.mp he
    exact h.has_orElse_findProcedure (Option.filter_eq_some_iff.mp hs).1
  · cases he

theorem has_entryType (h : w.WellFormed) (ht : w.entryType s index = some t) :
    w.Has (.type t) := by
  obtain ⟨e, -, he⟩ := Option.bind_eq_some_iff.mp ht
  exact h.has_typeByName he

theorem has_entryDefiningType (h : w.WellFormed) {isStatic : Bool}
    (ht : w.entryDefiningType s index isStatic = some t) : w.Has (.type t) := by
  obtain ⟨e, -, he⟩ := Option.bind_eq_some_iff.mp ht
  split at he
  · split at he
    · obtain ⟨owner, howner, hdeclaring⟩ := Option.bind_eq_some_iff.mp he
      exact h.has_declaringType (h.has_typeByName howner) hdeclaring
    · cases he
  · cases he

theorem has_entryDeclaringType (h : w.WellFormed) (ht : w.entryDeclaringType s index = some t) :
    w.Has (.type t) := by
  obtain ⟨e, -, he⟩ := Option.bind_eq_some_iff.mp ht
  split at he
  · obtain ⟨owner, howner, hdeclaring⟩ := Option.bind_eq_some_iff.mp he
    exact h.has_declaringType (h.has_typeByName howner) hdeclaring
  · cases he

theorem has_entryDispatchType (h : w.WellFormed) (ht : w.entryDispatchType s index = some t) :
    w.Has (.type t) := by
  obtain ⟨e, -, he⟩ := Option.bind_eq_some_iff.mp ht
  split at he
  · exact h.has_typeByName (Option.filter_eq_some_iff.mp he).1
  · cases he

theorem has_entryStaticType (h : w.WellFormed) (ht : w.entryStaticType s index = some t) :
    w.Has (.type t) := by
  obtain ⟨e, -, he⟩ := Option.bind_eq_some_iff.mp ht
  split at he
  · obtain ⟨owner, howner, hdeclaring⟩ := Option.bind_eq_some_iff.mp he
    exact h.has_declaringType (h.has_typeByName howner) hdeclaring
  · obtain ⟨p, -, hp⟩ := Option.bind_eq_some_iff.mp he
    cases hp
    exact h.owner p
  · cases he

theorem mem_of_unanimous {answers : List (Option ProcRef)} (hp : unanimous answers = some p) :
    some p ∈ answers := by
  cases answers with
  | nil => cases hp
  | cons first rest =>
    rw [unanimous] at hp
    split at hp
    · rw [hp]
      exact List.mem_cons_self
    · cases hp

theorem lookup_of_uniqueImplementation {lookup : TypeRef → Option ProcRef}
    (hp : w.uniqueImplementation t lookup = some p) :
    ∃ s ∈ w.concreteSubtypes t, lookup s = some p :=
  List.mem_map.mp (mem_of_unanimous (Option.filter_eq_some_iff.mp hp).1)

theorem has_singleConcreteSubtype (ht : w.singleConcreteSubtype s = some t) :
    w.Has (.type t) := by
  rw [singleConcreteSubtype] at ht
  split at ht
  · rename_i u hsubtypes
    cases ht
    exact has_of_mem_concreteSubtypes (hsubtypes ▸ List.mem_cons_self)
  · cases ht

theorem has_singleImplementer (h : w.WellFormed) {slot : UInt32}
    (hp : w.singleImplementer t slot = some p) : w.Has (.procedure p) := by
  obtain ⟨s, -, hs⟩ := lookup_of_uniqueImplementation hp
  exact (h.covers s).vtable p (List.mem_of_getElem? hs)

theorem has_singleAbstractImplementer (h : w.WellFormed) {slot : UInt32}
    (hp : w.singleAbstractImplementer t slot = some p) : w.Has (.procedure p) := by
  rw [singleAbstractImplementer] at hp
  split at hp
  · cases hp
  · obtain ⟨declared, -, hrest⟩ := Option.bind_eq_some_iff.mp hp
    split at hrest
    · cases hrest
    · exact h.has_singleImplementer hrest

theorem has_singleInterfaceImplementer (h : w.WellFormed) {caller : ProcRef}
    (hp : w.singleInterfaceImplementer t index caller = some p) : w.Has (.procedure p) := by
  rw [singleInterfaceImplementer] at hp
  split at hp
  · cases hp
  · obtain ⟨e, -, he⟩ := Option.bind_eq_some_iff.mp hp
    split at he
    · obtain ⟨s, -, hs⟩ := lookup_of_uniqueImplementation he
      exact h.has_findProcedure hs
    · cases he

theorem has_typeOf (h : w.WellFormed) {rule : TypeRule TypeRef ProcRef}
    (ht : w.model.typeOf rule = some t) : w.Has (.type t) := by
  cases rule with
  | byName => exact h.has_typeByName ht
  | profiled | systemByName => exact h.has_find_named ht
  | fromEntry => exact h.has_entryType ht
  | definingFromEntry => exact h.has_entryDefiningType ht
  | staticFromEntry => exact h.has_entryStaticType ht
  | ownerOf p =>
    cases ht
    exact h.owner p
  | componentOf => exact h.has_component ht
  | arrayOf u => exact (h.covers u).array t ht
  | superOf => exact h.has_superType ht
  | fromDispatchEntry => exact h.has_entryDispatchType ht
  | declaringField => exact h.has_entryDeclaringType ht
  | metaOf =>
    cases ht
    exact h.metaType
  | concreteSubtypeOf => exact has_singleConcreteSubtype ht

theorem has_procedureOf (h : w.WellFormed) {rule : ProcRule TypeRef ProcRef}
    (hp : w.model.procedureOf rule = some p) : w.Has (.procedure p) := by
  cases rule with
  | declaredBy u => exact (h.covers u).procedures p (List.mem_of_getElem? hp)
  | staticFromEntry | specialFromEntry | virtualFromEntry => exact h.has_entryProcedure hp
  | virtualFromOffset => exact h.has_virtualProcedureAt hp
  | interfaceFromEntry => exact h.has_entryInterfaceProcedure hp
  | improperFromEntry => exact h.has_entryImproperProcedure hp
  | bySignature => exact h.has_findProcedure hp
  | singleImplementer => exact h.has_singleImplementer hp
  | singleInterfaceImplementer => exact h.has_singleInterfaceImplementer hp
  | singleAbstractImplementer => exact h.has_singleAbstractImplementer hp

end Provenance.World.WellFormed
