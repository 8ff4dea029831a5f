import Mathlib.Data.List.Nodup
import Provenance.Proofs.Answers

/-!
When a query on the whole hierarchy has an answer. Such a query asks all concrete types below a
type. It names one of them if there are no others, and it names a procedure if there is someone to
ask, all name it and it is not abstract. Which of them is asked first makes no difference.
-/
namespace Provenance

/-- A list without repetition has one member exactly if that is all it has. -/
theorem eq_singleton_iff {α : Type} {l : List α} {a : α} (nodup : l.Nodup) :
    l = [a] ↔ ∀ b, b ∈ l ↔ b = a := by
  constructor
  · rintro rfl b
    exact List.mem_singleton
  · intro only
    have hperm : l.Perm [a] :=
      (List.perm_ext_iff_of_nodup nodup (List.nodup_singleton a)).mpr fun b =>
        (only b).trans List.mem_singleton.symm
    exact hperm.eq_singleton

namespace World

variable {w : World} {t s c : TypeRef} {p q : ProcRef} {lookup : TypeRef → Option ProcRef}

/-- A type that objects may be of, below another. -/
structure ConcreteBelow (w : World) (t s : TypeRef) : Prop where
  has : w.Has (.type s)
  isInterface : (w.typeDecl s).isInterface = false
  isAbstract : (w.typeDecl s).isAbstract = false
  component : (w.typeDecl s).component = none
  isSubtype : w.isSubtype s t = true

/-- There are concrete types below a type, they all come to the same procedure, and that can be
called. -/
structure AgreeOn (w : World) (t : TypeRef) (lookup : TypeRef → Option ProcRef) (p : ProcRef) :
    Prop where
  someone : ∃ s, w.ConcreteBelow t s
  everyone : ∀ s, w.ConcreteBelow t s → lookup s = some p
  isAbstract : (w.procDecl p).isAbstract = false

theorem nodup_typeRefs (w : World) : w.typeRefs.Nodup :=
  List.nodup_range.map fun _ _ h => congrArg TypeRef.index h

theorem mem_concreteSubtypes : s ∈ w.concreteSubtypes t ↔ w.ConcreteBelow t s := by
  rw [concreteSubtypes, List.mem_filter, mem_typeRefs]
  simp only [TypeDecl.isConcrete, TypeDecl.isArray, Bool.and_eq_true, Bool.not_eq_true',
    Option.isSome_eq_false_iff, Option.isNone_iff_eq_none]
  constructor
  · rintro ⟨has, ⟨⟨plain, concrete⟩, component⟩, below⟩
    exact ⟨has, plain, concrete, component, below⟩
  · rintro ⟨has, plain, concrete, component, below⟩
    exact ⟨has, ⟨⟨plain, concrete⟩, component⟩, below⟩

theorem singleConcreteSubtype_eq_some :
    w.singleConcreteSubtype t = some c ↔ w.concreteSubtypes t = [c] := by
  rw [singleConcreteSubtype]
  split
  · rename_i s hs
    rw [hs, Option.some_inj, List.cons.injEq, and_iff_left rfl]
  · rename_i other
    exact ⟨fun hc => (by cases hc), fun hc => absurd hc (other c)⟩

theorem unanimous_eq_some {answers : List (Option ProcRef)} :
    unanimous answers = some p ↔ answers ≠ [] ∧ ∀ a ∈ answers, a = some p := by
  cases answers with
  | nil => exact ⟨fun h => (by cases h), fun h => absurd rfl h.1⟩
  | cons first rest =>
    rw [unanimous, List.forall_mem_cons]
    constructor
    · intro h
      split at h
      · rename_i all
        refine ⟨List.cons_ne_nil _ _, h, fun a ha => ?_⟩
        exact (of_decide_eq_true (List.all_eq_true.mp all a ha)).trans h
      · cases h
    · rintro ⟨-, hfirst, hrest⟩
      rw [if_pos, hfirst]
      exact List.all_eq_true.mpr fun a ha => decide_eq_true ((hrest a ha).trans hfirst.symm)

theorem uniqueImplementation_eq_some :
    w.uniqueImplementation t lookup = some p ↔ w.AgreeOn t lookup p := by
  have someone : (w.concreteSubtypes t).map lookup ≠ [] ↔ ∃ s, w.ConcreteBelow t s := by
    rw [ne_eq, List.map_eq_nil_iff, List.eq_nil_iff_forall_not_mem]
    simp only [mem_concreteSubtypes, not_forall, not_not]
  rw [uniqueImplementation, Option.filter_eq_some_iff, unanimous_eq_some, someone,
    List.forall_mem_map, Bool.not_eq_true']
  simp only [mem_concreteSubtypes]
  exact ⟨fun ⟨⟨someone, everyone⟩, concrete⟩ => ⟨someone, everyone, concrete⟩,
    fun ⟨someone, everyone, concrete⟩ => ⟨⟨someone, everyone⟩, concrete⟩⟩

theorem singleAbstractImplementer_eq_some {slot : UInt32} :
    w.singleAbstractImplementer t slot = some p ↔
      (w.typeDecl t).isAbstract = true ∧
        (∃ q, w.slotOf t slot = some q ∧ (w.procDecl q).isAbstract = true) ∧
        w.singleImplementer t slot = some p := by
  rw [singleAbstractImplementer]
  cases habstract : (w.typeDecl t).isAbstract with
  | false => simp
  | true =>
    cases hslot : w.slotOf t slot with
    | none => simp
    | some q => cases hq : (w.procDecl q).isAbstract <;> simp [hq]

theorem singleInterfaceImplementer_eq_some {index : UInt32} {caller : ProcRef} :
    w.singleInterfaceImplementer t index caller = some p ↔
      (w.typeDecl t).isInterface = true ∧ ∃ owner name signature,
        w.entry (w.procDecl caller).owner index =
          some (.procedure owner name signature .interface) ∧
        w.uniqueImplementation t (fun s =>
          w.findProcedure s name signature fun d => !d.isStatic && !d.isAbstract) = some p := by
  rw [singleInterfaceImplementer]
  cases hinterface : (w.typeDecl t).isInterface with
  | false => simp
  | true =>
    cases hentry : w.entry (w.procDecl caller).owner index with
    | none => simp
    | some e =>
      cases e with
      | type | field => simp
      | procedure owner name signature dispatch =>
        cases dispatch with
        | static | special | virtual => simp
        | interface =>
          constructor
          · exact fun h => ⟨rfl, owner, name, signature, rfl, h⟩
          · rintro ⟨-, _, _, _, ⟨⟩, h⟩
            exact h

/-- What speculation on the whole hierarchy below a type answers: the one concrete type there is, or
the one procedure on which all concrete types agree. In all other cases there is no answer. -/
theorem speculation_answers_iff_all_agree (w : World) (t : TypeRef) :
    (∀ c, w.model.singleConcreteSubtype t = some c ↔ ∀ s, w.ConcreteBelow t s ↔ s = c) ∧
    (∀ slot caller p, w.model.singleImplementer t slot caller = some p ↔
      w.AgreeOn t (fun s => (w.typeDecl s).vtable[slot.toNat]?) p) ∧
    (∀ slot caller p, w.model.singleAbstractImplementer t slot caller = some p ↔
      (w.typeDecl t).isAbstract = true ∧
        (∃ q, (w.typeDecl t).vtable[slot.toNat]? = some q ∧ (w.procDecl q).isAbstract = true) ∧
        w.AgreeOn t (fun s => (w.typeDecl s).vtable[slot.toNat]?) p) ∧
    ∀ index caller p, w.model.singleInterfaceImplementer t index caller = some p ↔
      (w.typeDecl t).isInterface = true ∧ ∃ owner name signature,
        (w.typeDecl (w.procDecl caller).owner).entries[index.toNat]? =
          some (.procedure owner name signature .interface) ∧
        w.AgreeOn t (fun s =>
          w.findProcedure s name signature fun d => !d.isStatic && !d.isAbstract) p := by
  have implementer (slot : UInt32) (p : ProcRef) : w.singleImplementer t slot = some p ↔
      w.AgreeOn t (fun s => (w.typeDecl s).vtable[slot.toNat]?) p := uniqueImplementation_eq_some
  refine ⟨fun c => ?_, fun slot _ p => implementer slot p, fun slot _ p => ?_,
    fun index caller p => ?_⟩
  · have nodup : (w.concreteSubtypes t).Nodup := w.nodup_typeRefs.filter _
    exact (singleConcreteSubtype_eq_some.trans (eq_singleton_iff nodup)).trans
      (forall_congr' fun s => by rw [mem_concreteSubtypes])
  · rw [← implementer]
    exact singleAbstractImplementer_eq_some
  · simp only [← uniqueImplementation_eq_some]
    exact singleInterfaceImplementer_eq_some

end World

end Provenance
