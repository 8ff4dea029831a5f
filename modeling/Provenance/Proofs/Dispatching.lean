import Provenance.Proofs.Overriding
import Provenance.Proofs.Owners
import Provenance.Proofs.Verdicts

/-!
What is in a dispatch table. A table is written bit by bit: a type starts with the table its
supertype has at that moment, and each procedure that is defined on it goes into the table. As long
as a type has all its procedures before it has subtypes, the table of a class holds for each name
and signature the procedure that going up from the class meets first, and a slot means the same all
the way up.
-/
namespace Provenance

/-- The declaration of a procedure that goes into a slot, or into none. -/
def ProcSpec.decl (spec : ProcSpec) (slot : Option Nat) : ProcDecl where
  name := spec.name
  signature := spec.signature
  owner := spec.owner
  isStatic := spec.isStatic
  isAbstract := spec.isAbstract
  isPrivate := spec.isPrivate
  maySkipFrames := spec.maySkipFrames
  slot := slot

namespace World

variable {w w' : World} {t s u : TypeRef} {p q : ProcRef} {name signature : String}

/-- The worlds that are built in order: no procedure is defined on a type that has subtypes by then,
the type of types apart, which is there from the start. -/
inductive Orderly : World → Prop where
  | fresh : Orderly fresh
  | newContext {w : World} : Orderly w → Orderly w.newContext.2
  | defineType {w : World} (spec : TypeSpec) : Orderly w →
      (∀ s, spec.superType = some s → w.Has (.type s)) →
      (∀ i ∈ spec.interfaces, w.Has (.type i)) → Orderly (w.defineType spec).2
  | arrayOf {w : World} (t : TypeRef) : Orderly w → w.Has (.type t) → Orderly (w.arrayOf t).2
  | rename {w : World} (t : TypeRef) (name : String) : Orderly w → w.Has (.type t) →
      Orderly (w.rename t name)
  | markInitialized {w : World} (t : TypeRef) (value : Bool) : Orderly w → w.Has (.type t) →
      Orderly (w.markInitialized t value)
  | addEntry {w : World} (t : TypeRef) (e : Entry) : Orderly w → w.Has (.type t) →
      Orderly (w.addEntry t e).2
  | defineProcedure {w : World} (spec : ProcSpec) : Orderly w → w.Has (.type spec.owner) →
      (∀ t, spec.owner ∈ w.superChain t → t = spec.owner ∨ t = metaType) →
      Orderly (w.defineProcedure spec).2
  | setMaySkipFrames {w : World} (p : ProcRef) (value : Bool) : Orderly w →
      w.Has (.procedure p) → Orderly (w.setMaySkipFrames p value)

theorem Orderly.built (h : w.Orderly) : w.Built := by
  induction h with
  | fresh => exact .fresh
  | newContext _ ih => exact ih.newContext
  | defineType spec _ superType interfaces ih => exact ih.defineType spec superType interfaces
  | arrayOf t _ ht ih => exact ih.arrayOf t ht
  | rename t name _ ht ih => exact ih.rename t name ht
  | markInitialized t value _ ht ih => exact ih.markInitialized t value ht
  | addEntry t e _ ht ih => exact ih.addEntry t e ht
  | defineProcedure spec _ ht _ ih => exact ih.defineProcedure spec ht
  | setMaySkipFrames p value _ hp ih => exact ih.setMaySkipFrames p value hp

/-- Calls are told apart by the name and the signature of what they call. -/
def key (w : World) (p : ProcRef) : String × String :=
  ((w.procDecl p).name, (w.procDecl p).signature)

theorem isNamed_eq (w : World) (p : ProcRef) (name signature : String) :
    (w.procDecl p).isNamed name signature = decide (w.key p = (name, signature)) := by
  rw [ProcDecl.isNamed, key, Bool.eq_iff_iff, Bool.and_eq_true, beq_iff_eq, beq_iff_eq,
    decide_eq_true_eq, Prod.mk.injEq]

/-- What a type itself declares for calls to be dispatched to, in the order of definition. -/
def dispatchable (w : World) (t : TypeRef) : List ProcRef :=
  (w.typeDecl t).procedures.filter fun p => (w.procDecl p).isDispatchable

/-- The table that a type starts with. -/
def inherited (w : World) (t : TypeRef) : List ProcRef :=
  match (w.typeDecl t).superType with
  | some s => (w.typeDecl s).vtable
  | none => []

/-- The table of a type is what it inherits with its own procedures put in, and these know their
slots. -/
structure Tabled (w : World) (t : TypeRef) : Prop where
  table : (w.typeDecl t).vtable = overrideAll w.key (w.inherited t) (w.dispatchable t)
  slots : ∀ p ∈ w.dispatchable t, ∃ i, (w.procDecl p).slot = some i ∧
    (w.typeDecl t).vtable.findIdx? (w.key · = w.key p) = some i

/-- Two declarations of a type that are the same for dispatch. -/
structure SameTable (d d' : TypeDecl) : Prop where
  superType : d'.superType = d.superType
  isInterface : d'.isInterface = d.isInterface
  procedures : d'.procedures = d.procedures
  vtable : d'.vtable = d.vtable

theorem SameTable.refl (d : TypeDecl) : SameTable d d := ⟨rfl, rfl, rfl, rfl⟩

theorem sameTable_modifyType {f : TypeDecl → TypeDecl} (same : ∀ d, SameTable d (f d))
    (t : TypeRef) : SameTable (w.typeDecl t) ((w.modifyType u f).typeDecl t) := by
  rw [typeDecl_modifyType]
  split
  · exact same _
  · exact .refl _

/-- Two declarations of a procedure that are the same for dispatch. -/
structure SameCall (d d' : ProcDecl) : Prop where
  name : d'.name = d.name
  signature : d'.signature = d.signature
  isDispatchable : d'.isDispatchable = d.isDispatchable
  slot : d'.slot = d.slot

theorem SameCall.refl (d : ProcDecl) : SameCall d d := ⟨rfl, rfl, rfl, rfl⟩

theorem SameCall.key_eq (h : SameCall (w.procDecl p) (w'.procDecl p)) : w'.key p = w.key p := by
  rw [key, key, h.name, h.signature]

section SameProcedures

variable (wf : w.WellFormed)
  (procedures : ∀ p, w.Has (.procedure p) → SameCall (w.procDecl p) (w'.procDecl p))
include wf procedures

theorem key_of_mem_vtable (hp : p ∈ (w.typeDecl t).vtable) : w'.key p = w.key p :=
  (procedures p ((wf.covers t).vtable p hp)).key_eq

theorem key_of_mem_inherited (hp : p ∈ w.inherited t) : w'.key p = w.key p := by
  rw [inherited] at hp
  split at hp
  · exact key_of_mem_vtable wf procedures hp
  · cases hp

theorem sameCall_of_mem_dispatchable (hp : p ∈ w.dispatchable t) :
    SameCall (w.procDecl p) (w'.procDecl p) :=
  procedures p ((wf.covers t).procedures p (List.mem_of_mem_filter hp))

theorem filter_isDispatchable :
    (w.typeDecl t).procedures.filter (fun p => (w'.procDecl p).isDispatchable) =
      w.dispatchable t :=
  List.filter_congr fun p hp => (procedures p ((wf.covers t).procedures p hp)).isDispatchable

theorem overrideAll_inherited : overrideAll w'.key (w.inherited t) (w.dispatchable t) =
    overrideAll w.key (w.inherited t) (w.dispatchable t) :=
  overrideAll_congr (fun _ hp => key_of_mem_inherited wf procedures hp)
    fun _ hp => (sameCall_of_mem_dispatchable wf procedures hp).key_eq

/-- A type whose table and whose supertype's table are left alone. -/
theorem Tabled.congr (h : w.Tabled t) (same : SameTable (w.typeDecl t) (w'.typeDecl t))
    (above : ∀ s, (w.typeDecl t).superType = some s →
      (w'.typeDecl s).vtable = (w.typeDecl s).vtable) :
    w'.Tabled t := by
  have hinherited : w'.inherited t = w.inherited t := by
    rw [inherited, inherited, same.superType]
    split
    · exact above _ ‹_›
    · rfl
  have hown : w'.dispatchable t = w.dispatchable t := by
    rw [dispatchable, same.procedures, filter_isDispatchable wf procedures]
  constructor
  · rw [same.vtable, hinherited, hown, overrideAll_inherited wf procedures]
    exact h.table
  · intro p hp
    rw [hown] at hp
    obtain ⟨i, hslot, hindex⟩ := h.slots p hp
    have call := sameCall_of_mem_dispatchable wf procedures hp
    refine ⟨i, call.slot.trans hslot, ?_⟩
    rw [same.vtable, call.key_eq, findIdx?_congr fun _ => key_of_mem_vtable wf procedures]
    exact hindex

end SameProcedures

/-- A step that leaves all tables and all calls alone. -/
theorem WellFormed.tabled_of_same (wf : w.WellFormed)
    (types : ∀ t, SameTable (w.typeDecl t) (w'.typeDecl t))
    (procedures : ∀ p, SameCall (w.procDecl p) (w'.procDecl p))
    (h : (w.typeDecl t).isInterface = false → w.Tabled t)
    (class' : (w'.typeDecl t).isInterface = false) : w'.Tabled t :=
  (h ((types t).isInterface ▸ class')).congr wf (fun p _ => procedures p) (types t) fun s _ =>
    (types s).vtable

/-- A step that adds a type, and may then mark types in ways that do not count. -/
theorem WellFormed.tabled_of_added (wf : w.WellFormed) {d : TypeDecl}
    (superType : ∀ s, d.superType = some s → w.Has (.type s)) (none : d.procedures = [])
    (bare : d.vtable = []) (types : ∀ t, SameTable ((w.addType d).2.typeDecl t) (w'.typeDecl t))
    (procedures : ∀ p, SameCall (w.procDecl p) (w'.procDecl p))
    (h : (w.typeDecl t).isInterface = false → w.Tabled t)
    (class' : (w'.typeDecl t).isInterface = false) : w'.Tabled t := by
  have old {s : TypeRef} (hs : s.index ≠ w.types.size) :
      SameTable (w.typeDecl s) (w'.typeDecl s) := by
    have same := types s
    rwa [typeDecl_addType, if_neg hs] at same
  by_cases hnew : t.index = w.types.size
  · have new := types t
    rw [typeDecl_addType, if_pos hnew] at new
    have hown : w'.dispatchable t = [] := by
      rw [dispatchable, new.procedures, added, none, List.filter_nil]
    constructor
    · rw [hown, new.vtable, inherited, new.superType, added]
      cases hs : d.superType with
      | none => exact bare
      | some s =>
        -- The supertype is older, so its table is still what it was when it was copied.
        exact (old (Nat.ne_of_lt (superType s hs))).vtable.symm
    · rw [hown]
      intro p hp
      cases hp
  · refine (h ((old hnew).isInterface ▸ class')).congr wf (fun p _ => procedures p) (old hnew) ?_
    exact fun s hs => (old (Nat.ne_of_lt ((wf.covers t).superType s hs))).vtable

/-- The slot that a procedure gets when it is defined. -/
def slotOfNew (w : World) (spec : ProcSpec) : Option Nat :=
  if (spec.decl none).isDispatchable && !(w.typeDecl spec.owner).isInterface then
    some (w.slotFor (w.typeDecl spec.owner).vtable spec.name spec.signature)
  else none

theorem defineProcedure_world (w : World) (spec : ProcSpec) : (w.defineProcedure spec).2 =
    (w.addProcedure (spec.decl (w.slotOfNew spec))).modifyType spec.owner
      (declaring ⟨w.procedures.size⟩ (w.slotOfNew spec)) := rfl

theorem procDecl_new (w : World) (d : ProcDecl) :
    (w.addProcedure d).procDecl ⟨w.procedures.size⟩ = d := by
  rw [procDecl_addProcedure, if_pos rfl]

theorem sameCall_addProcedure (d : ProcDecl) (hp : w.Has (.procedure p)) :
    SameCall (w.procDecl p) ((w.addProcedure d).procDecl p) := by
  rw [procDecl_addProcedure, if_neg (Nat.ne_of_lt hp)]
  exact .refl _

/-- In the table of its class a new procedure has the slot of its key. -/
theorem WellFormed.slotOfNew_eq (wf : w.WellFormed) (spec : ProcSpec) (slot : Option Nat) :
    let v := w.addProcedure (spec.decl slot)
    let table := (w.typeDecl spec.owner).vtable
    w.slotOfNew spec =
      if (spec.decl none).isDispatchable && !(w.typeDecl spec.owner).isInterface then
        some ((table.findIdx? (v.key · = v.key ⟨w.procedures.size⟩)).getD table.length)
      else none := by
  intro v table
  have hkey : v.key ⟨w.procedures.size⟩ = (spec.name, spec.signature) := by
    rw [key, procDecl_new]
    rfl
  have hold : table.findIdx? (v.key · = (spec.name, spec.signature)) =
      table.findIdx? (w.key · = (spec.name, spec.signature)) :=
    findIdx?_congr fun _ => key_of_mem_vtable wf fun _ => sameCall_addProcedure _
  rw [slotOfNew, slotFor, hkey, hold]
  simp only [isNamed_eq]
  rfl

section Declaring

variable (ht : w.Has (.type t)) (p : ProcRef) (slot : Option Nat)
include ht

theorem typeDecl_declaring : (w.modifyType t (declaring p slot)).typeDecl t =
    declaring p slot (w.typeDecl t) := by
  rw [typeDecl_modifyType, if_pos ⟨rfl, ht⟩]

theorem dispatchable_declaring : (w.modifyType t (declaring p slot)).dispatchable t =
    w.dispatchable t ++ if (w.procDecl p).isDispatchable then [p] else [] := by
  rw [dispatchable, typeDecl_declaring ht]
  show ((w.typeDecl t).procedures ++ [p]).filter (fun p => (w.procDecl p).isDispatchable) = _
  rw [List.filter_append, List.filter_singleton, cond_eq_ite]
  rfl

theorem inherited_declaring (above : ∀ s, (w.typeDecl t).superType = some s → s ≠ t) :
    (w.modifyType t (declaring p slot)).inherited t = w.inherited t := by
  rw [inherited, inherited, typeDecl_declaring ht]
  show (match (w.typeDecl t).superType with | some s => _ | none => _) = _
  split
  · rename_i s hs
    rw [typeDecl_modifyType, if_neg fun both => above s hs both.1.symm]
  · rfl

end Declaring

/-- A class that declares one more procedure, which has the slot of its key if calls are dispatched
to it. -/
theorem Tabled.declaring (h : w.Tabled t) (ht : w.Has (.type t))
    (above : ∀ s, (w.typeDecl t).superType = some s → s ≠ t)
    (slot : (w.procDecl p).slot = if (w.procDecl p).isDispatchable then
        some (((w.typeDecl t).vtable.findIdx? (w.key · = w.key p)).getD
          (w.typeDecl t).vtable.length)
      else none) :
    (w.modifyType t (World.declaring p (w.procDecl p).slot)).Tabled t := by
  have decl := typeDecl_declaring ht p (w.procDecl p).slot
  have hinherited := inherited_declaring ht p (w.procDecl p).slot above
  have hown := dispatchable_declaring ht p (w.procDecl p).slot
  by_cases dispatched : (w.procDecl p).isDispatchable = true
  · rw [if_pos dispatched] at hown slot
    have hvtable : ((w.modifyType t (World.declaring p (w.procDecl p).slot)).typeDecl t).vtable =
        override w.key (w.typeDecl t).vtable p := by
      rw [decl, slot]
      exact place_findIdx? _ p
    constructor
    · rw [hvtable, hinherited, hown, overrideAll_concat]
      exact congrArg (override w.key · p) h.table
    · intro q hq
      rw [hown] at hq
      rw [hvtable]
      rcases List.mem_append.mp hq with hold | hnew
      · -- The keys of the old table come first in those of the new one.
        obtain ⟨i, hslot, hindex⟩ := h.slots q hold
        exact ⟨i, hslot, findIdx?_of_isPrefix (keys_override_isPrefix _ _ _) hindex⟩
      · rw [List.mem_singleton.mp hnew]
        exact ⟨_, slot, findIdx?_override _ _ _⟩
  · rw [if_neg dispatched] at hown slot
    rw [List.append_nil] at hown
    have hvtable : ((w.modifyType t (World.declaring p (w.procDecl p).slot)).typeDecl t).vtable =
        (w.typeDecl t).vtable := by
      rw [decl, slot]
      rfl
    constructor
    · rw [hvtable, hinherited, hown]
      exact h.table
    · rw [hvtable, hown]
      exact h.slots

/-- A change to a type that is neither the one with the table nor its supertype. -/
theorem Tabled.modifyOther (h : w.Tabled t) (wf : w.WellFormed) {f : TypeDecl → TypeDecl}
    (other : t ≠ u) (above : ∀ s, (w.typeDecl t).superType = some s → s ≠ u) :
    (w.modifyType u f).Tabled t := by
  have decl {s : TypeRef} (hs : s ≠ u) : (w.modifyType u f).typeDecl s = w.typeDecl s := by
    rw [typeDecl_modifyType, if_neg fun both => hs both.1.symm]
  exact h.congr wf (fun _ _ => .refl _) (decl other ▸ .refl _) fun s hs =>
    congrArg TypeDecl.vtable (decl (above s hs))

theorem Built.tabled_defineProcedure (built : w.Built) {spec : ProcSpec}
    (ht : w.Has (.type spec.owner))
    (alone : ∀ t, spec.owner ∈ w.superChain t → t = spec.owner ∨ t = metaType)
    (other : t ≠ metaType) (h : (w.typeDecl t).isInterface = false → w.Tabled t)
    (class' : ((w.defineProcedure spec).2.typeDecl t).isInterface = false) :
    (w.defineProcedure spec).2.Tabled t := by
  have wf := built.wellFormed
  let v := w.addProcedure (spec.decl (w.slotOfNew spec))
  have new : v.procDecl ⟨w.procedures.size⟩ = spec.decl (w.slotOfNew spec) := procDecl_new w _
  have class'' : (w.typeDecl t).isInterface = false := by
    rw [defineProcedure_world, typeDecl_modifyType] at class'
    split at class' <;> exact class'
  have hv : v.Tabled t :=
    (h class'').congr wf (fun _ => sameCall_addProcedure _) (.refl _) fun _ _ => rfl
  have above (s : TypeRef) (hs : (w.typeDecl t).superType = some s) : w.superType t = some s :=
    built.superType_eq.trans hs
  rw [defineProcedure_world]
  by_cases howner : t = spec.owner
  · subst howner
    have hslot := wf.slotOfNew_eq spec (w.slotOfNew spec)
    rw [class'', Bool.not_false, Bool.and_true] at hslot
    have older (s : TypeRef) (hs : (w.typeDecl spec.owner).superType = some s) : s ≠ spec.owner :=
      fun same => Nat.ne_of_lt (w.superType_lt (above s hs)) (congrArg TypeRef.index same)
    have declared := hv.declaring (p := ⟨w.procedures.size⟩) ht older (by rw [new]; exact hslot)
    rw [new] at declared
    exact declared
  · refine hv.modifyOther (wf.addProcedure ht) howner fun s hs same => ?_
    -- A supertype of another class is not the owner, which would have a subtype already.
    have hmem : spec.owner ∈ w.superChain t := by
      rw [superChain_of_some (above s hs), ← same]
      exact List.mem_cons_of_mem t (w.self_mem_superChain s)
    exact (alone t hmem).elim howner other

theorem Orderly.tabled (h : w.Orderly) (other : t ≠ metaType)
    (class' : (w.typeDecl t).isInterface = false) : w.Tabled t := by
  induction h generalizing t with
  | fresh =>
    rcases t with ⟨_ | _ | n⟩
    · exact ⟨rfl, nofun⟩
    · exact absurd rfl other
    · exact ⟨rfl, nofun⟩
  | newContext orderly ih =>
    exact orderly.built.wellFormed.tabled_of_same (fun _ => .refl _) (fun _ => .refl _) (ih other)
      class'
  | defineType spec orderly superType _ ih =>
    have wf := orderly.built.wellFormed
    exact wf.tabled_of_added (has_superType_of_spec wf.rootType superType) rfl rfl
      (fun _ => .refl _) (fun _ => .refl _) (ih other) class'
  | arrayOf c orderly _ ih =>
    rw [World.arrayOf] at class' ⊢
    split at class'
    · exact ih other class'
    · have wf := orderly.built.wellFormed
      refine wf.tabled_of_added ?_ rfl rfl (sameTable_modifyType fun _ => ⟨rfl, rfl, rfl, rfl⟩)
        (fun _ => .refl _) (ih other) class'
      rintro s ⟨⟩
      exact wf.rootType
  | rename u name orderly _ ih =>
    refine orderly.built.wellFormed.tabled_of_same (fun s => ?_) (fun _ => .refl _) (ih other)
      class'
    rw [typeDecl_rename]
    split
    · exact ⟨rfl, rfl, rfl, rfl⟩
    · exact .refl _
  | markInitialized _ _ orderly _ ih | addEntry _ _ orderly _ ih =>
    exact orderly.built.wellFormed.tabled_of_same
      (sameTable_modifyType fun _ => ⟨rfl, rfl, rfl, rfl⟩) (fun _ => .refl _) (ih other) class'
  | defineProcedure spec orderly ht alone ih =>
    exact orderly.built.tabled_defineProcedure ht alone other (ih other) class'
  | setMaySkipFrames p value orderly _ ih =>
    refine orderly.built.wellFormed.tabled_of_same (fun _ => .refl _) (fun q => ?_) (ih other)
      class'
    rw [World.setMaySkipFrames, procDecl_modifyProcedure]
    split
    · exact ⟨rfl, rfl, rfl, rfl⟩
    · exact .refl _

/-- The last procedure of a name and signature that a type itself declares for calls to be
dispatched to. -/
def lastDispatchable (w : World) (name signature : String) (t : TypeRef) : Option ProcRef :=
  ((w.typeDecl t).procedures.filter fun p =>
    (w.procDecl p).isDispatchable && (w.procDecl p).isNamed name signature).getLast?

/-- The last that the nearest type declares, going up, of those that declare one at all. -/
def nearestDispatchable (w : World) (t : TypeRef) (name signature : String) : Option ProcRef :=
  (w.superChain t).findSome? (w.lastDispatchable name signature)

theorem lastDispatchable_eq (w : World) (name signature : String) (t : TypeRef) :
    w.lastDispatchable name signature t =
      ((w.dispatchable t).filter (w.key · = (name, signature))).getLast? := by
  rw [lastDispatchable, dispatchable, List.filter_filter]
  simp only [isNamed_eq, Bool.and_comm]

theorem isSome_nearestDispatchable (hs : s ∈ w.superChain t) (hp : p ∈ (w.typeDecl s).procedures)
    (dispatched : (w.procDecl p).isDispatchable = true)
    (named : (w.procDecl p).isNamed name signature = true) :
    (w.nearestDispatchable t name signature).isSome := by
  rw [nearestDispatchable, List.findSome?_isSome_iff]
  refine ⟨s, hs, ?_⟩
  rw [lastDispatchable, List.getLast?_isSome]
  exact List.ne_nil_of_mem (List.mem_filter.mpr ⟨hp, by rw [dispatched, named]; rfl⟩)

section Classes

variable (orderly : w.Orderly) (apart : metaType ∉ w.superChain t)
  (classes : ∀ s ∈ w.superChain t, (w.typeDecl s).isInterface = false)
include orderly apart classes

theorem Orderly.tabled_of_classes : w.Tabled t :=
  orderly.tabled (fun same => apart (same ▸ w.self_mem_superChain t))
    (classes t (w.self_mem_superChain t))

/-- The table of a class, and what holds of the class above it, if there is one. -/
theorem Orderly.table_cases {P : TypeRef → Prop}
    (root : ∀ t, w.superChain t = [t] →
      (w.typeDecl t).vtable = overrideAll w.key [] (w.dispatchable t) → P t)
    (step : ∀ t s, w.superChain t = t :: w.superChain s →
      (w.typeDecl t).vtable = overrideAll w.key (w.typeDecl s).vtable (w.dispatchable t) →
      P s → P t) :
    P t := by
  induction t using superChain.induct w with
  | case1 t ih =>
    have table := (orderly.tabled_of_classes apart classes).table
    cases hsuper : w.superType t with
    | none =>
      rw [inherited, ← orderly.built.superType_eq, hsuper] at table
      exact root t (superChain_of_none hsuper) table
    | some s =>
      have chain := superChain_of_some hsuper
      rw [inherited, ← orderly.built.superType_eq, hsuper] at table
      rw [chain] at apart classes
      exact step t s chain table (ih s hsuper (fun hmeta => apart (List.mem_cons_of_mem t hmeta))
        fun u hu => classes u (List.mem_cons_of_mem t hu))

/-- Under a name and signature a table has what going up meets first. -/
theorem Orderly.find?_vtable (name signature : String) :
    (w.typeDecl t).vtable.find? (w.key · = (name, signature)) =
      w.nearestDispatchable t name signature := by
  refine orderly.table_cases apart classes (P := fun t => (w.typeDecl t).vtable.find?
    (w.key · = (name, signature)) = w.nearestDispatchable t name signature) ?_ ?_
  · intro t chain table
    rw [table, find?_overrideAll, nearestDispatchable, chain, List.findSome?_cons,
      lastDispatchable_eq]
    cases (List.filter _ (w.dispatchable t)).getLast? <;> rfl
  · intro t s chain table above
    rw [table, find?_overrideAll, above, nearestDispatchable, nearestDispatchable, chain,
      List.findSome?_cons, lastDispatchable_eq]
    cases (List.filter _ (w.dispatchable t)).getLast? <;> rfl

theorem Orderly.nodup_vtable : ((w.typeDecl t).vtable.map w.key).Nodup := by
  refine orderly.table_cases apart classes
    (P := fun t => ((w.typeDecl t).vtable.map w.key).Nodup) ?_ ?_
  · intro t _ table
    rw [table]
    exact nodup_overrideAll List.nodup_nil
  · intro t s _ table above
    rw [table]
    exact nodup_overrideAll above

/-- A table has the keys of each table above it, in the same slots. -/
theorem Orderly.keys_isPrefix (hs : s ∈ w.superChain t) :
    (w.typeDecl s).vtable.map w.key <+: (w.typeDecl t).vtable.map w.key := by
  refine orderly.table_cases apart classes (P := fun t => ∀ s ∈ w.superChain t,
    (w.typeDecl s).vtable.map w.key <+: (w.typeDecl t).vtable.map w.key) ?_ ?_ s hs
  · intro t chain _ s hs
    rw [chain, List.mem_singleton] at hs
    subst hs
    exact List.prefix_refl _
  · intro t u chain table above s hs
    rw [chain, List.mem_cons] at hs
    rcases hs with rfl | hs
    · exact List.prefix_refl _
    · rw [table]
      exact (above s hs).trans (keys_overrideAll_isPrefix _ _ _)

end Classes

/-- In a world that is built in order, for a class that has only classes above it and is none of the
types of types: each name and signature that the class or one above it declares for calls to be
dispatched to has exactly one slot, and in it is the nearest such procedure; there is nothing else
in the table; the slots of a table above are for the same names and signatures; and a procedure of
the class knows its slot. -/
theorem dispatch_follows_declarations (orderly : w.Orderly) (apart : metaType ∉ w.superChain t)
    (classes : ∀ s ∈ w.superChain t, (w.typeDecl s).isInterface = false) :
    (∀ name signature, ∀ s ∈ w.superChain t, ∀ q ∈ (w.typeDecl s).procedures,
      (w.procDecl q).isDispatchable = true → (w.procDecl q).isNamed name signature = true →
      ∃ (i : Nat) (p : ProcRef), w.nearestDispatchable t name signature = some p ∧
        (w.typeDecl t).vtable[i]? = some p ∧
        ∀ (j : Nat) (r : ProcRef), (w.typeDecl t).vtable[j]? = some r →
          (w.procDecl r).isNamed name signature = true → j = i) ∧
    (∀ p ∈ (w.typeDecl t).vtable,
      w.nearestDispatchable t (w.procDecl p).name (w.procDecl p).signature = some p) ∧
    (∀ s ∈ w.superChain t, ∀ (i : Nat) (q : ProcRef), (w.typeDecl s).vtable[i]? = some q →
      ∃ p, (w.typeDecl t).vtable[i]? = some p ∧ (w.procDecl p).name = (w.procDecl q).name ∧
        (w.procDecl p).signature = (w.procDecl q).signature) ∧
    ∀ p ∈ (w.typeDecl t).procedures, (w.procDecl p).isDispatchable = true →
      (w.procDecl p).owner = t ∧ ∃ i, (w.procDecl p).slot = some i ∧
        (w.typeDecl (w.procDecl p).owner).vtable.findIdx? (fun q =>
          (w.procDecl q).isNamed (w.procDecl p).name (w.procDecl p).signature) = some i := by
  have find := orderly.find?_vtable apart classes
  have nodup := orderly.nodup_vtable apart classes
  refine ⟨?_, ?_, ?_, ?_⟩
  · intro name signature s hs q hq dispatched named
    obtain ⟨p, hp⟩ :=
      Option.isSome_iff_exists.mp (isSome_nearestDispatchable hs hq dispatched named)
    have hfind := (find name signature).trans hp
    obtain ⟨i, hi⟩ := List.getElem?_of_mem (List.mem_of_find?_eq_some hfind)
    refine ⟨i, p, hp, hi, fun j r hj hr => index_unique nodup hi hj ?_⟩
    have hkey : w.key p = (name, signature) := by simpa using List.find?_some hfind
    rw [isNamed_eq] at hr
    exact (of_decide_eq_true hr).trans hkey.symm
  · intro p hp
    exact (find _ _).symm.trans (find?_of_mem nodup hp)
  · intro s hs i q hi
    have hkey := getElem?_of_front (orderly.keys_isPrefix apart classes hs)
      (show ((w.typeDecl s).vtable.map w.key)[i]? = some (w.key q) by
        rw [List.getElem?_map, hi, Option.map_some])
    rw [List.getElem?_map, Option.map_eq_some_iff] at hkey
    obtain ⟨p, hp, same⟩ := hkey
    exact ⟨p, hp, congrArg Prod.fst same, congrArg Prod.snd same⟩
  · intro p hp dispatched
    have howner := orderly.built.owns t p hp
    obtain ⟨i, hslot, hindex⟩ := (orderly.tabled_of_classes apart classes).slots p
      (List.mem_filter.mpr ⟨hp, dispatched⟩)
    refine ⟨howner, i, hslot, ?_⟩
    rw [howner]
    simp only [isNamed_eq]
    exact hindex

/-- What no type has for its supertype has no subtype but itself. -/
theorem alone_of_types (childless : ∀ t ∈ w.typeRefs, w.superType t ≠ some s) :
    ∀ t, s ∈ w.superChain t → t = s := by
  intro t hs
  rcases Relation.ReflTransGen.cases_tail (mem_superChain_iff.mp hs) with same | ⟨u, -, hsuper⟩
  · exact same.symm
  · have hu : u ∈ w.typeRefs := mem_typeRefs.mpr (has_of_parents (mem_parents_of_superType hsuper))
    exact absurd hsuper (childless u hu)

/-- A procedure that may be called on the objects of a type, unless it is static. -/
def withProcedure (w : World) (owner : TypeRef) (name : String) (isStatic isPrivate : Bool) :
    World :=
  (w.defineProcedure ⟨owner, name, "()", isStatic, false, isPrivate, false⟩).2

theorem Orderly.withType (h : w.Orderly) (name : String) (superType : Option TypeRef)
    (has : ∀ s, superType = some s → w.Has (.type s)) :
    (w.withType name false superType []).Orderly :=
  .defineType _ h has fun _ hi => by cases hi

theorem Orderly.withProcedure (h : w.Orderly) {owner : TypeRef} (name : String)
    (isStatic isPrivate : Bool) (has : w.Has (.type owner))
    (childless : ∀ t ∈ w.typeRefs, w.superType t ≠ some owner) :
    (w.withProcedure owner name isStatic isPrivate).Orderly :=
  .defineProcedure _ h has fun t above => .inl (alone_of_types childless t above)

/-- A class with procedures of every sort, of which a class below it overrides one twice and hides
another from dispatch. -/
def overridden : World :=
  let w := fresh.withType "Shape" false none []
  let w := w.withProcedure ⟨2⟩ "area" false false
  let w := w.withProcedure ⟨2⟩ "unit" true false
  let w := w.withProcedure ⟨2⟩ "cache" false true
  let w := w.withProcedure ⟨2⟩ "name" false false
  let w := w.withType "Circle" false (some ⟨2⟩) []
  let w := w.withProcedure ⟨3⟩ "name" false true
  let w := w.withProcedure ⟨3⟩ "area" false false
  let w := w.withProcedure ⟨3⟩ "radius" false false
  w.withProcedure ⟨3⟩ "area" false false

theorem orderly_overridden : overridden.Orderly :=
  Orderly.fresh
    |>.withType _ none nofun
    |>.withProcedure _ _ _ (by decide) (by decide)
    |>.withProcedure _ _ _ (by decide) (by decide)
    |>.withProcedure _ _ _ (by decide) (by decide)
    |>.withProcedure _ _ _ (by decide) (by decide)
    |>.withType _ (some ⟨2⟩) (by decide)
    |>.withProcedure _ _ _ (by decide) (by decide)
    |>.withProcedure _ _ _ (by decide) (by decide)
    |>.withProcedure _ _ _ (by decide) (by decide)
    |>.withProcedure _ _ _ (by decide) (by decide)

/-- The class below finds its own last procedure in the slot that the class above it gave away, and
the inherited procedure where its own is private. -/
theorem dispatch_follows_declarations_of_overridden :
    overridden.Orderly ∧ metaType ∉ overridden.superChain ⟨3⟩ ∧
      (∀ s ∈ overridden.superChain ⟨3⟩, (overridden.typeDecl s).isInterface = false) ∧
      (overridden.typeDecl ⟨3⟩).vtable = [⟨7⟩, ⟨3⟩, ⟨6⟩] ∧
      overridden.nearestDispatchable ⟨3⟩ "area" "()" = some ⟨7⟩ ∧
      overridden.nearestDispatchable ⟨3⟩ "name" "()" = some ⟨3⟩ := by
  have root : overridden.superChain ⟨0⟩ = [⟨0⟩] := superChain_of_none rfl
  have chain : overridden.superChain ⟨3⟩ = [⟨3⟩, ⟨2⟩, ⟨0⟩] := by
    rw [superChain_of_some (s := ⟨2⟩) rfl, superChain_of_some (s := ⟨0⟩) rfl, root]
  have table : (overridden.typeDecl ⟨3⟩).vtable = [⟨7⟩, ⟨3⟩, ⟨6⟩] := by decide
  have apart : metaType ∉ overridden.superChain ⟨3⟩ := by
    rw [chain]
    decide
  have classes : ∀ s ∈ overridden.superChain ⟨3⟩, (overridden.typeDecl s).isInterface = false := by
    rw [chain]
    decide
  obtain ⟨-, only, -, -⟩ := dispatch_follows_declarations orderly_overridden apart classes
  rw [table] at only
  exact ⟨orderly_overridden, apart, classes, table, only ⟨7⟩ (by decide), only ⟨3⟩ (by decide)⟩

end World

end Provenance
