import Provenance.World.Model

/-!
Worlds as they are built. A world that was built by giving it handles of things it has holds
no other handles, so it has whatever a query may come across; and it lists every type under
the name that the type has.
-/
namespace Provenance

namespace World

variable {w w' : World} {t u : TypeRef} {p q : ProcRef} {x : Symbol}

/-- Whether the world has what a symbol stands for. -/
def Has (w : World) : Symbol → Prop
  | .type t => t.index < w.types.size
  | .procedure p => p.index < w.procedures.size

/-- The world has everything that the declaration of a type holds a handle of. -/
structure Covers (w : World) (d : TypeDecl) : Prop where
  superType : ∀ s, d.superType = some s → w.Has (.type s)
  interfaces : ∀ i ∈ d.interfaces, w.Has (.type i)
  component : ∀ c, d.component = some c → w.Has (.type c)
  array : ∀ a, d.array = some a → w.Has (.type a)
  procedures : ∀ p ∈ d.procedures, w.Has (.procedure p)
  vtable : ∀ p ∈ d.vtable, w.Has (.procedure p)

/-- Every handle that is held stands for something the world has, and names are told right. -/
structure WellFormed (w : World) : Prop where
  metaType : w.Has (.type metaType)
  covers : ∀ t, w.Covers (w.typeDecl t)
  owner : ∀ p, w.Has (.type (w.procDecl p).owner)
  named : ∀ name, ∀ t ∈ w.named name, w.Has (.type t) ∧ (w.typeDecl t).name = name

instance (w : World) : DecidablePred w.Has := fun x => by
  cases x <;> exact Nat.decLt _ _

theorem mem_typeRefs : t ∈ w.typeRefs ↔ w.Has (.type t) := by
  rw [typeRefs, List.mem_map]
  constructor
  · rintro ⟨i, hi, rfl⟩
    exact List.mem_range.mp hi
  · exact fun ht => ⟨t.index, List.mem_range.mpr ht, rfl⟩

/-- The declaration that a type gets when it is added. -/
def added (w : World) (d : TypeDecl) : TypeDecl :=
  { d with vtable := match d.superType with
    | some s => (w.typeDecl s).vtable
    | none => d.vtable }

theorem typeDecl_addType (w : World) (d : TypeDecl) (t : TypeRef) :
    (w.addType d).2.typeDecl t =
      if t.index = w.types.size then w.added d else w.typeDecl t := by
  show ((w.types.push (w.added d)).getD t.index (.plain "")) = _
  rw [Array.getD_eq_getD_getElem?, Array.getElem?_push]
  by_cases h : t.index = w.types.size
  · rw [if_pos h, if_pos h]
    rfl
  · rw [if_neg h, if_neg h, typeDecl, Array.getD_eq_getD_getElem?]

theorem typeDecl_modifyType (w : World) (u : TypeRef) (f : TypeDecl → TypeDecl) (t : TypeRef) :
    (w.modifyType u f).typeDecl t =
      if u = t ∧ w.Has (.type t) then f (w.typeDecl t) else w.typeDecl t := by
  simp only [modifyType, typeDecl, Array.getD_eq_getD_getElem?, Array.getElem?_modify]
  by_cases h : u = t
  · subst h
    by_cases hu : u.index < w.types.size
    · simp [Has, hu]
    · simp [Has, hu]
  · have hne : u.index ≠ t.index := fun he => h (by cases u; cases t; simpa using he)
    simp [h, hne]

theorem procDecl_modifyProcedure (w : World) (q : ProcRef) (f : ProcDecl → ProcDecl)
    (p : ProcRef) : (w.modifyProcedure q f).procDecl p =
      if q = p ∧ w.Has (.procedure p) then f (w.procDecl p) else w.procDecl p := by
  simp only [modifyProcedure, procDecl, Array.getD_eq_getD_getElem?, Array.getElem?_modify]
  by_cases h : q = p
  · subst h
    by_cases hq : q.index < w.procedures.size
    · simp [Has, hq]
    · simp [Has, hq]
  · have hne : q.index ≠ p.index := fun he => h (by cases q; cases p; simpa using he)
    simp [h, hne]

/-- A world with one more procedure, which no type declares yet. -/
def addProcedure (w : World) (d : ProcDecl) : World :=
  { w with procedures := w.procedures.push d }

theorem procDecl_addProcedure (w : World) (d : ProcDecl) (p : ProcRef) :
    (w.addProcedure d).procDecl p = if p.index = w.procedures.size then d else w.procDecl p := by
  rw [procDecl, addProcedure, Array.getD_eq_getD_getElem?, Array.getElem?_push]
  by_cases h : p.index = w.procedures.size
  · rw [if_pos h, if_pos h]
    rfl
  · rw [if_neg h, if_neg h, procDecl, Array.getD_eq_getD_getElem?]

/-- The declaration of a type once it declares a procedure, in a slot if it has one. -/
def declaring (p : ProcRef) (slot : Option Nat) (d : TypeDecl) : TypeDecl :=
  { d with
    procedures := d.procedures ++ [p]
    vtable := match slot with
      | some i => place d.vtable i p
      | none => d.vtable }

theorem mem_place {table : List ProcRef} {slot : Nat} (h : q ∈ place table slot p) :
    q ∈ table ∨ q = p := by
  rw [place] at h
  split at h
  · exact List.mem_or_eq_of_mem_set h
  · simpa using h

theorem defineProcedure_eq (w : World) (spec : ProcSpec) : ∃ d slot, d.owner = spec.owner ∧
    (w.defineProcedure spec).2 =
      (w.addProcedure d).modifyType spec.owner (declaring ⟨w.procedures.size⟩ slot) :=
  ⟨_, _, rfl, rfl⟩

theorem named_addName (w : World) (name : String) (t : TypeRef) (other : String) :
    (w.addName name t).named other =
      if other = name then w.named other ++ [t] else w.named other := by
  simp only [named, addName, Std.HashMap.getD_insert]
  by_cases h : other = name
  · simp [h]
  · simp [h, Ne.symm h]

theorem mem_named_addName {name other : String} :
    u ∈ (w.addName name t).named other ↔ u ∈ w.named other ∨ other = name ∧ u = t := by
  rw [named_addName]
  by_cases h : other = name
  · simp [h]
  · simp [h]

theorem named_removeName (w : World) (name : String) (t : TypeRef) (other : String) :
    (w.removeName name t).named other =
      if other = name then (w.named other).filter (· ≠ t) else w.named other := by
  show (if ((w.named name).filter (· ≠ t)).isEmpty then w.byName.erase name
    else w.byName.insert name ((w.named name).filter (· ≠ t))).getD other [] = _
  by_cases hempty : ((w.named name).filter (· ≠ t)).isEmpty
  · rw [if_pos hempty, Std.HashMap.getD_erase]
    by_cases h : other = name
    · subst h
      rw [if_pos rfl, List.isEmpty_iff.mp hempty]
      simp
    · simp [named, h, Ne.symm h]
  · rw [if_neg hempty, Std.HashMap.getD_insert]
    by_cases h : other = name
    · simp [h]
    · simp [named, h, Ne.symm h]

theorem typeDecl_rename (w : World) (t : TypeRef) (name : String) (u : TypeRef) :
    (w.rename t name).typeDecl u =
      if t = u ∧ w.Has (.type u) then { w.typeDecl u with name := name } else w.typeDecl u :=
  typeDecl_modifyType w t (fun d => { d with name := name }) u

theorem covers_plain (w : World) (name : String) : w.Covers (.plain name) where
  superType _ h := by cases h
  interfaces _ h := by cases h
  component _ h := by cases h
  array _ h := by cases h
  procedures _ h := by cases h
  vtable _ h := by cases h

theorem Has.mono (h : w.Has x) (types : w.types.size ≤ w'.types.size)
    (procedures : w.procedures.size ≤ w'.procedures.size) : w'.Has x := by
  cases x with
  | type t => exact Nat.lt_of_lt_of_le h types
  | procedure p => exact Nat.lt_of_lt_of_le h procedures

theorem Covers.mono {d : TypeDecl} (h : w.Covers d) (mono : ∀ x, w.Has x → w'.Has x) :
    w'.Covers d where
  superType s hs := mono _ (h.superType s hs)
  interfaces i hi := mono _ (h.interfaces i hi)
  component c hc := mono _ (h.component c hc)
  array a ha := mono _ (h.array a ha)
  procedures p hp := mono _ (h.procedures p hp)
  vtable p hp := mono _ (h.vtable p hp)

theorem has_addType (d : TypeDecl) (h : w.Has x) : (w.addType d).2.Has x := by
  refine h.mono ?_ (Nat.le_refl _)
  simp [addType, addName]

theorem has_modifyType {f : TypeDecl → TypeDecl} : (w.modifyType t f).Has x ↔ w.Has x := by
  cases x with
  | type u => simp [Has, modifyType]
  | procedure p => rfl

theorem has_rename {name : String} : (w.rename t name).Has x ↔ w.Has x := by
  cases x with
  | type u => simp [Has, rename, removeName, addName, modifyType]
  | procedure p => rfl

theorem has_modifyProcedure {f : ProcDecl → ProcDecl} :
    (w.modifyProcedure p f).Has x ↔ w.Has x := by
  cases x with
  | type u => rfl
  | procedure q => simp [Has, modifyProcedure]

theorem has_addProcedure (d : ProcDecl) (h : w.Has x) : (w.addProcedure d).Has x := by
  refine h.mono (Nat.le_refl _) ?_
  simp [addProcedure]

theorem has_new (w : World) (d : TypeDecl) : (w.addType d).2.Has (.type (w.addType d).1) := by
  simp [Has, addType, addName]

theorem Covers.added {d : TypeDecl} (h : w.WellFormed) (hd : w.Covers d) :
    w.Covers (w.added d) where
  superType := hd.superType
  interfaces := hd.interfaces
  component := hd.component
  array := hd.array
  procedures := hd.procedures
  vtable p hp := by
    cases hs : d.superType with
    | none => exact hd.vtable p (by simpa [World.added, hs] using hp)
    | some s => exact (h.covers s).vtable p (by simpa [World.added, hs] using hp)

/-- The supertype of a new type, which is the root if none is named. -/
theorem has_superType_of_spec {spec : TypeSpec} (root : w.Has (.type rootType))
    (superType : ∀ s, spec.superType = some s → w.Has (.type s)) (s : TypeRef)
    (hs : (spec.superType <|> if spec.isInterface then none else some rootType) = some s) :
    w.Has (.type s) := by
  rw [Option.orElse_eq_orElse, Option.orElse_eq_or, Option.or_eq_some_iff] at hs
  rcases hs with hspec | ⟨-, hroot⟩
  · exact superType s hspec
  · split at hroot
    · cases hroot
    · cases hroot
      exact root

namespace WellFormed

theorem rootType (h : w.WellFormed) : w.Has (.type rootType) :=
  Nat.lt_trans Nat.zero_lt_one h.metaType

theorem addType (h : w.WellFormed) {d : TypeDecl} (hd : w.Covers d) :
    (w.addType d).2.WellFormed where
  metaType := has_addType d h.metaType
  covers t := by
    rw [typeDecl_addType]
    split
    · exact (hd.added h).mono fun _ => has_addType d
    · exact (h.covers t).mono fun _ => has_addType d
  owner p := has_addType d (h.owner p)
  named name t ht := by
    rw [typeDecl_addType]
    rcases mem_named_addName.mp (show t ∈ (w.addName d.name _).named name from ht) with
      hold | ⟨rfl, rfl⟩
    · obtain ⟨hhas, hname⟩ := h.named name t hold
      rw [if_neg (Nat.ne_of_lt hhas)]
      exact ⟨has_addType d hhas, hname⟩
    · rw [if_pos rfl]
      exact ⟨has_new w d, rfl⟩

theorem modifyType (h : w.WellFormed) {f : TypeDecl → TypeDecl}
    (covers : ∀ d, w.Covers d → w.Covers (f d)) (name : ∀ d, (f d).name = d.name) :
    (w.modifyType t f).WellFormed where
  metaType := has_modifyType.mpr h.metaType
  covers u := by
    rw [typeDecl_modifyType]
    split
    · exact (covers _ (h.covers u)).mono fun _ => has_modifyType.mpr
    · exact (h.covers u).mono fun _ => has_modifyType.mpr
  owner p := has_modifyType.mpr (h.owner p)
  named other u hu := by
    obtain ⟨hhas, hname⟩ := h.named other u hu
    refine ⟨has_modifyType.mpr hhas, ?_⟩
    rw [typeDecl_modifyType]
    split
    · rw [name, hname]
    · exact hname

theorem rename (h : w.WellFormed) (ht : w.Has (.type t)) (name : String) :
    (w.rename t name).WellFormed where
  metaType := has_rename.mpr h.metaType
  covers u := by
    rw [typeDecl_rename]
    have hu : (w.rename t name).Covers (w.typeDecl u) :=
      (h.covers u).mono fun _ => has_rename.mpr
    split
    · exact ⟨hu.superType, hu.interfaces, hu.component, hu.array, hu.procedures, hu.vtable⟩
    · exact hu
  owner p := has_rename.mpr (h.owner p)
  named other u hu := by
    rw [has_rename, typeDecl_rename]
    rcases mem_named_addName.mp hu with hold | ⟨rfl, rfl⟩
    · have hmem : u ∈ w.named other ∧ (u = t → (w.typeDecl t).name ≠ other) := by
        rw [named_removeName] at hold
        by_cases hother : other = (w.typeDecl t).name
        · rw [if_pos hother, List.mem_filter] at hold
          exact ⟨hold.1, fun hut => absurd hut (by simpa using hold.2)⟩
        · rw [if_neg hother] at hold
          exact ⟨hold, fun _ => Ne.symm hother⟩
      obtain ⟨hhas, hname⟩ := h.named other u hmem.1
      have hne : t ≠ u := by
        rintro rfl
        exact hmem.2 rfl hname
      rw [if_neg fun hc => hne hc.1]
      exact ⟨hhas, hname⟩
    · rw [if_pos ⟨rfl, ht⟩]
      exact ⟨ht, rfl⟩

theorem addProcedure (h : w.WellFormed) {d : ProcDecl} (hd : w.Has (.type d.owner)) :
    (w.addProcedure d).WellFormed where
  metaType := has_addProcedure d h.metaType
  covers t := (h.covers t).mono fun _ => has_addProcedure d
  owner p := by
    rw [procDecl_addProcedure]
    split
    · exact has_addProcedure d hd
    · exact has_addProcedure d (h.owner p)
  named name t ht := h.named name t ht

theorem modifyProcedure (h : w.WellFormed) {f : ProcDecl → ProcDecl}
    (owner : ∀ d, (f d).owner = d.owner) : (w.modifyProcedure p f).WellFormed where
  metaType := has_modifyProcedure.mpr h.metaType
  covers t := (h.covers t).mono fun _ => has_modifyProcedure.mpr
  owner q := by
    rw [has_modifyProcedure, procDecl_modifyProcedure]
    split
    · rw [owner]
      exact h.owner q
    · exact h.owner q
  named name t ht := h.named name t ht

theorem newContext (h : w.WellFormed) : w.newContext.2.WellFormed where
  metaType := h.metaType
  covers t := (h.covers t).mono fun _ hx => hx.mono (Nat.le_refl _) (Nat.le_refl _)
  owner := h.owner
  named := h.named

theorem defineType (h : w.WellFormed) {spec : TypeSpec}
    (superType : ∀ s, spec.superType = some s → w.Has (.type s))
    (interfaces : ∀ i ∈ spec.interfaces, w.Has (.type i)) :
    (w.defineType spec).2.WellFormed :=
  h.addType { covers_plain w spec.name with
    superType := has_superType_of_spec h.rootType superType
    interfaces := interfaces }

theorem arrayOf (h : w.WellFormed) (ht : w.Has (.type t)) : (w.arrayOf t).2.WellFormed := by
  rw [World.arrayOf]
  split
  · exact h
  · let array : TypeDecl := { TypeDecl.plain ("[" ++ (w.typeDecl t).name) with
      context := (w.typeDecl t).context
      isInitialized := true
      superType := some World.rootType
      component := some t }
    have hcovers : w.Covers array := { covers_plain w array.name with
      superType := fun s hs => by
        cases hs
        exact h.rootType
      component := fun c hc => by
        cases hc
        exact ht }
    refine (h.addType hcovers).modifyType (fun d hd => { hd with array := ?_ }) fun _ => rfl
    intro a ha
    cases ha
    exact has_new w array

theorem defineProcedure (h : w.WellFormed) {spec : ProcSpec} (ht : w.Has (.type spec.owner)) :
    (w.defineProcedure spec).2.WellFormed := by
  obtain ⟨d, slot, howner, heq⟩ := w.defineProcedure_eq spec
  rw [heq]
  have hnew : (w.addProcedure d).Has (.procedure ⟨w.procedures.size⟩) := by
    simp [Has, World.addProcedure]
  refine (h.addProcedure (howner ▸ ht)).modifyType
    (fun d hd => { hd with procedures := ?_, vtable := ?_ }) fun _ => rfl
  · intro p hp
    rcases List.mem_append.mp hp with hp | hp
    · exact hd.procedures p hp
    · rw [List.mem_singleton.mp hp]
      exact hnew
  · intro p hp
    cases slot with
    | none => exact hd.vtable p hp
    | some i =>
      rcases mem_place hp with hp | rfl
      · exact hd.vtable p hp
      · exact hnew

theorem fresh : World.fresh.WellFormed where
  metaType := by decide
  covers t := by
    rcases t with ⟨_ | _ | n⟩
    · exact { covers_plain _ "Object" with }
    · refine { covers_plain _ "Type" with superType := ?_ }
      rintro s ⟨⟩
      decide
    · exact covers_plain _ ""
  owner p := by
    show World.fresh.Has (.type World.rootType)
    decide
  named name t ht := by
    have hnames : t ∈ ((World.empty.addName "Object" ⟨0⟩).addName "Type" ⟨1⟩).named name := ht
    rw [mem_named_addName, mem_named_addName] at hnames
    rcases hnames with (hnone | ⟨rfl, rfl⟩) | ⟨rfl, rfl⟩
    · simp [World.named, World.empty] at hnone
    · exact ⟨by decide, rfl⟩
    · exact ⟨by decide, rfl⟩

end WellFormed

/-- The worlds that can be built, if every handle that is given stands for something that the
world has by then. -/
inductive Built : World → Prop where
  | fresh : Built fresh
  | newContext {w : World} : Built w → Built w.newContext.2
  | defineType {w : World} (spec : TypeSpec) : Built w →
      (∀ s, spec.superType = some s → w.Has (.type s)) →
      (∀ i ∈ spec.interfaces, w.Has (.type i)) → Built (w.defineType spec).2
  | arrayOf {w : World} (t : TypeRef) : Built w → w.Has (.type t) → Built (w.arrayOf t).2
  | rename {w : World} (t : TypeRef) (name : String) : Built w → w.Has (.type t) →
      Built (w.rename t name)
  | markInitialized {w : World} (t : TypeRef) (value : Bool) : Built w → w.Has (.type t) →
      Built (w.markInitialized t value)
  | addEntry {w : World} (t : TypeRef) (e : Entry) : Built w → w.Has (.type t) →
      Built (w.addEntry t e).2
  | defineProcedure {w : World} (spec : ProcSpec) : Built w → w.Has (.type spec.owner) →
      Built (w.defineProcedure spec).2
  | setMaySkipFrames {w : World} (p : ProcRef) (value : Bool) : Built w → w.Has (.procedure p) →
      Built (w.setMaySkipFrames p value)

theorem Built.wellFormed (h : w.Built) : w.WellFormed := by
  induction h with
  | fresh => exact .fresh
  | newContext _ ih => exact ih.newContext
  | defineType spec _ superType interfaces ih => exact ih.defineType superType interfaces
  | arrayOf t _ ht ih => exact ih.arrayOf ht
  | rename t name _ ht ih => exact ih.rename ht name
  | markInitialized t value _ _ ih =>
    exact ih.modifyType (fun _ hd => { hd with }) fun _ => rfl
  | addEntry t e _ _ ih => exact ih.modifyType (fun _ hd => { hd with }) fun _ => rfl
  | defineProcedure spec _ ht ih => exact ih.defineProcedure ht
  | setMaySkipFrames p value _ _ ih => exact ih.modifyProcedure fun _ => rfl

end World

end Provenance
