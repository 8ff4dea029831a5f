import Provenance.Proofs.Building

/-!
Worlds that outgrow another. As long as no name of the first world is given to a new type, and
none of its types gets a new procedure, whatever is added or marked anew leaves the hierarchy,
the names and the dispatch tables of the first world as they were.
-/
namespace Provenance

/-- What growth leaves of the declaration of a type. The type may be marked anew, there may be
an array of it by now, and its table may have entries behind those it had. -/
structure TypeDecl.Extends (d' d : TypeDecl) : Prop where
  eq : d' = { d with
    isInitialized := d'.isInitialized
    array := d'.array
    entries := d'.entries }
  array : ∀ a, d.array = some a → d'.array = some a
  entries : d.entries <+: d'.entries

namespace TypeDecl.Extends

variable {d d' d'' : TypeDecl}

theorem refl (d : TypeDecl) : d.Extends d := ⟨rfl, fun _ => id, List.prefix_refl _⟩

theorem trans (h : d'.Extends d) (h' : d''.Extends d') : d''.Extends d where
  eq := by
    rw [h'.eq, h.eq]
  array a ha := h'.array a (h.array a ha)
  entries := h.entries.trans h'.entries

end TypeDecl.Extends

/-- What growth leaves of the declaration of a procedure, which may be marked anew. -/
def ProcDecl.Extends (d' d : ProcDecl) : Prop := d' = { d with maySkipFrames := d'.maySkipFrames }

theorem ProcDecl.Extends.trans {d d' d'' : ProcDecl} (h : d'.Extends d) (h' : d''.Extends d') :
    d''.Extends d := by
  rw [Extends] at *
  rw [h', h]

namespace World

/-- One world has everything another has, with the same handles and names. -/
structure Extends (w' w : World) : Prop where
  types : w.types.size ≤ w'.types.size
  procedures : w.procedures.size ≤ w'.procedures.size
  typeDecl : ∀ t, w.Has (.type t) → (w'.typeDecl t).Extends (w.typeDecl t)
  procDecl : ∀ p, w.Has (.procedure p) → (w'.procDecl p).Extends (w.procDecl p)
  named : ∀ name, w.named name = [] ∨ w'.named name = w.named name

/-- No type of the world has the name. -/
def Lacks (w : World) (name : String) : Prop :=
  ∀ t, w.Has (.type t) → (w.typeDecl t).name ≠ name

/-- The worlds that a world may grow into, if every handle that is given stands for something by
then, no type that is added takes a name of the first world, and procedures are defined on types
that were added only. -/
inductive Grown (w : World) : World → Prop where
  | refl : Grown w w
  | newContext {v : World} : Grown w v → Grown w v.newContext.2
  | defineType {v : World} (spec : TypeSpec) : Grown w v →
      (∀ s, spec.superType = some s → v.Has (.type s)) →
      (∀ i ∈ spec.interfaces, v.Has (.type i)) → w.Lacks spec.name → Grown w (v.defineType spec).2
  | arrayOf {v : World} (t : TypeRef) : Grown w v → v.Has (.type t) →
      ((v.typeDecl t).array = none → w.Lacks ("[" ++ (v.typeDecl t).name)) →
      Grown w (v.arrayOf t).2
  | addEntry {v : World} (t : TypeRef) (e : Entry) : Grown w v → v.Has (.type t) →
      Grown w (v.addEntry t e).2
  | markInitialized {v : World} (t : TypeRef) (value : Bool) : Grown w v → v.Has (.type t) →
      Grown w (v.markInitialized t value)
  | setMaySkipFrames {v : World} (p : ProcRef) (value : Bool) : Grown w v →
      v.Has (.procedure p) → Grown w (v.setMaySkipFrames p value)
  | defineProcedure {v : World} (spec : ProcSpec) : Grown w v → v.Has (.type spec.owner) →
      ¬w.Has (.type spec.owner) → Grown w (v.defineProcedure spec).2

variable {w v : World} {t : TypeRef} {p : ProcRef} {name : String}

theorem WellFormed.named_of_lacks (h : w.WellFormed) (lacks : w.Lacks name) :
    w.named name = [] := by
  refine List.eq_nil_iff_forall_not_mem.mpr fun t ht => ?_
  obtain ⟨hhas, hname⟩ := h.named name t ht
  exact lacks t hhas hname

namespace Extends

theorem refl (w : World) : w.Extends w where
  types := Nat.le_refl _
  procedures := Nat.le_refl _
  typeDecl _ _ := .refl _
  procDecl _ _ := rfl
  named _ := .inr rfl

theorem has {x : Symbol} (h : v.Extends w) (hx : w.Has x) : v.Has x :=
  hx.mono h.types h.procedures

theorem addType (h : v.Extends w) {d : TypeDecl} (free : w.named d.name = []) :
    (v.addType d).2.Extends w where
  types := by
    have hsize : (v.addType d).2.types.size = v.types.size + 1 := by
      simp [World.addType, World.addName]
    have := h.types
    omega
  procedures := h.procedures
  typeDecl t ht := by
    rw [typeDecl_addType, if_neg (Nat.ne_of_lt (h.has ht))]
    exact h.typeDecl t ht
  procDecl := h.procDecl
  named name := by
    rcases h.named name with hnone | hsame
    · exact .inl hnone
    · by_cases hname : name = d.name
      · exact .inl (hname ▸ free)
      · refine .inr (Eq.trans ?_ hsame)
        show (v.addName d.name _).named name = _
        rw [named_addName, if_neg hname]

/-- A type may be changed in ways that do not count as a change, or any way if it is new. -/
theorem modifyType (h : v.Extends w) {f : TypeDecl → TypeDecl}
    (keeps : w.Has (.type t) → (f (v.typeDecl t)).Extends (v.typeDecl t)) :
    (v.modifyType t f).Extends w where
  types := by
    simpa [World.modifyType] using h.types
  procedures := h.procedures
  typeDecl u hu := by
    rw [typeDecl_modifyType]
    split
    · rename_i hsame
      obtain ⟨rfl, -⟩ := hsame
      exact (h.typeDecl t hu).trans (keeps hu)
    · exact h.typeDecl u hu
  procDecl := h.procDecl
  named := h.named

theorem addProcedure (h : v.Extends w) (d : ProcDecl) : (v.addProcedure d).Extends w where
  types := h.types
  procedures := by
    have hsize : (v.addProcedure d).procedures.size = v.procedures.size + 1 := by
      simp [World.addProcedure]
    have := h.procedures
    omega
  typeDecl := h.typeDecl
  procDecl p hp := by
    rw [procDecl_addProcedure, if_neg (Nat.ne_of_lt (h.has hp))]
    exact h.procDecl p hp
  named := h.named

theorem setMaySkipFrames (h : v.Extends w) (p : ProcRef) (value : Bool) :
    (v.setMaySkipFrames p value).Extends w where
  types := h.types
  procedures := by
    simpa [World.setMaySkipFrames, World.modifyProcedure] using h.procedures
  typeDecl := h.typeDecl
  procDecl q hq := by
    rw [World.setMaySkipFrames, procDecl_modifyProcedure]
    split
    · exact (h.procDecl q hq).trans rfl
    · exact h.procDecl q hq
  named := h.named

theorem arrayOf (h : v.Extends w)
    (free : (v.typeDecl t).array = none → w.named ("[" ++ (v.typeDecl t).name) = []) :
    (v.arrayOf t).2.Extends w := by
  rw [World.arrayOf]
  split
  · exact h
  · rename_i hnone
    refine (h.addType (free hnone)).modifyType fun ht => ?_
    rw [typeDecl_addType, if_neg (Nat.ne_of_lt (h.has ht))]
    refine ⟨rfl, fun a ha => ?_, List.prefix_refl _⟩
    rw [hnone] at ha
    cases ha

theorem defineProcedure (h : v.Extends w) {spec : ProcSpec} (new : ¬w.Has (.type spec.owner)) :
    (v.defineProcedure spec).2.Extends w := by
  obtain ⟨d, slot, -, heq⟩ := v.defineProcedure_eq spec
  rw [heq]
  exact (h.addProcedure d).modifyType fun hhas => absurd hhas new

end Extends

theorem Grown.extends (grown : w.Grown v) (h : w.WellFormed) : v.Extends w := by
  induction grown with
  | refl => exact .refl w
  | newContext _ ih => exact ⟨ih.types, ih.procedures, ih.typeDecl, ih.procDecl, ih.named⟩
  | defineType spec _ _ _ lacks ih => exact ih.addType (h.named_of_lacks lacks)
  | arrayOf t _ _ lacks ih => exact ih.arrayOf fun hnone => h.named_of_lacks (lacks hnone)
  | addEntry t e _ _ ih =>
    exact ih.modifyType fun _ => ⟨rfl, fun _ => id, List.prefix_append _ _⟩
  | markInitialized t value _ _ ih =>
    exact ih.modifyType fun _ => ⟨rfl, fun _ => id, List.prefix_refl _⟩
  | setMaySkipFrames p value _ _ ih => exact ih.setMaySkipFrames p value
  | defineProcedure spec _ _ new ih => exact ih.defineProcedure new

end World

end Provenance
