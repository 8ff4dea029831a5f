import Provenance.Proofs.Reading

/-!
What leads where in a world that was built. Every type is listed under the name it has, and an
array and its component lead to each other.
-/
namespace Provenance.World

variable {w w' : World} {t u c a : TypeRef}

def Listed (w : World) : Prop := ∀ t, w.Has (.type t) → t ∈ w.named (w.typeDecl t).name

namespace Listed

theorem addType (h : w.Listed) (d : TypeDecl) : (w.addType d).2.Listed := by
  intro t ht
  show t ∈ (w.addName d.name ⟨w.types.size⟩).named _
  rw [typeDecl_addType, mem_named_addName]
  by_cases hnew : t.index = w.types.size
  · rw [if_pos hnew, ← hnew]
    exact .inr ⟨rfl, rfl⟩
  · have hold : w.Has (.type t) := by
      have hlt : t.index < (w.addType d).2.types.size := ht
      simp only [World.addType, addName, Array.size_push] at hlt
      exact Nat.lt_of_le_of_ne (Nat.le_of_lt_succ hlt) hnew
    rw [if_neg hnew]
    exact .inl (h t hold)

theorem modifyType (h : w.Listed) {f : TypeDecl → TypeDecl} (name : ∀ d, (f d).name = d.name) :
    (w.modifyType u f).Listed := by
  intro t ht
  show t ∈ w.named _
  rw [typeDecl_modifyType]
  split
  · rw [name]
    exact h t (has_modifyType.mp ht)
  · exact h t (has_modifyType.mp ht)

theorem rename (h : w.Listed) (u : TypeRef) (name : String) : (w.rename u name).Listed := by
  intro t ht
  rw [has_rename] at ht
  rw [typeDecl_rename]
  refine mem_named_addName.mpr ?_
  by_cases hut : u = t
  · rw [if_pos ⟨hut, ht⟩]
    exact .inr ⟨rfl, hut.symm⟩
  · rw [if_neg fun both => hut both.1, named_removeName]
    refine .inl ?_
    split
    · exact List.mem_filter.mpr ⟨h t ht, by simpa using Ne.symm hut⟩
    · exact h t ht

end Listed

theorem Built.listed (h : w.Built) : w.Listed := by
  induction h with
  | fresh =>
    have nothing : World.empty.Listed := fun t ht => absurd ht (Nat.not_lt_zero _)
    exact (nothing.addType _).addType _
  | newContext _ ih | setMaySkipFrames _ _ _ _ ih => exact ih
  | defineType spec _ _ _ ih => exact ih.addType _
  | arrayOf t _ _ ih =>
    rw [World.arrayOf]
    split
    · exact ih
    · exact (ih.addType _).modifyType fun _ => rfl
  | rename t name _ _ ih => exact ih.rename t name
  | markInitialized _ _ _ _ ih | addEntry _ _ _ _ ih | defineProcedure _ _ _ ih =>
    exact ih.modifyType fun _ => rfl

/-- A type is the array of another exactly if that is its component. -/
def Linked (w : World) : Prop :=
  ∀ c a, (w.typeDecl c).array = some a ↔ (w.typeDecl a).component = some c

namespace Linked

/-- What changes neither arrays nor components. -/
theorem congr (h : w.Linked) (array : ∀ t, (w'.typeDecl t).array = (w.typeDecl t).array)
    (component : ∀ t, (w'.typeDecl t).component = (w.typeDecl t).component) : w'.Linked := by
  intro c a
  rw [array, component]
  exact h c a

theorem modifyType (h : w.Linked) {f : TypeDecl → TypeDecl} (array : ∀ d, (f d).array = d.array)
    (component : ∀ d, (f d).component = d.component) : (w.modifyType u f).Linked := by
  refine h.congr (fun t => ?_) fun t => ?_
  · rw [typeDecl_modifyType]
    split
    · exact array _
    · rfl
  · rw [typeDecl_modifyType]
    split
    · exact component _
    · rfl

theorem rename (h : w.Linked) (u : TypeRef) (name : String) : (w.rename u name).Linked := by
  refine h.congr (fun t => ?_) fun t => ?_ <;> rw [typeDecl_rename] <;> split <;> rfl

/-- No array or component is as young as a type that is added. -/
theorem addType (h : w.Linked) (wellFormed : w.WellFormed) {d : TypeDecl} (array : d.array = none)
    (component : d.component = none) : (w.addType d).2.Linked := by
  intro c a
  rw [typeDecl_addType, typeDecl_addType]
  by_cases hc : c.index = w.types.size
  · rw [if_pos hc, show (w.added d).array = d.array from rfl, array]
    refine ⟨nofun, fun ha => ?_⟩
    split at ha
    · rw [show (w.added d).component = d.component from rfl, component] at ha
      cases ha
    · exact absurd hc (Nat.ne_of_lt ((wellFormed.covers a).component c ha))
  · rw [if_neg hc]
    by_cases ha : a.index = w.types.size
    · rw [if_pos ha, show (w.added d).component = d.component from rfl, component]
      refine ⟨fun hca => ?_, nofun⟩
      exact absurd ha (Nat.ne_of_lt ((wellFormed.covers c).array a hca))
    · rw [if_neg ha]
      exact h c a

end Linked

/-- The links once the array of a type is made. -/
theorem links_arrayOf (ht : w.Has (.type t)) (hnone : (w.typeDecl t).array = none) (u : TypeRef) :
    ((w.arrayOf t).2.typeDecl u).array =
        (if u = t then some ⟨w.types.size⟩
          else if u.index = w.types.size then none else (w.typeDecl u).array) ∧
      ((w.arrayOf t).2.typeDecl u).component =
        if u.index = w.types.size then some t else (w.typeDecl u).component := by
  have hold : t.index ≠ w.types.size := Nat.ne_of_lt ht
  have hhas (d : TypeDecl) : (w.addType d).2.Has (.type t) := has_addType d ht
  simp only [World.arrayOf, hnone, typeDecl_modifyType, typeDecl_addType]
  by_cases hut : t = u
  · subst hut
    simp [hold, hhas]
    rfl
  · simp only [hut, Ne.symm hut, false_and, if_false]
    constructor <;> split <;> rfl

theorem Linked.arrayOf (h : w.Linked) (wellFormed : w.WellFormed) (ht : w.Has (.type t)) :
    (w.arrayOf t).2.Linked := by
  cases hnone : (w.typeDecl t).array with
  | some array =>
    rw [World.arrayOf, hnone]
    exact h
  | none =>
    intro c a
    rw [(links_arrayOf ht hnone c).1, (links_arrayOf ht hnone a).2]
    have old (hca : (w.typeDecl c).array = some a) : a.index ≠ w.types.size :=
      Nat.ne_of_lt ((wellFormed.covers c).array a hca)
    have old' (hac : (w.typeDecl a).component = some c) : c.index ≠ w.types.size :=
      Nat.ne_of_lt ((wellFormed.covers a).component c hac)
    have lone (hat : (w.typeDecl a).component = some t) : False := by
      rw [(h t a).mpr hat] at hnone
      cases hnone
    -- The new array is that of its component and of nothing else.
    by_cases ha : a.index = w.types.size
    · rw [if_pos ha, show a = ⟨w.types.size⟩ from by rw [← ha]]
      by_cases hc : c = t
      · simp [hc]
      · rw [if_neg hc]
        refine ⟨fun harray => ?_, fun htc => absurd (Option.some.inj htc).symm hc⟩
        split at harray
        · cases harray
        · exact absurd ha (old (by rw [harray, ← ha]))
    · rw [if_neg ha]
      by_cases hc : c = t
      · subst hc
        rw [if_pos rfl]
        refine ⟨fun hnew => ?_, fun hac => (lone hac).elim⟩
        exact absurd (congrArg TypeRef.index (Option.some.inj hnew)).symm ha
      · rw [if_neg hc]
        by_cases hnew : c.index = w.types.size
        · rw [if_pos hnew]
          exact ⟨fun hca => (by cases hca), fun hac => absurd hnew (old' hac)⟩
        · rw [if_neg hnew]
          exact h c a

theorem Built.linked (h : w.Built) : w.Linked := by
  induction h with
  | fresh =>
    have unlinked (t : TypeRef) : (World.fresh.typeDecl t).array = none ∧
        (World.fresh.typeDecl t).component = none := by
      rcases t with ⟨_ | _ | n⟩ <;> exact ⟨rfl, rfl⟩
    intro c a
    rw [(unlinked c).1, (unlinked a).2]
    exact ⟨nofun, nofun⟩
  | newContext _ ih | setMaySkipFrames _ _ _ _ ih => exact ih
  | defineType spec built _ _ ih => exact ih.addType built.wellFormed rfl rfl
  | arrayOf t built ht ih => exact ih.arrayOf built.wellFormed ht
  | rename t name _ _ ih => exact ih.rename t name
  | markInitialized _ _ _ _ ih | addEntry _ _ _ _ ih | defineProcedure _ _ _ ih =>
    exact ih.modifyType (fun _ => rfl) fun _ => rfl

/-- As queries, too, an array and its component lead to each other. -/
theorem Built.component_iff (h : w.Built) :
    w.component a = some c ↔ (w.typeDecl c).array = some a := by
  rw [component, Option.filter_eq_some_iff, h.linked c a]
  refine ⟨And.left, fun hac => ⟨hac, ?_⟩⟩
  refine decide_eq_true (h.layered a c ?_)
  rw [TypeDecl.bases, hac]
  exact List.mem_append_right _ List.mem_cons_self

def Contextual (w : World) : Prop :=
  ∀ a c, (w.typeDecl a).component = some c → w.contextOf a = w.contextOf c

namespace Contextual

theorem addType (h : w.Contextual) (wellFormed : w.WellFormed) {d : TypeDecl}
    (component : ∀ c, d.component = some c → w.Has (.type c) ∧ d.context = w.contextOf c) :
    (w.addType d).2.Contextual := by
  intro a c hac
  rw [contextOf, contextOf, typeDecl_addType, typeDecl_addType]
  rw [typeDecl_addType] at hac
  split at hac
  · rename_i ha
    obtain ⟨hc, hcontext⟩ := component c hac
    rw [if_pos ha, if_neg (Nat.ne_of_lt hc)]
    exact hcontext
  · rename_i ha
    rw [if_neg ha, if_neg (Nat.ne_of_lt ((wellFormed.covers a).component c hac))]
    exact h a c hac

theorem modifyType (h : w.Contextual) {f : TypeDecl → TypeDecl}
    (component : ∀ d, (f d).component = d.component) (context : ∀ d, (f d).context = d.context) :
    (w.modifyType u f).Contextual := by
  have same (t : TypeRef) : (w.modifyType u f).contextOf t = w.contextOf t := by
    rw [contextOf, typeDecl_modifyType]
    split
    · exact context _
    · rfl
  intro a c hac
  rw [same, same]
  refine h a c ?_
  rw [typeDecl_modifyType] at hac
  split at hac
  · rwa [component] at hac
  · exact hac

end Contextual

theorem Built.contextual (h : w.Built) : w.Contextual := by
  induction h with
  | fresh => rintro ⟨_ | _ | n⟩ c hac <;> cases hac
  | newContext _ ih | setMaySkipFrames _ _ _ _ ih => exact ih
  | defineType spec built _ _ ih => exact ih.addType built.wellFormed nofun
  | arrayOf t built ht ih =>
    rw [World.arrayOf]
    split
    · exact ih
    · refine (ih.addType built.wellFormed fun c hc => ?_).modifyType (fun _ => rfl) fun _ => rfl
      cases hc
      exact ⟨ht, rfl⟩
  | rename t name _ _ ih => exact ih.modifyType (fun _ => rfl) fun _ => rfl
  | markInitialized _ _ _ _ ih | addEntry _ _ _ _ ih | defineProcedure _ _ _ ih =>
    exact ih.modifyType (fun _ => rfl) fun _ => rfl

/-- The innermost component of a type is there with it, and in its context. -/
theorem Built.baseComponent (h : w.Built) (ht : w.Has (.type t)) :
    w.Has (.type (w.model.baseComponent t).1) ∧
      w.contextOf (w.model.baseComponent t).1 = w.contextOf t := by
  induction t using w.model.finiteNesting.induction with
  | _ t ih =>
    cases hc : w.model.componentType t with
    | none =>
      rw [w.model.baseComponent_of_none hc]
      exact ⟨ht, rfl⟩
    | some c =>
      have hcomponent : (w.typeDecl t).component = some c :=
        (h.linked c t).mp (h.component_iff.mp hc)
      rw [w.model.baseComponent_of_some hc, h.contextual t c hcomponent]
      exact ih c hc ((h.wellFormed.covers t).component c hcomponent)

theorem mem_of_typeByName {beholder : TypeRef} {name : String}
    (found : w.typeByName beholder name = some t) :
    t ∈ w.named name ∧
      (w.contextOf t = w.contextOf beholder ∨ w.contextOf t = .system) := by
  rw [typeByName, Option.orElse_eq_orElse, Option.orElse_eq_or, Option.or_eq_some_iff] at found
  rcases found with hfound | ⟨-, hfound⟩
  · exact ⟨List.mem_of_find?_eq_some hfound, .inl (by simpa using List.find?_some hfound)⟩
  · exact ⟨List.mem_of_find?_eq_some hfound, .inr (by simpa using List.find?_some hfound)⟩

/-- A search among the types of one name, which all are there. -/
theorem Built.find_named (h : w.Built) (ht : w.Has (.type t)) {p : TypeRef → Bool}
    (hp : p t = true) :
    ∃ u, (w.named (w.typeDecl t).name).find? p = some u ∧ w.Has (.type u) ∧
      (w.typeDecl u).name = (w.typeDecl t).name ∧ p u = true := by
  cases hfind : (w.named (w.typeDecl t).name).find? p with
  | none => exact absurd hp (List.find?_eq_none.mp hfind t (h.listed t ht))
  | some u =>
    obtain ⟨hu, hname⟩ := h.wellFormed.named _ u (List.mem_of_find?_eq_some hfind)
    exact ⟨u, rfl, hu, hname, List.find?_some hfind⟩

/-- A type that is seen at all is seen by its name, unless another of that name is in the context
of the beholder or in its own. -/
theorem Built.typeByName_of_unhidden (h : w.Built) {beholder : TypeRef} (ht : w.Has (.type t))
    (seen : w.contextOf t = w.contextOf beholder ∨ w.contextOf t = .system)
    (unhidden : ∀ u, w.Has (.type u) → (w.typeDecl u).name = (w.typeDecl t).name →
      w.contextOf u = w.contextOf beholder ∨ w.contextOf u = w.contextOf t → u = t) :
    w.typeByName beholder (w.typeDecl t).name = some t := by
  rw [typeByName, Option.orElse_eq_orElse, Option.orElse_eq_or]
  cases hfind : (w.named (w.typeDecl t).name).find? fun u =>
      w.contextOf u = w.contextOf beholder with
  | some u =>
    obtain ⟨hu, hname⟩ := h.wellFormed.named _ u (List.mem_of_find?_eq_some hfind)
    rw [unhidden u hu hname (.inl (by simpa using List.find?_some hfind))]
    rfl
  | none =>
    -- With nothing of that name in its own context the beholder sees what every context sees.
    have system : w.contextOf t = .system := by
      refine seen.resolve_left fun own => ?_
      simpa [own] using List.find?_eq_none.mp hfind t (h.listed t ht)
    obtain ⟨u, hsystem, hu, hname, hcontext⟩ :=
      h.find_named ht (p := fun u => w.contextOf u = .system) (by simpa using system)
    rw [Option.none_or, systemTypeByName, hsystem,
      unhidden u hu hname (.inr (by rw [system]; simpa using hcontext))]

/-- Name and shape of a type lead to a type of that name and shape. -/
theorem Built.exists_typeByChain (h : w.Built) (ht : w.Has (.type t)) :
    ∃ u, w.typeByChain (w.typeDecl t).name (w.chainDigest t) = some u ∧ w.Has (.type u) ∧
      (w.typeDecl u).name = (w.typeDecl t).name ∧ w.chainDigest u = w.chainDigest t := by
  obtain ⟨u, hfind, hu, hname, hdigest⟩ :=
    h.find_named ht (p := fun u => w.chainDigest u = w.chainDigest t) (by simp)
  exact ⟨u, hfind, hu, hname, by simpa using hdigest⟩

end Provenance.World
