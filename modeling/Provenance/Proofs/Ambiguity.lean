import Provenance.Proofs.Links
import Provenance.Proofs.Naming

/-!
Names that several types have. A report that a type was found by its name, or met in a profile, is
recorded of the innermost component and its name, whatever that name leads to. In a world that was
built the type is found again exactly if the name of the component, seen from the same place or
together with the shape of the component, leads to the component. It may lead to another type.
-/
namespace Provenance

namespace World

variable {w : World}

theorem Built.model_linked (h : w.Built) : w.model.Linked := fun _ _ => h.component_iff.symm

def withClass (w : World) (name : String) (context : Context) : World :=
  (w.defineType ⟨name, context, false, false, false, none, [], [], []⟩).2

theorem Built.withClass (h : w.Built) (name : String) (context : Context) :
    (w.withClass name context).Built := .defineType _ h nofun nofun

/-- A class that every context sees and its array, and in another context a class of that name. -/
def shadowed : World :=
  ((fresh.newContext.2.withClass "C" .system).arrayOf ⟨2⟩).2.withClass "C" ⟨1⟩

theorem built_shadowed : shadowed.Built :=
  (Built.arrayOf ⟨2⟩ ((Built.newContext .fresh).withClass _ _) (by decide)).withClass _ _

theorem named_shadowed (name : String) : shadowed.named name =
    (((((empty.addName "Object" ⟨0⟩).addName "Type" ⟨1⟩).addName "C" ⟨2⟩).addName "[C" ⟨3⟩).addName
      "C" ⟨4⟩).named name := rfl

theorem named_empty (name : String) : empty.named name = [] := by simp [named, empty]

theorem named_shadowed_class : shadowed.named "C" = [⟨2⟩, ⟨4⟩] := by
  simp [named_shadowed, named_addName, named_empty]

theorem named_shadowed_array : shadowed.named "[C" = [⟨3⟩] := by
  simp [named_shadowed, named_addName, named_empty]

/-- The array of the class is found by its name from everywhere. -/
theorem typeByName_shadowed_array {beholder : TypeRef}
    (h : beholder = ⟨0⟩ ∨ beholder = ⟨4⟩) : shadowed.typeByName beholder "[C" = some ⟨3⟩ := by
  rw [typeByName, systemTypeByName, named_shadowed_array]
  rcases h with rfl | rfl <;> rfl

theorem typeByName_shadowed_class : shadowed.typeByName ⟨0⟩ "C" = some ⟨2⟩ ∧
    shadowed.typeByName ⟨4⟩ "C" = some ⟨4⟩ := by
  rw [typeByName, typeByName, named_shadowed_class]
  exact ⟨rfl, rfl⟩

theorem baseComponent_shadowed_array : shadowed.model.baseComponent ⟨3⟩ = (⟨2⟩, 1) := by
  have array : shadowed.model.componentType ⟨3⟩ = some ⟨2⟩ := rfl
  have plain : shadowed.model.componentType ⟨2⟩ = none := rfl
  rw [Model.baseComponent_of_some _ array, Model.baseComponent_of_none _ plain]

theorem baseComponent_shadowed_class : shadowed.model.baseComponent ⟨4⟩ = (⟨4⟩, 0) :=
  Model.baseComponent_of_none _ rfl

theorem chainDigest_shadowed : shadowed.chainDigest ⟨2⟩ = shadowed.chainDigest ⟨4⟩ := by
  have below {t : TypeRef} (h : t = ⟨2⟩ ∨ t = ⟨4⟩) : shadowed.superType t = some rootType := by
    rcases h with rfl | rfl <;> rfl
  rw [chainDigest, chainDigest, shape, shape, superChain_of_some (below (.inl rfl)),
    superChain_of_some (below (.inr rfl))]
  rfl

/-- The name and the shape of either class lead to the older one. -/
theorem typeByChain_shadowed {t : TypeRef} (h : t = ⟨2⟩ ∨ t = ⟨4⟩) :
    shadowed.typeByChain "C" (shadowed.chainDigest t) = some ⟨2⟩ := by
  have same : shadowed.chainDigest ⟨2⟩ = shadowed.chainDigest t := by
    rcases h with rfl | rfl
    · rfl
    · exact chainDigest_shadowed
  rw [typeByChain, named_shadowed_class]
  exact List.find?_cons_of_pos (decide_eq_true same)

end World

namespace Session

variable {w : World} {s t : Session} {beholder ty : TypeRef} {name : String} {config : Config}
  {ops : List Operation} {outcomes : List Outcome}

/-- A type that the beholder found by its name, and that was reported so, is found again under its
ID exactly if the beholder finds the innermost component by its name. It does if the type is no
array, and if no other type in sight has the name of the component. -/
theorem named_type_is_found_again_iff (built : w.Built)
    (found : w.typeByName beholder name = some ty) (config' : Config)
    (run : performAll w.model ops (forCompile w.model config) = (outcomes, s))
    (reported : (.add (.named (some ty) (.seenBy beholder)), t) ∈
      issuedAll w.model ops (forCompile w.model config))
    (told : (perform w.model (.add (.named (some ty) (.seenBy beholder))) t).1 = .flag true)
    (answered : ∀ d, .add d ∈ Operation.atomsAll ops → d ≠ .named (some ty) (.seenBy beholder) →
      ∀ r, d.record? w.model = some r → w.model.Confirms r)
    (phase : s.phase = .building) (closed : s.region.isOpen = false) :
    let component := (w.model.baseComponent ty).1
    ∃ records seeded id, sealRecords s = .ok records { s with phase := .sealed } ∧
      performAll w.model ((Operation.givenAll ops outcomes).map .seed) (forLoad w.model config') =
        ((Operation.givenAll ops outcomes).map fun x => .id (s.numbering.id? x), seeded) ∧
      s.numbering.id? (.type ty) = some id ∧
      let again := ∃ done, validateRecords w.model records seeded = .ok () done ∧
        done.numbering.symbolOf? id = some (.type ty)
      (again ↔ w.typeByName beholder (w.typeDecl component).name = some component) ∧
      (w.model.isArray ty = false → again) ∧
      ((∀ u, w.Has (.type u) → (w.typeDecl u).name = (w.typeDecl component).name →
          w.contextOf u = w.contextOf beholder ∨ w.contextOf u = w.contextOf ty →
          u = component) → again) := by
  intro component
  obtain ⟨records, seeded, id, sealing, seeds, hid, again⟩ :=
    found_again_iff built.model_linked config' run reported told answered phase closed
  obtain ⟨named, seen⟩ := World.mem_of_typeByName found
  obtain ⟨hty, hname⟩ := built.wellFormed.named name ty named
  refine ⟨records, seeded, id, sealing, seeds, hid, again, fun plain => again.mpr ?_,
    fun unhidden => again.mpr ?_⟩
  · have lone : w.model.componentType ty = none := Option.isNone_iff_eq_none.mp (by
      simpa [Model.isArray] using plain)
    rw [w.model.baseComponent_of_none lone]
    show w.typeByName beholder (w.typeDecl ty).name = some ty
    rw [hname]
    exact found
  · obtain ⟨hcomponent, hcontext⟩ := built.baseComponent hty
    refine built.typeByName_of_unhidden hcomponent ?_ ?_
    · rw [hcontext]
      exact seen
    · rw [hcontext]
      exact unhidden

/-- What is recorded of the array seen from the root leads back to it, as the root sees the class
of which it is the array. -/
theorem named_type_is_found_again_by_the_root :
    let w := World.shadowed
    let report := Operation.add (.named (some ⟨3⟩) (.seenBy ⟨0⟩))
    let run := performAll w.model [report] (forCompile w.model default)
    w.Built ∧ w.typeByName ⟨0⟩ "[C" = some ⟨3⟩ ∧
      (∃ t, (report, t) ∈ issuedAll w.model [report] (forCompile w.model default) ∧
        (perform w.model report t).1 = .flag true) ∧
      ∃ records seeded id done, sealRecords run.2 = .ok records { run.2 with phase := .sealed } ∧
        performAll w.model ((Operation.givenAll [report] run.1).map .seed)
            (forLoad w.model Config.strict) =
          ((Operation.givenAll [report] run.1).map fun x => .id (run.2.numbering.id? x), seeded) ∧
        run.2.numbering.id? (.type ⟨3⟩) = some id ∧
        validateRecords w.model records seeded = .ok () done ∧
        done.numbering.symbolOf? id = some (.type ⟨3⟩) := by
  intro w report run
  have found : w.typeByName ⟨0⟩ "[C" = some ⟨3⟩ := World.typeByName_shadowed_array (.inl rfl)
  obtain ⟨⟨t, issued, told⟩, answered, phase, closed⟩ :=
    reported_after_seeds (.seenBy ⟨0⟩) default [] World.built_shadowed.model_linked
      World.baseComponent_shadowed_array (by decide) (by decide) (by decide)
  obtain ⟨records, seeded, id, sealing, seeds, hid, again, -, -⟩ :=
    named_type_is_found_again_iff World.built_shadowed found Config.strict rfl issued told answered
      phase closed
  obtain ⟨done, replayed, bound⟩ := again.mpr (by
    rw [World.baseComponent_shadowed_array]
    exact World.typeByName_shadowed_class.1)
  exact ⟨World.built_shadowed, found, ⟨t, issued, told⟩, records, seeded, id, done, sealing, seeds,
    hid, replayed, bound⟩

/-- The class that hides the other finds the array of the other by its name, and a report of that
is answered yes. The record is of the class below the array, which it does not find, so the list
does not lead back to the array. -/
theorem named_array_is_lost_in_the_shadow :
    let w := World.shadowed
    let named := Discovery.named (some ⟨3⟩) (.seenBy ⟨4⟩)
    let ops := [.seed (.type ⟨4⟩), .add named]
    let run := performAll w.model ops (forCompile w.model default)
    w.Built ∧ w.typeByName ⟨4⟩ "[C" = some ⟨3⟩ ∧
      (∃ t, (.add named, t) ∈ issuedAll w.model ops (forCompile w.model default) ∧
        (perform w.model (.add named) t).1 = .flag true) ∧
      (∀ d, .add d ∈ Operation.atomsAll ops → d ≠ named → ∀ r, d.record? w.model = some r →
        w.model.Confirms r) ∧
      ∃ records seeded id, sealRecords run.2 = .ok records { run.2 with phase := .sealed } ∧
        performAll w.model ((Operation.givenAll ops run.1).map .seed) (forLoad w.model default) =
          ((Operation.givenAll ops run.1).map fun x => .id (run.2.numbering.id? x), seeded) ∧
        run.2.numbering.id? (.type ⟨3⟩) = some id ∧
        ¬∃ done, validateRecords w.model records seeded = .ok () done ∧
          done.numbering.symbolOf? id = some (.type ⟨3⟩) := by
  obtain ⟨told, answered, records, seeded, id, sealing, seeds, hid, again⟩ :=
    found_again_after_seeds (.seenBy ⟨4⟩) default default [.type ⟨4⟩]
      World.built_shadowed.model_linked World.baseComponent_shadowed_array (by decide) (by decide)
      (by decide)
  refine ⟨World.built_shadowed, World.typeByName_shadowed_array (.inr rfl), told, answered, records,
    seeded, id, sealing, seeds, hid, ?_⟩
  intro refound
  have hidden : World.shadowed.typeByName ⟨4⟩ "C" = some ⟨2⟩ := again.mp refound
  rw [World.typeByName_shadowed_class.2] at hidden
  cases hidden

/-- A type that was reported to be met in a profile is found again under its ID exactly if the
name and the shape of the innermost component lead to the component. They always lead to a type of
that name and shape, so it is found again if there is no other such type. -/
theorem profiled_type_is_found_again_iff (built : w.Built) (hty : w.Has (.type ty))
    (config' : Config)
    (run : performAll w.model ops (forCompile w.model config) = (outcomes, s))
    (reported : (.add (.named (some ty) .profile), t) ∈
      issuedAll w.model ops (forCompile w.model config))
    (told : (perform w.model (.add (.named (some ty) .profile)) t).1 = .flag true)
    (answered : ∀ d, .add d ∈ Operation.atomsAll ops → d ≠ .named (some ty) .profile →
      ∀ r, d.record? w.model = some r → w.model.Confirms r)
    (phase : s.phase = .building) (closed : s.region.isOpen = false) :
    let component := (w.model.baseComponent ty).1
    let found := w.typeByChain (w.typeDecl component).name (w.chainDigest component)
    (∃ u, found = some u ∧ w.Has (.type u) ∧ (w.typeDecl u).name = (w.typeDecl component).name ∧
      w.chainDigest u = w.chainDigest component) ∧
    ∃ records seeded id, sealRecords s = .ok records { s with phase := .sealed } ∧
      performAll w.model ((Operation.givenAll ops outcomes).map .seed) (forLoad w.model config') =
        ((Operation.givenAll ops outcomes).map fun x => .id (s.numbering.id? x), seeded) ∧
      s.numbering.id? (.type ty) = some id ∧
      let again := ∃ done, validateRecords w.model records seeded = .ok () done ∧
        done.numbering.symbolOf? id = some (.type ty)
      (again ↔ found = some component) ∧
      ((∀ u, w.Has (.type u) → (w.typeDecl u).name = (w.typeDecl component).name →
          w.chainDigest u = w.chainDigest component → u = component) → again) := by
  intro component found
  obtain ⟨records, seeded, id, sealing, seeds, hid, again⟩ :=
    found_again_iff built.model_linked config' run reported told answered phase closed
  obtain ⟨u, leads, hu, hname, hdigest⟩ := built.exists_typeByChain (built.baseComponent hty).1
  refine ⟨⟨u, leads, hu, hname, hdigest⟩, records, seeded, id, sealing, seeds, hid, again,
    fun lone => again.mpr ?_⟩
  rw [lone u hu hname hdigest] at leads
  exact leads

/-- The array of the older class, of which name and shape lead to that class. -/
theorem profiled_type_is_found_again_of_older :
    let w := World.shadowed
    let report := Operation.add (.named (some ⟨3⟩) .profile)
    let run := performAll w.model [report] (forCompile w.model default)
    w.Built ∧ w.Has (.type ⟨3⟩) ∧
      (∃ t, (report, t) ∈ issuedAll w.model [report] (forCompile w.model default) ∧
        (perform w.model report t).1 = .flag true) ∧
      ∃ records seeded id done, sealRecords run.2 = .ok records { run.2 with phase := .sealed } ∧
        performAll w.model ((Operation.givenAll [report] run.1).map .seed)
            (forLoad w.model Config.strict) =
          ((Operation.givenAll [report] run.1).map fun x => .id (run.2.numbering.id? x), seeded) ∧
        run.2.numbering.id? (.type ⟨3⟩) = some id ∧
        validateRecords w.model records seeded = .ok () done ∧
        done.numbering.symbolOf? id = some (.type ⟨3⟩) := by
  intro w report run
  have hty : w.Has (.type ⟨3⟩) := by decide
  obtain ⟨⟨t, issued, told⟩, answered, phase, closed⟩ :=
    reported_after_seeds .profile default [] World.built_shadowed.model_linked
      World.baseComponent_shadowed_array (by rintro x ⟨⟩) (by decide) (by decide)
  obtain ⟨-, records, seeded, id, sealing, seeds, hid, again, -⟩ :=
    profiled_type_is_found_again_iff World.built_shadowed hty Config.strict rfl issued told
      answered phase closed
  obtain ⟨done, replayed, bound⟩ := again.mpr (by
    rw [World.baseComponent_shadowed_array]
    exact World.typeByChain_shadowed (.inl rfl))
  exact ⟨World.built_shadowed, hty, ⟨t, issued, told⟩, records, seeded, id, done, sealing, seeds,
    hid, replayed, bound⟩

/-- The younger class has name and shape of the older one. A report that it was met in a profile
is answered yes, but the list does not lead back to it. -/
theorem profiled_class_is_taken_for_its_twin :
    let w := World.shadowed
    let named := Discovery.named (some ⟨4⟩) .profile
    let ops := [.add named]
    let run := performAll w.model ops (forCompile w.model default)
    w.Built ∧ w.Has (.type ⟨4⟩) ∧
      (∃ t, (.add named, t) ∈ issuedAll w.model ops (forCompile w.model default) ∧
        (perform w.model (.add named) t).1 = .flag true) ∧
      (w.typeDecl ⟨4⟩).name = "C" ∧ w.typeByChain "C" (w.chainDigest ⟨4⟩) = some ⟨2⟩ ∧
      ∃ records seeded id, sealRecords run.2 = .ok records { run.2 with phase := .sealed } ∧
        performAll w.model ((Operation.givenAll ops run.1).map .seed) (forLoad w.model default) =
          ((Operation.givenAll ops run.1).map fun x => .id (run.2.numbering.id? x), seeded) ∧
        run.2.numbering.id? (.type ⟨4⟩) = some id ∧
        ¬∃ done, validateRecords w.model records seeded = .ok () done ∧
          done.numbering.symbolOf? id = some (.type ⟨4⟩) := by
  intro w named ops run
  have twin : w.typeByChain "C" (w.chainDigest ⟨4⟩) = some ⟨2⟩ :=
    World.typeByChain_shadowed (.inr rfl)
  obtain ⟨told, -, records, seeded, id, sealing, seeds, hid, again⟩ :=
    found_again_after_seeds .profile default default [] World.built_shadowed.model_linked
      World.baseComponent_shadowed_class (by rintro x ⟨⟩) (by decide) (by decide)
  refine ⟨World.built_shadowed, by decide, told, rfl, twin, records, seeded, id, sealing, seeds,
    hid, ?_⟩
  intro refound
  have itself : w.typeByChain "C" (w.chainDigest ⟨4⟩) = some ⟨4⟩ := again.mp refound
  rw [twin] at itself
  cases itself

end Session

end Provenance
