import Provenance.Proofs.Dispatching

/-!
Where a lookup finds a procedure. It goes up along supertypes, where the nearest declaration counts,
and then from interface to interface. It does not go on to what an interface has for a supertype, so
it may miss a declaration above a type.
-/
namespace Provenance.World

variable {w : World} {t s u i : TypeRef} {p : ProcRef} {name signature : String}
  {accept : ProcDecl → Bool}

/-- A procedure is what a lookup asks for. -/
def Suits (w : World) (name signature : String) (accept : ProcDecl → Bool) (p : ProcRef) : Prop :=
  (w.procDecl p).name = name ∧ (w.procDecl p).signature = signature ∧ accept (w.procDecl p) = true

/-- A type itself declares such a procedure. -/
def Declares (w : World) (name signature : String) (accept : ProcDecl → Bool) (t : TypeRef) :
    Prop :=
  ∃ p ∈ (w.typeDecl t).procedures, w.Suits name signature accept p

/-- The first such procedure that a type itself declares. -/
def DeclaresFirst (w : World) (name signature : String) (accept : ProcDecl → Bool) (t : TypeRef)
    (p : ProcRef) : Prop :=
  ∃ before after, (w.typeDecl t).procedures = before ++ p :: after ∧
    w.Suits name signature accept p ∧ ∀ q ∈ before, ¬ w.Suits name signature accept q

theorem suits_iff : ((w.procDecl p).isNamed name signature && accept (w.procDecl p)) = true ↔
    w.Suits name signature accept p := by
  rw [ProcDecl.isNamed, Suits, Bool.and_eq_true, Bool.and_eq_true, beq_iff_eq, beq_iff_eq,
    and_assoc]

theorem isSome_declared : (w.declared name signature accept t).isSome ↔
    w.Declares name signature accept t := by
  rw [declared, List.find?_isSome]
  simp only [suits_iff]
  rfl

theorem declared_eq_none : w.declared name signature accept t = none ↔
    ¬ w.Declares name signature accept t := by
  rw [← isSome_declared, Option.not_isSome_iff_eq_none]

theorem declared_eq_some : w.declared name signature accept t = some p ↔
    w.DeclaresFirst name signature accept t p := by
  rw [declared, List.find?_eq_some_iff_append, suits_iff]
  simp only [Bool.not_eq_true', ← Bool.not_eq_true, suits_iff]
  constructor
  · rintro ⟨suits, before, after, split, none⟩
    exact ⟨before, after, split, suits, none⟩
  · rintro ⟨before, after, split, suits, none⟩
    exact ⟨suits, before, after, split, none⟩

/-- Supertypes lead from one type to another. -/
def Climbs (w : World) : TypeRef → TypeRef → Prop :=
  Relation.ReflTransGen fun t s => (w.typeDecl t).superType = some s

/-- Interfaces lead from one type to another. -/
def Implements (w : World) : TypeRef → TypeRef → Prop :=
  Relation.ReflTransGen fun t i => i ∈ (w.typeDecl t).interfaces

/-- What holds of a type and of the interfaces of each of which it holds, holds of all that
interfaces lead to. -/
theorem Implements.keeps {P : TypeRef → Prop} (h : w.Implements t u) (start : P t)
    (step : ∀ v, P v → ∀ i ∈ (w.typeDecl v).interfaces, P i) : P u := by
  induction h with
  | refl => exact start
  | tail _ hnext ih => exact step _ ih _ hnext

/-- Supertypes and then interfaces lead from one type to another. -/
def Searched (w : World) (t u : TypeRef) : Prop := ∃ s, w.Climbs t s ∧ w.Implements s u

theorem Built.climbs_iff (h : w.Built) : w.Climbs t s ↔ s ∈ w.superChain t := by
  simp only [mem_superChain_iff, h.superType_eq]
  rfl

theorem WellFormed.mem_allInterfaces_iff (h : w.WellFormed) :
    u ∈ w.allInterfaces t ↔ ∃ i ∈ (w.superChain t).flatMap w.interfaces, w.Implements i u := by
  rw [allInterfaces, mem_walk_of_has (fun i hi => h.has_chainInterfaces i (List.mem_reverse.mp hi))
    fun _ v hv => h.has_interfaces v (List.mem_reverse.mp hv)]
  simp only [List.mem_reverse]
  rfl

theorem Built.mem_searchOrder_iff (h : w.Built) : u ∈ w.searchOrder t ↔ w.Searched t u := by
  rw [searchOrder, List.mem_append, h.wellFormed.mem_allInterfaces_iff]
  constructor
  · rintro (chain | ⟨i, hi, path⟩)
    · exact ⟨u, h.climbs_iff.mpr chain, .refl⟩
    · obtain ⟨s, hs, hinterface⟩ := List.mem_flatMap.mp hi
      exact ⟨s, h.climbs_iff.mpr hs, .head hinterface path⟩
  · rintro ⟨s, climbs, path⟩
    have hs := h.climbs_iff.mp climbs
    rcases Relation.ReflTransGen.cases_head path with rfl | ⟨i, hi, rest⟩
    · exact .inl hs
    · exact .inr ⟨i, List.mem_flatMap.mpr ⟨s, hs, hi⟩, rest⟩

theorem Built.isSome_findProcedure (h : w.Built) :
    (w.findProcedure t name signature accept).isSome ↔
      ∃ s, w.Searched t s ∧ w.Declares name signature accept s := by
  rw [findProcedure, List.findSome?_isSome_iff]
  simp only [h.mem_searchOrder_iff, isSome_declared]

/-- On the chain the nearest declaration counts, whatever interfaces declare. -/
theorem findProcedure_of_chain
    (declares : ∃ s ∈ w.superChain t, w.Declares name signature accept s) :
    ∃ below s above p, w.superChain t = below ++ s :: above ∧
      (∀ u ∈ below, ¬ w.Declares name signature accept u) ∧
      w.DeclaresFirst name signature accept s p ∧
      w.findProcedure t name signature accept = some p := by
  have found : ((w.superChain t).findSome? (w.declared name signature accept)).isSome := by
    rw [List.findSome?_isSome_iff]
    simpa only [isSome_declared] using declares
  obtain ⟨p, hp⟩ := Option.isSome_iff_exists.mp found
  obtain ⟨below, s, above, split, first, none⟩ := List.findSome?_eq_some_iff.mp hp
  refine ⟨below, s, above, p, split, fun u hu => declared_eq_none.mp (none u hu),
    declared_eq_some.mp first, ?_⟩
  rw [findProcedure, searchOrder, List.findSome?_append, hp]
  rfl

theorem Searched.refl (w : World) (t : TypeRef) : w.Searched t t := ⟨t, .refl, .refl⟩

theorem Searched.interface (h : w.Searched t u) (hi : i ∈ (w.typeDecl u).interfaces) :
    w.Searched t i := by
  obtain ⟨s, climbs, path⟩ := h
  exact ⟨s, climbs, path.tail hi⟩

theorem Searched.below (h : w.Searched s u) (climbs : w.Climbs t s) : w.Searched t u := by
  obtain ⟨v, more, path⟩ := h
  exact ⟨v, climbs.trans more, path⟩

theorem Built.leadsUp_of_searched (h : w.Built) (searched : w.Searched t u) : w.LeadsUp t u := by
  obtain ⟨s, climbs, path⟩ := searched
  have chain : w.LeadsUp t s := leadsUp_of_mem_superChain (h.climbs_iff.mp climbs)
  exact chain.trans (Relation.ReflTransGen.mono (fun _ _ => mem_parents_of_interfaces) _ _ path)

/-- A lookup from a type misses nothing: what it searches has its supertypes searched too. -/
def MissesNothing (w : World) (t : TypeRef) : Prop :=
  ∀ u s, w.Searched t u → (w.typeDecl u).superType = some s → w.Searched t s

theorem MissesNothing.searched_iff (missesNothing : w.MissesNothing t) (h : w.Built) :
    w.Searched t u ↔ w.LeadsUp t u := by
  refine ⟨h.leadsUp_of_searched, fun hup => ?_⟩
  induction hup with
  | refl => exact .refl w t
  | tail _ hnext ih =>
    rcases mem_parents_iff.mp hnext with hsuper | hinterface
    · exact missesNothing _ _ ih (h.superType_eq.symm.trans hsuper)
    · exact ih.interface hinterface

/-- Nothing is missed where interfaces have no supertypes, but other interfaces at most. -/
theorem missesNothing_of_types
    (bare : ∀ u ∈ w.typeRefs, ∀ i ∈ (w.typeDecl u).interfaces, (w.typeDecl i).superType = none)
    (t : TypeRef) : w.MissesNothing t := by
  rintro u s ⟨v, climbs, path⟩ hsuper
  rcases Relation.ReflTransGen.cases_tail path with rfl | ⟨x, -, hinterface⟩
  · exact ⟨s, climbs.tail hsuper, .refl⟩
  · have hx : x ∈ w.typeRefs :=
      mem_typeRefs.mpr (has_of_parents (mem_parents_of_interfaces hinterface))
    cases (bare x hx u hinterface).symm.trans hsuper

/-- A lookup finds something exactly if a suitable procedure is declared where supertypes and then
interfaces lead, and of the declarations on the chain it finds the nearest. If it finds something
from a supertype, it does from the type below. Where no type that is searched has a supertype that
is not, the lookup covers all that is above the type. -/
theorem lookup_climbs_then_follows_interfaces (built : w.Built) (t : TypeRef)
    (name signature : String) (accept : ProcDecl → Bool) :
    ((w.findProcedure t name signature accept).isSome ↔
      ∃ s, w.Searched t s ∧ w.Declares name signature accept s) ∧
    ((∃ s ∈ w.superChain t, w.Declares name signature accept s) →
      ∃ below s above p, w.superChain t = below ++ s :: above ∧
        (∀ u ∈ below, ¬ w.Declares name signature accept u) ∧
        w.DeclaresFirst name signature accept s p ∧
        w.findProcedure t name signature accept = some p) ∧
    (∀ s ∈ w.superChain t, (w.findProcedure s name signature accept).isSome →
      (w.findProcedure t name signature accept).isSome) ∧
    (w.MissesNothing t →
      ((w.findProcedure t name signature accept).isSome ↔
        ∃ s, w.LeadsUp t s ∧ w.Declares name signature accept s) ∧
      ∀ s, w.LeadsUp t s → (w.findProcedure s name signature accept).isSome →
        (w.findProcedure t name signature accept).isSome) := by
  refine ⟨built.isSome_findProcedure, findProcedure_of_chain, fun s hs found => ?_,
    fun missesNothing => ?_⟩
  · obtain ⟨u, searched, declares⟩ := built.isSome_findProcedure.mp found
    exact built.isSome_findProcedure.mpr
      ⟨u, searched.below (built.climbs_iff.mpr hs), declares⟩
  · have covers : (w.findProcedure t name signature accept).isSome ↔
        ∃ s, w.LeadsUp t s ∧ w.Declares name signature accept s := by
      rw [built.isSome_findProcedure]
      simp only [missesNothing.searched_iff built]
    refine ⟨covers, fun s hup found => covers.mpr ?_⟩
    obtain ⟨u, searched, declares⟩ := built.isSome_findProcedure.mp found
    exact ⟨u, hup.trans (built.leadsUp_of_searched searched), declares⟩

theorem Built.withProcedure (h : w.Built) {owner : TypeRef} (name : String)
    (isStatic isPrivate : Bool) (has : w.Has (.type owner)) : (w.withProcedure owner name isStatic isPrivate).Built :=
  .defineProcedure _ h has

/-- A class that extends another and implements an interface, which leads to another interface; the
class above and that other interface declare a procedure of one name. -/
def figures : World :=
  let w := fresh.withType "Named" true none []
  let w := w.withType "Shape" true none [⟨2⟩]
  let w := w.withType "Base" false none []
  let w := w.withType "Circle" false (some ⟨4⟩) [⟨3⟩]
  let w := w.withProcedure ⟨2⟩ "name" false false
  let w := w.withProcedure ⟨2⟩ "area" false false
  w.withProcedure ⟨4⟩ "name" false false

theorem built_figures : figures.Built :=
  Built.fresh
    |>.withType _ _ (by decide)
    |>.withType _ _ (by decide)
    |>.withType _ _ (by decide)
    |>.withType _ _ (by decide)
    |>.withProcedure _ _ _ (by decide)
    |>.withProcedure _ _ _ (by decide)
    |>.withProcedure _ _ _ (by decide)

/-- From the class the procedure of the class above is found under the name that both declare, and
that of the interface under the other. -/
theorem lookup_climbs_then_follows_interfaces_of_figures :
    figures.Built ∧ figures.MissesNothing ⟨5⟩ ∧ figures.LeadsUp ⟨5⟩ ⟨2⟩ ∧
      figures.procedureBySignature ⟨5⟩ ⟨5⟩ "name" "()" = some ⟨2⟩ ∧
      (figures.procedureBySignature ⟨5⟩ ⟨5⟩ "area" "()").isSome := by
  have chain : figures.superChain ⟨5⟩ = [⟨5⟩, ⟨4⟩, ⟨0⟩] := by
    rw [superChain_of_some (s := ⟨4⟩) rfl, superChain_of_some (s := ⟨0⟩) rfl,
      superChain_of_none rfl]
  have missesNothing : figures.MissesNothing ⟨5⟩ := missesNothing_of_types (by decide) _
  have above : figures.LeadsUp ⟨5⟩ ⟨2⟩ :=
    .tail (.single (mem_parents_of_interfaces (by decide : ⟨3⟩ ∈ figures.interfaces ⟨5⟩)))
      (mem_parents_of_interfaces (by decide))
  have lookup (name : String) := lookup_climbs_then_follows_interfaces built_figures ⟨5⟩ name "()"
    fun d => !d.isPrivate || d.owner = ⟨5⟩
  refine ⟨built_figures, missesNothing, above, ?_, ?_⟩
  · obtain ⟨-, nearest, -, -⟩ := lookup "name"
    have declares : ∃ s ∈ figures.superChain ⟨5⟩, figures.Declares "name" "()"
        (fun d => !d.isPrivate || d.owner = ⟨5⟩) s := by
      rw [chain]
      exact ⟨⟨4⟩, by decide, ⟨2⟩, by decide, rfl, rfl, rfl⟩
    obtain ⟨below, s, above, p, split, -, ⟨before, after, procedures, -, -⟩, found⟩ :=
      nearest declares
    have hs : s ∈ [⟨5⟩, ⟨4⟩, ⟨0⟩] := by
      rw [← chain, split]
      exact List.mem_append_right below List.mem_cons_self
    have only : ∀ s ∈ [⟨5⟩, ⟨4⟩, ⟨0⟩], ∀ p ∈ (figures.typeDecl s).procedures, p = ⟨2⟩ := by decide
    have hp : p ∈ (figures.typeDecl s).procedures := by
      rw [procedures]
      exact List.mem_append_right before List.mem_cons_self
    rw [only s hs p hp] at found
    exact found
  · obtain ⟨-, -, -, covers⟩ := lookup "area"
    exact (covers missesNothing).1.mpr ⟨⟨2⟩, above, ⟨1⟩, by decide, rfl, rfl, rfl⟩

/-- An interface with a supertype that declares a procedure, and a class that implements the
interface. -/
def concealed : World :=
  let w := fresh.withType "Named" true none []
  let w := w.withType "Shape" true (some ⟨2⟩) []
  let w := w.withType "Circle" false none [⟨3⟩]
  w.withProcedure ⟨2⟩ "name" false false

theorem built_concealed : concealed.Built :=
  Built.fresh
    |>.withType _ _ (by decide)
    |>.withType _ _ (by decide)
    |>.withType _ _ (by decide)
    |>.withProcedure _ _ _ (by decide)

/-- The class is a subtype of both interfaces, and the procedure is found on these, but not on the
class. -/
theorem lookup_misses_supertypes_of_interfaces :
    concealed.Built ∧ concealed.LeadsUp ⟨4⟩ ⟨2⟩ ∧ concealed.isSubtype ⟨4⟩ ⟨2⟩ = true ∧
      (concealed.procedureBySignature ⟨2⟩ ⟨4⟩ "name" "()").isSome ∧
      (concealed.procedureBySignature ⟨3⟩ ⟨4⟩ "name" "()").isSome ∧
      concealed.procedureBySignature ⟨4⟩ ⟨4⟩ "name" "()" = none := by
  have above : concealed.LeadsUp ⟨4⟩ ⟨2⟩ :=
    .tail (.single (mem_parents_of_interfaces (by decide : ⟨3⟩ ∈ concealed.interfaces ⟨4⟩)))
      (mem_parents_of_superType rfl)
  have found {t : TypeRef} (climbs : concealed.Climbs t ⟨2⟩) :
      (concealed.procedureBySignature t ⟨4⟩ "name" "()").isSome :=
    built_concealed.isSome_findProcedure.mpr
      ⟨⟨2⟩, ⟨⟨2⟩, climbs, .refl⟩, ⟨0⟩, by decide, rfl, rfl, rfl⟩
  refine ⟨built_concealed, above, (built_concealed.wellFormed.isSubtype_iff (.inl rfl)).mpr above,
    found .refl, found (.single rfl), ?_⟩
  rw [← Option.not_isSome_iff_eq_none, procedureBySignature, built_concealed.isSome_findProcedure]
  rintro ⟨u, ⟨s, climbs, path⟩, p, hp, -⟩
  have start : ∀ v ∈ concealed.superChain ⟨4⟩, v ∈ [⟨4⟩, ⟨0⟩, ⟨3⟩] := by
    rw [superChain_of_some (s := ⟨0⟩) rfl, superChain_of_none rfl]
    decide
  -- The class, the root and the interface are all that is searched, and none declares anything.
  have hu : u ∈ [⟨4⟩, ⟨0⟩, ⟨3⟩] :=
    path.keeps (P := fun v => v ∈ [⟨4⟩, ⟨0⟩, ⟨3⟩])
      (start s (built_concealed.climbs_iff.mp climbs)) (by decide)
  have none : ∀ v ∈ [⟨4⟩, ⟨0⟩, ⟨3⟩], (concealed.typeDecl v).procedures = [] := by decide
  rw [none u hu] at hp
  cases hp

end Provenance.World
