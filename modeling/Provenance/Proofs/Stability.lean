import Mathlib.Data.List.Basic
import Mathlib.Data.List.Find
import Provenance.Proofs.Answers
import Provenance.Proofs.Growth
import Provenance.Proofs.Replaying

/-!
What a world answers after it has grown. Whatever is asked about one type is answered as
before, if there was an answer: walks up the hierarchy stay among the types there were, and
names lead where they led. What is asked about everything below a type is answered as before
or not at all, for the types below it may have become more.
-/
namespace Provenance

theorem findSome?_congr {α β : Type} {f g : α → Option β} {l : List α}
    (h : ∀ a ∈ l, f a = g a) : l.findSome? f = l.findSome? g := by
  induction l with
  | nil => rfl
  | cons a l ih =>
    rw [List.findSome?_cons, List.findSome?_cons, h a List.mem_cons_self,
      ih fun b hb => h b (List.mem_cons_of_mem a hb)]

/-- The second answer is the first one, if that was an answer. -/
def Kept {α : Type} (first second : Option α) : Prop := ∀ a, first = some a → second = some a

namespace Kept

variable {α β : Type} {first second : Option α}

theorem of_eq (h : second = first) : Kept first second := fun _ ha => h.trans ha

theorem none : Kept none second := fun _ ha => by cases ha

theorem bind {f g : α → Option β} (h : Kept first second)
    (hf : ∀ a, first = some a → Kept (f a) (g a)) : Kept (first.bind f) (second.bind g) := by
  intro b hb
  obtain ⟨a, ha, hfa⟩ := Option.bind_eq_some_iff.mp hb
  rw [h a ha]
  exact hf a ha b hfa

theorem filter {p q : α → Bool} (h : Kept first second)
    (same : ∀ a, first = some a → q a = p a) : Kept (first.filter p) (second.filter q) := by
  intro a ha
  obtain ⟨hfirst, hp⟩ := Option.filter_eq_some_iff.mp ha
  exact Option.filter_eq_some_iff.mpr ⟨h a hfirst, (same a hfirst).trans hp⟩

end Kept

/-- A walk that stays below a bound is the same under a larger one. -/
theorem walk_congr {bound bound' : Nat} {next next' : TypeRef → List TypeRef}
    {seen : Std.HashSet TypeRef} {start : List TypeRef} (larger : bound ≤ bound')
    (same : ∀ t, t.index < bound → next' t = next t)
    (inside : ∀ t, ∀ u ∈ next t, u.index < bound)
    (hstart : ∀ t ∈ start, t.index < bound) :
    walk bound' next' seen start = walk bound next seen start := by
  fun_induction walk bound next seen start with
  | case1 => rw [walk]
  | case2 seen u pending hu ih =>
    rw [walk, if_pos ⟨Nat.lt_of_lt_of_le hu.1 larger, hu.2⟩, same u hu.1, ih]
    intro t ht
    rcases List.mem_append.mp ht with hnext | hpending
    · exact inside u t hnext
    · exact hstart t (List.mem_cons_of_mem u hpending)
  | case3 seen u pending hu ih =>
    have hseen : ¬(u.index < bound' ∧ u ∉ seen) :=
      fun h => hu ⟨hstart u List.mem_cons_self, h.2⟩
    rw [walk, if_neg hseen, ih fun t ht => hstart t (List.mem_cons_of_mem u ht)]

namespace World

variable {w w' : World} {t s : TypeRef} {p : ProcRef} {name signature : String} {index : UInt32}

theorem superChain_of_none (h : w.superType t = none) : w.superChain t = [t] := by
  rw [superChain]
  split
  · rfl
  · simp_all

theorem superChain_of_some (h : w.superType t = some s) :
    w.superChain t = t :: w.superChain s := by
  rw [superChain]
  split
  · simp_all
  · simp_all

theorem isSubtype_of_some {a b : TypeRef} (ha : w.component t = some a)
    (hb : w.component s = some b) : w.isSubtype t s = (decide (t = s) || w.isSubtype a b) := by
  rw [isSubtype]
  split
  · simp_all
  · simp_all

theorem isSubtype_of_none (hnone : ∀ a b, w.component t = some a → w.component s ≠ some b) :
    w.isSubtype t s = (decide (t = s) || w.isAbove s t) := by
  rw [isSubtype]
  split
  · rename_i a b ha hb
    exact absurd hb (hnone a b ha)
  · rfl

theorem self_mem_superChain (w : World) (t : TypeRef) : t ∈ w.superChain t := by
  rw [superChain]
  exact List.mem_cons_self

/-- Where no interface and no array comes in, the types above a type are those on its chain. -/
theorem isSubtype_of_chain (hcomponent : w.component t = none)
    (hinterfaces : (w.superChain t).flatMap w.interfaces = []) :
    w.isSubtype t s = (w.superChain t).contains s := by
  have habove : w.aboveInterfaces t = [] := by
    rw [aboveInterfaces, hinterfaces, walk]
  have hnone : ∀ a b, w.component t = some a → w.component s ≠ some b := by
    intro a b ha
    rw [hcomponent] at ha
    cases ha
  rw [isSubtype_of_none hnone, isAbove, habove]
  by_cases hts : t = s
  · subst hts
    simp [w.self_mem_superChain t]
  · simp [hts]

namespace Extends

theorem superType_eq (e : w'.Extends w) (ht : w.Has (.type t)) :
    w'.superType t = w.superType t := by
  rw [superType, superType, (e.typeDecl t ht).eq]

theorem component_eq (e : w'.Extends w) (ht : w.Has (.type t)) :
    w'.component t = w.component t := by
  rw [component, component, (e.typeDecl t ht).eq]

theorem interfaces_eq (e : w'.Extends w) (ht : w.Has (.type t)) :
    w'.interfaces t = w.interfaces t := by
  rw [interfaces, interfaces, (e.typeDecl t ht).eq]

theorem superChain_eq (e : w'.Extends w) (h : w.WellFormed) (ht : w.Has (.type t)) :
    w'.superChain t = w.superChain t := by
  fun_induction w.superChain t with
  | case1 t ih =>
    split
    · rename_i hnone
      rw [superChain_of_none ((e.superType_eq ht).trans hnone)]
    · rename_i s hs
      rw [superChain_of_some ((e.superType_eq ht).trans hs), ih s hs (h.has_superType hs)]

theorem chainInterfaces_eq (e : w'.Extends w) (h : w.WellFormed) (ht : w.Has (.type t)) :
    (w'.superChain t).flatMap w'.interfaces = (w.superChain t).flatMap w.interfaces := by
  rw [e.superChain_eq h ht]
  exact List.flatMap_congr fun s hs => e.interfaces_eq (h.has_superChain ht s hs)

theorem allInterfaces_eq (e : w'.Extends w) (h : w.WellFormed) (ht : w.Has (.type t)) :
    w'.allInterfaces t = w.allInterfaces t := by
  rw [allInterfaces, allInterfaces, e.chainInterfaces_eq h ht]
  refine walk_congr e.types (fun u hu => congrArg _ (e.interfaces_eq hu)) ?_ ?_
  · intro u i hi
    exact h.has_interfaces i (List.mem_reverse.mp hi)
  · intro i hi
    exact h.has_chainInterfaces i (List.mem_reverse.mp hi)

theorem aboveInterfaces_eq (e : w'.Extends w) (h : w.WellFormed) (ht : w.Has (.type t)) :
    w'.aboveInterfaces t = w.aboveInterfaces t := by
  rw [aboveInterfaces, aboveInterfaces, e.chainInterfaces_eq h ht]
  refine walk_congr e.types (fun u hu => ?_) (fun _ => h.has_parents) h.has_chainInterfaces
  rw [parents, parents, e.superType_eq hu, e.interfaces_eq hu]

theorem isAbove_eq (e : w'.Extends w) (h : w.WellFormed) (ht : w.Has (.type t)) :
    w'.isAbove s t = w.isAbove s t := by
  rw [isAbove, isAbove, e.superChain_eq h ht, e.aboveInterfaces_eq h ht]

theorem isSubtype_eq (e : w'.Extends w) (h : w.WellFormed) (ht : w.Has (.type t))
    (hs : w.Has (.type s)) : w'.isSubtype t s = w.isSubtype t s := by
  fun_induction w.isSubtype t s with
  | case1 t s ih =>
    split
    · rename_i a b ha hb
      rw [isSubtype_of_some ((e.component_eq ht).trans ha) ((e.component_eq hs).trans hb),
        ih a b ha (h.has_component ha) (h.has_component hb)]
    · rename_i hnone
      rw [isSubtype_of_none, e.isAbove_eq h ht]
      rw [e.component_eq ht, e.component_eq hs]
      exact hnone

theorem level_eq (e : w'.Extends w) (h : w.WellFormed) (ht : w.Has (.type t)) :
    w'.level t = w.level t := by
  rw [level, level, e.interfaces_eq ht, (e.typeDecl t ht).eq]
  refine congrArg _ (List.map_congr_left fun i hi => ?_)
  rw [(e.typeDecl i ((h.covers t).interfaces i hi)).eq]

theorem procedureText_eq (e : w'.Extends w) (hp : w.Has (.procedure p)) :
    w'.procedureText p = w.procedureText p := by
  rw [procedureText, procedureText, e.procDecl p hp]

theorem chainDigest_eq (e : w'.Extends w) (h : w.WellFormed) (ht : w.Has (.type t)) :
    w'.chainDigest t = w.chainDigest t := by
  have hlevels : (w'.superChain t).flatMap w'.level = (w.superChain t).flatMap w.level := by
    rw [e.superChain_eq h ht]
    exact List.flatMap_congr fun s hs => e.level_eq h (h.has_superChain ht s hs)
  have hprocedures : (w'.typeDecl t).procedures.map w'.procedureText =
      (w.typeDecl t).procedures.map w.procedureText := by
    rw [(e.typeDecl t ht).eq]
    exact List.map_congr_left fun p hp => e.procedureText_eq ((h.covers t).procedures p hp)
  rw [chainDigest, chainDigest, shape, shape, hlevels, hprocedures]

theorem owner_eq (e : w'.Extends w) (hp : w.Has (.procedure p)) :
    (w'.procDecl p).owner = (w.procDecl p).owner := by
  rw [e.procDecl p hp]

theorem isAbstract_eq (e : w'.Extends w) (hp : w.Has (.procedure p)) :
    (w'.procDecl p).isAbstract = (w.procDecl p).isAbstract := by
  rw [e.procDecl p hp]

theorem declaringType_eq (e : w'.Extends w) (h : w.WellFormed) (ht : w.Has (.type t))
    (isStatic : Option Bool) :
    w'.declaringType t name isStatic = w.declaringType t name isStatic := by
  rw [declaringType, declaringType, e.superChain_eq h ht]
  refine List.find?_congr fun s hs => ?_
  rw [(e.typeDecl s (h.has_superChain ht s hs)).eq]

/-- A search for a procedure does not tell whether its frame may be skipped. -/
theorem findProcedure_eq (e : w'.Extends w) (h : w.WellFormed) (ht : w.Has (.type t))
    (accept : ProcDecl → Bool)
    (blind : ∀ d skip, accept { d with maySkipFrames := skip } = accept d) :
    w'.findProcedure t name signature accept = w.findProcedure t name signature accept := by
  rw [findProcedure, findProcedure, searchOrder, searchOrder, e.superChain_eq h ht,
    e.allInterfaces_eq h ht]
  refine findSome?_congr fun s hs => ?_
  have hhas : w.Has (.type s) := by
    rcases List.mem_append.mp hs with hs | hs
    · exact h.has_superChain ht s hs
    · exact (mem_walk_iff.mp hs).is_open.1
  rw [declared, declared, (e.typeDecl s hhas).eq]
  refine List.find?_congr fun p hp => ?_
  rw [e.procDecl p ((h.covers s).procedures p hp), blind]
  rfl

/-- What is found under a name is found again, for nothing new has the name. -/
theorem kept_find_named (e : w'.Extends w) (h : w.WellFormed) {accept accept' : TypeRef → Bool}
    (same : ∀ t, w.Has (.type t) → accept' t = accept t) :
    Kept ((w.named name).find? accept) ((w'.named name).find? accept') := by
  rcases e.named name with hnone | hsame
  · rw [hnone]
    exact .none
  · rw [hsame]
    exact .of_eq (List.find?_congr fun t ht => same t (h.named name t ht).1)

theorem contextOf_eq (e : w'.Extends w) (ht : w.Has (.type t)) :
    w'.contextOf t = w.contextOf t := by
  rw [contextOf, contextOf, (e.typeDecl t ht).eq]

theorem kept_systemTypeByName (e : w'.Extends w) (h : w.WellFormed) :
    Kept (w.systemTypeByName name) (w'.systemTypeByName name) :=
  e.kept_find_named h fun t ht => by rw [e.contextOf_eq ht]

theorem kept_typeByChain (e : w'.Extends w) (h : w.WellFormed) {digest : Digest} :
    Kept (w.typeByChain name digest) (w'.typeByChain name digest) :=
  e.kept_find_named h fun t ht => by rw [e.chainDigest_eq h ht]

theorem kept_typeByName (e : w'.Extends w) (h : w.WellFormed) (hs : w.Has (.type s)) :
    Kept (w.typeByName s name) (w'.typeByName s name) := by
  have hsame : ∀ t, w.Has (.type t) →
      decide (w'.contextOf t = w'.contextOf s) = decide (w.contextOf t = w.contextOf s) := by
    intro t ht
    rw [e.contextOf_eq ht, e.contextOf_eq hs]
  have hsystem : ∀ t, w.Has (.type t) →
      decide (w'.contextOf t = .system) = decide (w.contextOf t = .system) := by
    intro t ht
    rw [e.contextOf_eq ht]
  rcases e.named name with hnone | hnamed
  · simp only [typeByName, systemTypeByName, hnone]
    exact .none
  · refine .of_eq ?_
    rw [typeByName, typeByName, systemTypeByName, systemTypeByName, hnamed]
    rw [List.find?_congr fun t ht => hsame t (h.named name t ht).1,
      List.find?_congr fun t ht => hsystem t (h.named name t ht).1]

theorem kept_entry (e : w'.Extends w) (hs : w.Has (.type s)) :
    Kept (w.entry s index) (w'.entry s index) :=
  fun _ hentry => getElem?_of_front (e.typeDecl s hs).entries hentry

theorem kept_entryType (e : w'.Extends w) (h : w.WellFormed) (hs : w.Has (.type s)) :
    Kept (w.entryType s index) (w'.entryType s index) :=
  (e.kept_entry hs).bind fun _ _ => e.kept_typeByName h hs

/-- A field is found again from the name of a type that has it or inherits it. -/
theorem kept_declaringType (e : w'.Extends w) (h : w.WellFormed) (hs : w.Has (.type s))
    {owner : String} (isStatic : Option Bool) :
    Kept ((w.typeByName s owner).bind fun t => w.declaringType t name isStatic)
      ((w'.typeByName s owner).bind fun t => w'.declaringType t name isStatic) :=
  (e.kept_typeByName h hs).bind fun _ ht =>
    .of_eq (e.declaringType_eq h (h.has_typeByName ht) isStatic)

theorem kept_entryDefiningType (e : w'.Extends w) (h : w.WellFormed) (hs : w.Has (.type s))
    {isStatic : Bool} :
    Kept (w.entryDefiningType s index isStatic) (w'.entryDefiningType s index isStatic) := by
  refine (e.kept_entry hs).bind fun entry _ => ?_
  cases entry with
  | field owner name declaredStatic =>
    show Kept (if _ then _ else _) (if _ then _ else _)
    split
    · exact e.kept_declaringType h hs _
    · exact .none
  | type | procedure => exact .none

theorem kept_entryDeclaringType (e : w'.Extends w) (h : w.WellFormed) (hs : w.Has (.type s)) :
    Kept (w.entryDeclaringType s index) (w'.entryDeclaringType s index) := by
  refine (e.kept_entry hs).bind fun entry _ => ?_
  cases entry with
  | field owner name _ => exact e.kept_declaringType h hs none
  | type | procedure => exact .none

theorem kept_entryDispatchType (e : w'.Extends w) (h : w.WellFormed) (hs : w.Has (.type s)) :
    Kept (w.entryDispatchType s index) (w'.entryDispatchType s index) := by
  refine (e.kept_entry hs).bind fun entry _ => ?_
  split
  · refine (e.kept_typeByName h hs).filter fun t ht => ?_
    rw [(e.typeDecl t (h.has_typeByName ht)).eq]
  · exact .none

theorem kept_entryProcedure (e : w'.Extends w) (h : w.WellFormed) (hs : w.Has (.type s))
    {dispatch : Dispatch} :
    Kept (w.entryProcedure s index dispatch) (w'.entryProcedure s index dispatch) := by
  refine (e.kept_entry hs).bind fun entry _ => ?_
  cases entry with
  | procedure owner name signature declaredDispatch =>
    show Kept (if _ then _ else _) (if _ then _ else _)
    split
    · refine (e.kept_typeByName h hs).bind fun t ht => .of_eq ?_
      exact e.findProcedure_eq h (h.has_typeByName ht) _ fun _ _ => rfl
    · exact .none
  | type | field => exact .none

theorem kept_entryStaticType (e : w'.Extends w) (h : w.WellFormed) (hs : w.Has (.type s)) :
    Kept (w.entryStaticType s index) (w'.entryStaticType s index) := by
  refine (e.kept_entry hs).bind fun entry _ => ?_
  split
  · exact e.kept_declaringType h hs (some true)
  · refine (e.kept_entryProcedure h hs).bind fun p hp => .of_eq ?_
    rw [e.owner_eq (h.has_entryProcedure hp)]
  · exact .none

theorem kept_entryInterfaceProcedure (e : w'.Extends w) (h : w.WellFormed)
    (hs : w.Has (.type s)) (ht : w.Has (.type t)) :
    Kept (w.entryInterfaceProcedure s t index) (w'.entryInterfaceProcedure s t index) := by
  refine (e.kept_entry hs).bind fun entry _ => ?_
  split
  · exact .of_eq (e.findProcedure_eq h ht _ fun _ _ => rfl)
  · exact .none

theorem kept_entryImproperProcedure (e : w'.Extends w) (h : w.WellFormed)
    (hs : w.Has (.type s)) :
    Kept (w.entryImproperProcedure s index) (w'.entryImproperProcedure s index) := by
  refine (e.kept_entry hs).bind fun entry _ => ?_
  split
  · refine (e.kept_typeByName h hs).bind fun t ht => ?_
    refine Kept.filter (.of_eq ?_) fun p hp => ?_
    · rw [e.findProcedure_eq h (h.has_typeByName ht) (fun d => !d.isStatic) fun _ _ => rfl,
        e.findProcedure_eq h h.rootType (fun d => !d.isStatic) fun _ _ => rfl]
    · rw [e.owner_eq (h.has_orElse_findProcedure hp), (e.typeDecl _ (h.owner p)).eq]
  · exact .none

theorem procedureAt_eq (e : w'.Extends w) (ht : w.Has (.type t)) :
    w'.procedureAt t index = w.procedureAt t index := by
  rw [procedureAt, procedureAt, (e.typeDecl t ht).eq]

theorem slotOf_eq (e : w'.Extends w) (ht : w.Has (.type t)) :
    w'.slotOf t index = w.slotOf t index := by
  rw [slotOf, slotOf, (e.typeDecl t ht).eq]

theorem virtualProcedureAt_eq (e : w'.Extends w) (h : w.WellFormed) (ht : w.Has (.type t))
    {offset : Int32} {ignore : Bool} :
    w'.virtualProcedureAt t offset ignore = w.virtualProcedureAt t offset ignore := by
  rw [virtualProcedureAt, virtualProcedureAt, (e.typeDecl t ht).eq]
  split
  · rfl
  · cases hp : (w.typeDecl t).vtable[offset.toInt.toNat]? with
    | none => rfl
    | some p =>
      rw [Option.filter_some, Option.filter_some,
        e.isAbstract_eq ((h.covers t).vtable p (List.mem_of_getElem? hp))]

theorem isInstanceOf_eq (e : w'.Extends w) (h : w.WellFormed) (ht : w.Has (.type t))
    (hs : w.Has (.type s)) (fixed : Bool) :
    w'.isInstanceOf t s fixed = w.isInstanceOf t s fixed := by
  rw [isInstanceOf, isInstanceOf, e.isSubtype_eq h ht hs, e.isSubtype_eq h hs ht,
    (e.typeDecl t ht).eq, (e.typeDecl s hs).eq]

end Extends

end World

end Provenance
