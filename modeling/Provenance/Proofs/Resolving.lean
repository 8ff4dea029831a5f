import Mathlib.Data.List.Nodup
import Provenance.Proofs.Ambiguity

/-!
Resolving names. The list of a name holds the types that carry it now, each of them once, however
often types were renamed and whatever names they shared, and there is no list without types. So a
name leads to a type in the context it is looked up from if one there carries it, else to one that
every context sees, and to nothing only if there is neither.
-/
namespace Provenance.World

variable {w w' : World} {t : TypeRef} {name : String} {c : Context}

/-- No type is listed twice under a name, and no name is kept for no type. -/
structure Tidy (w : World) : Prop where
  nodup : ∀ name, (w.named name).Nodup
  full : ∀ name : String, w.byName[name]? ≠ some []

namespace Tidy

theorem congr (h : w.Tidy) (same : w'.byName = w.byName) : w'.Tidy := by
  have named (name : String) : w'.named name = w.named name := by
    rw [World.named, same, World.named]
  exact ⟨fun name => by rw [named]; exact h.nodup name, fun name => by rw [same]; exact h.full name⟩

theorem addName (h : w.Tidy) (new : t ∉ w.named name) : (w.addName name t).Tidy := by
  constructor
  · intro other
    rw [named_addName]
    split
    · rename_i same
      rw [same, ← List.concat_eq_append]
      exact (h.nodup name).concat new
    · exact h.nodup other
  · intro other
    rw [World.addName, Std.HashMap.getElem?_insert]
    split
    · simp
    · exact h.full other

theorem removeName (h : w.Tidy) (name : String) (t : TypeRef) : (w.removeName name t).Tidy := by
  constructor
  · intro other
    rw [named_removeName]
    split
    · exact (h.nodup other).filter _
    · exact h.nodup other
  · intro other
    rw [World.removeName]
    dsimp only
    split
    · rw [Std.HashMap.getElem?_erase]
      split
      · simp
      · exact h.full other
    · rename_i some
      rw [Std.HashMap.getElem?_insert]
      split
      · intro none
        rw [Option.some.inj none] at some
        exact some rfl
      · exact h.full other

theorem addType (h : w.Tidy) (wellFormed : w.WellFormed) (d : TypeDecl) : (w.addType d).2.Tidy := by
  have new : (⟨w.types.size⟩ : TypeRef) ∉ w.named d.name := fun mem =>
    Nat.lt_irrefl _ (wellFormed.named d.name _ mem).1
  exact (h.addName new).congr rfl

/-- A type that takes a name is not listed under it any more once it has given up its own. -/
theorem rename (h : w.Tidy) (wellFormed : w.WellFormed) (t : TypeRef) (name : String) :
    (w.rename t name).Tidy := by
  have modified : (w.modifyType t fun d => { d with name := name }).Tidy := h.congr rfl
  refine (modified.removeName (w.typeDecl t).name t).addName fun mem => ?_
  rw [named_removeName] at mem
  split at mem
  · simp at mem
  · rename_i other
    exact other (wellFormed.named name t mem).2.symm

end Tidy

theorem Built.tidy (h : w.Built) : w.Tidy := by
  induction h with
  | fresh =>
    have nothing : empty.Tidy :=
      ⟨fun name => by simp [named_empty], fun name => by simp [empty]⟩
    have root : (empty.addName "Object" ⟨0⟩).Tidy := nothing.addName (by simp [named_empty])
    have both : ((empty.addName "Object" ⟨0⟩).addName "Type" ⟨1⟩).Tidy :=
      root.addName (by simp [named_addName, named_empty])
    exact both.congr rfl
  | newContext _ ih | setMaySkipFrames _ _ _ _ ih => exact ih.congr rfl
  | defineType spec built _ _ ih => exact ih.addType built.wellFormed _
  | arrayOf t built _ ih =>
    rw [World.arrayOf]
    split
    · exact ih
    · exact (ih.addType built.wellFormed _).congr rfl
  | rename t name built _ ih => exact ih.rename built.wellFormed t name
  | markInitialized _ _ _ _ ih | addEntry _ _ _ _ ih | defineProcedure _ _ _ ih =>
    exact ih.congr rfl

/-- Under a name are listed the types that have it. -/
theorem Built.mem_named_iff (h : w.Built) :
    t ∈ w.named name ↔ w.Has (.type t) ∧ (w.typeDecl t).name = name := by
  refine ⟨h.wellFormed.named name t, ?_⟩
  rintro ⟨has, rfl⟩
  exact h.listed t has

/-- A type of the context has the name. -/
def Carries (w : World) (name : String) (c : Context) (t : TypeRef) : Prop :=
  w.Has (.type t) ∧ (w.typeDecl t).name = name ∧ w.contextOf t = c

/-- The first type of a context under a name is one that carries it, and there is a first if any
does. -/
theorem Built.find_carrier (h : w.Built) (name : String) (c : Context) :
    (∃ t, (w.named name).find? (fun t => w.contextOf t = c) = some t ∧ w.Carries name c t) ∨
      (w.named name).find? (fun t => w.contextOf t = c) = none ∧ ∀ t, ¬ w.Carries name c t := by
  cases hfind : (w.named name).find? fun t => w.contextOf t = c with
  | some t =>
    obtain ⟨has, hname⟩ := h.mem_named_iff.mp (List.mem_of_find?_eq_some hfind)
    exact .inl ⟨t, rfl, has, hname, by simpa using List.find?_some hfind⟩
  | none =>
    refine .inr ⟨rfl, ?_⟩
    rintro t ⟨has, hname, hcontext⟩
    have other := List.find?_eq_none.mp hfind t (h.mem_named_iff.mpr ⟨has, hname⟩)
    exact other (decide_eq_true hcontext)

/-- Under each name exactly the types that have it are listed, each once, and no list is empty. A
name leads to a type of the context of the beholder that carries it. If there is none, it leads to
one that every context sees, and if there is none of these, to nothing. -/
theorem names_resolve_exactly (built : w.Built) :
    (∀ name t, t ∈ w.named name ↔ w.Has (.type t) ∧ (w.typeDecl t).name = name) ∧
    (∀ name, (w.named name).Nodup) ∧
    (∀ name : String, w.byName[name]? ≠ some []) ∧
    (∀ name,
      (∃ t, w.systemTypeByName name = some t ∧ w.Carries name .system t) ∨
        w.systemTypeByName name = none ∧ ∀ t, ¬ w.Carries name .system t) ∧
    ∀ beholder name,
      (∃ t, w.typeByName beholder name = some t ∧ w.Carries name (w.contextOf beholder) t) ∨
        (∀ t, ¬ w.Carries name (w.contextOf beholder) t) ∧
          w.typeByName beholder name = w.systemTypeByName name := by
  refine ⟨fun _ _ => built.mem_named_iff, built.tidy.nodup, built.tidy.full,
    fun name => built.find_carrier name .system, fun beholder name => ?_⟩
  rw [typeByName, Option.orElse_eq_orElse, Option.orElse_eq_or]
  rcases built.find_carrier name (w.contextOf beholder) with ⟨t, found, carries⟩ | ⟨nothing, other⟩
  · exact .inl ⟨t, by rw [found, Option.some_or], carries⟩
  · exact .inr ⟨other, by rw [nothing, Option.none_or]⟩

/-- A class that every context sees, its array, and a class of another context that takes the name
of the first. That one is then given the name it has, and the array a name of its own and back. -/
def rechristened : World :=
  let w := ((fresh.newContext.2.withClass "A" .system).withClass "B" ⟨1⟩)
  let w := ((w.arrayOf ⟨2⟩).2.rename ⟨3⟩ "A").rename ⟨2⟩ "A"
  (w.rename ⟨4⟩ "C").rename ⟨4⟩ "[A"

theorem built_rechristened : rechristened.Built :=
  .rename _ _ (.rename _ _ (.rename _ _ (.rename _ _ (.arrayOf _
    (((Built.newContext .fresh).withClass _ _).withClass _ _)
    (by decide)) (by decide)) (by decide)) (by decide)) (by decide)

theorem carries_rechristened (h : rechristened.Carries name c t) :
    (name, c, t) ∈ [("Object", .system, ⟨0⟩), ("Type", .system, ⟨1⟩), ("A", .system, ⟨2⟩),
      ("A", ⟨1⟩, ⟨3⟩), ("[A", .system, (⟨4⟩ : TypeRef))] := by
  obtain ⟨has, rfl, rfl⟩ := h
  have mem : t ∈ [⟨0⟩, ⟨1⟩, ⟨2⟩, ⟨3⟩, (⟨4⟩ : TypeRef)] := mem_typeRefs.mpr has
  simp only [List.mem_cons, List.not_mem_nil, or_false] at mem
  rcases mem with rfl | rfl | rfl | rfl | rfl
  · exact .head _
  · exact .tail _ (.head _)
  · exact .tail _ (.tail _ (.head _))
  · exact .tail _ (.tail _ (.tail _ (.head _)))
  · exact .tail _ (.tail _ (.tail _ (.tail _ (.head _))))

/-- The two classes of one name are told apart by who looks for them, and nothing has the name that
one of them gave up. -/
theorem names_resolve_exactly_of_rechristened :
    rechristened.Built ∧ ⟨2⟩ ∈ rechristened.named "A" ∧ ⟨3⟩ ∈ rechristened.named "A" ∧
      rechristened.typeByName ⟨3⟩ "A" = some ⟨3⟩ ∧ rechristened.typeByName ⟨0⟩ "A" = some ⟨2⟩ ∧
      rechristened.typeByName ⟨3⟩ "B" = none := by
  obtain ⟨listed, -, -, system, seen⟩ := names_resolve_exactly built_rechristened
  refine ⟨built_rechristened, (listed _ _).mpr ⟨by decide, rfl⟩,
    (listed _ _).mpr ⟨by decide, rfl⟩, ?_, ?_, ?_⟩
  · rcases seen ⟨3⟩ "A" with ⟨t, found, carries⟩ | ⟨other, -⟩
    · have itself : t = ⟨3⟩ := by
        simpa [show rechristened.contextOf ⟨3⟩ = ⟨1⟩ from rfl, Context.system]
          using carries_rechristened carries
      rw [found, itself]
    · exact absurd ⟨by decide, rfl, rfl⟩ (other ⟨3⟩)
  · rcases seen ⟨0⟩ "A" with ⟨t, found, carries⟩ | ⟨other, -⟩
    · have shared : t = ⟨2⟩ := by
        simpa [show rechristened.contextOf ⟨0⟩ = .system from rfl, Context.system]
          using carries_rechristened carries
      rw [found, shared]
    · exact absurd ⟨by decide, rfl, rfl⟩ (other ⟨2⟩)
  · have unnamed (t : TypeRef) (c : Context) : ¬ rechristened.Carries "B" c t := fun carries => by
      simpa using carries_rechristened carries
    rcases seen ⟨3⟩ "B" with ⟨t, -, carries⟩ | ⟨-, same⟩
    · exact absurd carries (unnamed t _)
    · rcases system "B" with ⟨t, -, carries⟩ | ⟨nothing, -⟩
      · exact absurd carries (unnamed t _)
      · rw [same, nothing]

end Provenance.World
