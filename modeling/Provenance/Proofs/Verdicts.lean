import Provenance.Proofs.Subtyping
import Provenance.Proofs.Ambiguity

/-!
What a verdict on instances is worth. A verdict on an object whose type is pinned down tells
whether the type is a subtype. Otherwise yes means that all subtypes of the one type are subtypes
of the other, and no that they have none in common. The query looks at nothing but the two types,
so it relies on types being declared as what they are; and whether an interface is involved it asks
of the two types and not of their components, so it takes an array of an interface and an array of
a class for unrelated.
-/
namespace Provenance.World

variable {w : World} {t s a b : TypeRef}

/-- Types are declared as what they are: nothing extends or implements an array, what is implemented
is an interface, an interface extends an interface or the root, and a class extends a class. -/
structure WellSorted (w : World) : Prop where
  leaves : w.ArraysAreLeaves
  interfaces : ∀ t, ∀ i ∈ w.interfaces t, (w.typeDecl i).isInterface = true
  superInterface : ∀ t s, (w.typeDecl t).isInterface = true → w.superType t = some s →
    (w.typeDecl s).isInterface = true ∨ s = rootType
  superClass : ∀ t s, (w.typeDecl t).isInterface = false → w.superType t = some s →
    (w.typeDecl s).isInterface = false

/-- Without the array dimensions that they share two types are no arrays, and one of them is an
interface. -/
inductive InvolvesInterface (w : World) : TypeRef → TypeRef → Prop where
  | plain {a b : TypeRef} (ha : w.component a = none) (hb : w.component b = none)
      (either : (w.typeDecl a).isInterface = true ∨ (w.typeDecl b).isInterface = true) :
      InvolvesInterface w a b
  | arrays {s t a b : TypeRef} (hs : w.component s = some a) (ht : w.component t = some b)
      (rest : InvolvesInterface w a b) : InvolvesInterface w s t

/-- Only the types that are there have to be looked at. -/
theorem wellSorted_of_types (check : ∀ t ∈ w.typeRefs,
    (∀ p ∈ w.parents t, w.component p = none) ∧
    (∀ i ∈ w.interfaces t, (w.typeDecl i).isInterface = true) ∧
    ∀ s ∈ (w.superType t).toList,
      if (w.typeDecl t).isInterface then (w.typeDecl s).isInterface = true ∨ s = rootType
      else (w.typeDecl s).isInterface = false) : w.WellSorted := by
  have known {t p : TypeRef} (hp : p ∈ w.parents t) : t ∈ w.typeRefs :=
    mem_typeRefs.mpr (has_of_parents hp)
  refine ⟨fun t p hp => (check t (known hp)).1 p hp,
    fun t i hi => (check t (known (mem_parents_of_interfaces hi))).2.1 i hi, ?_, ?_⟩
  · intro t s ht hs
    have sorted := (check t (known (mem_parents_of_superType hs))).2.2 s (Option.mem_toList.mpr hs)
    rwa [if_pos ht] at sorted
  · intro t s ht hs
    have sorted := (check t (known (mem_parents_of_superType hs))).2.2 s (Option.mem_toList.mpr hs)
    rwa [ht, if_neg Bool.false_ne_true] at sorted

namespace WellSorted

theorem interface_or_root_of_leadsUp (sorted : w.WellSorted) (h : w.Built) (hup : w.LeadsUp t s)
    (ht : (w.typeDecl t).isInterface = true) :
    (w.typeDecl s).isInterface = true ∨ s = rootType := by
  refine hup.keeps (P := fun u => (w.typeDecl u).isInterface = true ∨ u = rootType) (.inl ht) ?_
  rintro u (hu | rfl) p hp
  · rcases mem_parents_iff.mp hp with hsuper | hinterface
    · exact sorted.superInterface u p hu hsuper
    · exact .inl (sorted.interfaces u p hinterface)
  · rw [h.parents_root] at hp
    cases hp

/-- The chain of a class ends at the root. -/
theorem root_mem_superChain (sorted : w.WellSorted) (h : w.Built) (ht : w.Has (.type t))
    (plain : (w.typeDecl t).isInterface = false) : rootType ∈ w.superChain t := by
  induction t using superChain.induct w with
  | case1 t ih =>
    by_cases root : t = rootType
    · rw [root]
      exact w.self_mem_superChain rootType
    · obtain ⟨s, hs⟩ := h.exists_superType ht plain root
      rw [superChain_of_some hs]
      exact List.mem_cons_of_mem t
        (ih s hs (h.wellFormed.has_superType hs) (sorted.superClass t s plain hs))

/-- The classes above a class are on its chain. -/
theorem mem_superChain (sorted : w.WellSorted) (h : w.Built) (hup : w.LeadsUp t s)
    (ht : w.Has (.type t)) (plain : (w.typeDecl t).isInterface = false)
    (hs : (w.typeDecl s).isInterface = false) : s ∈ w.superChain t := by
  induction hup using Relation.ReflTransGen.head_induction_on with
  | refl => exact w.self_mem_superChain s
  | @head t p hp hrest ih =>
    rcases mem_parents_iff.mp hp with hsuper | hinterface
    · rw [superChain_of_some hsuper]
      exact List.mem_cons_of_mem t
        (ih (h.wellFormed.has_superType hsuper) (sorted.superClass t p plain hsuper))
    · -- An interface leads to no class but the root, which every chain meets.
      have hi : (w.typeDecl p).isInterface = true := sorted.interfaces t p hinterface
      rcases sorted.interface_or_root_of_leadsUp h hrest hi with interface | rfl
      · cases hs.symm.trans interface
      · exact sorted.root_mem_superChain h ht plain

/-- Of two classes above one type, one is above the other. -/
theorem leadsUp_or (sorted : w.WellSorted) (h : w.Built) (ht : w.Has (.type t))
    (hta : w.LeadsUp t a) (htb : w.LeadsUp t b) (ha : (w.typeDecl a).isInterface = false)
    (hb : (w.typeDecl b).isInterface = false) : w.LeadsUp a b ∨ w.LeadsUp b a := by
  cases hi : (w.typeDecl t).isInterface with
  | true =>
    have root {s : TypeRef} (hup : w.LeadsUp t s) (hs : (w.typeDecl s).isInterface = false) :
        s = rootType := by
      refine (sorted.interface_or_root_of_leadsUp h hup hi).resolve_left fun interface => ?_
      cases hs.symm.trans interface
    rw [root hta ha, root htb hb]
    exact .inl .refl
  | false =>
    have hamem := sorted.mem_superChain h hta ht hi ha
    have hbmem := sorted.mem_superChain h htb ht hi hb
    exact (mem_superChain_or hamem hbmem).imp leadsUp_of_mem_superChain leadsUp_of_mem_superChain

/-- What is below an array is an array, and above that is no other type but the root. -/
theorem isSubtype_of_array (sorted : w.WellSorted) (h : w.Built) (ha : w.component a = some s)
    (hb : w.component b = none) (hta : w.isSubtype t a = true) (htb : w.isSubtype t b = true) :
    w.isSubtype a b = true := by
  obtain ⟨u, ht, -⟩ := sorted.leaves.component_of_isSubtype h hta ha
  rcases (h.leadsUp_array ht).mp ((h.wellFormed.isSubtype_iff (.inr hb)).mp htb) with rfl | rfl
  · cases hb.symm.trans ht
  · exact (h.wellFormed.isSubtype_iff (.inr hb)).mpr ((h.leadsUp_array ha).mpr (.inr rfl))

/-- Two types with a common subtype are related, or an interface is involved. -/
theorem related_of_common (sorted : w.WellSorted) (h : w.Built) (ht : w.Has (.type t))
    (hta : w.isSubtype t a = true) (htb : w.isSubtype t b = true) :
    w.isSubtype a b = true ∨ w.isSubtype b a = true ∨ w.InvolvesInterface a b := by
  induction a using w.finiteNesting.induction generalizing t b with
  | _ a ih =>
    cases ha : w.component a with
    | some c =>
      cases hb : w.component b with
      | some d =>
        obtain ⟨e, he, hec⟩ := sorted.leaves.component_of_isSubtype h hta ha
        rw [isSubtype_of_components he hb] at htb
        have hcomponent : w.Has (.type e) := h.wellFormed.has_component he
        rw [isSubtype_of_components ha hb, isSubtype_of_components hb ha]
        exact (ih c ha hcomponent hec htb).imp_right (Or.imp_right (.arrays ha hb))
      | none => exact .inl (sorted.isSubtype_of_array h ha hb hta htb)
    | none =>
      cases hb : w.component b with
      | some d => exact .inr (.inl (sorted.isSubtype_of_array h hb ha htb hta))
      | none =>
        have hta := (h.wellFormed.isSubtype_iff (.inr ha)).mp hta
        have htb := (h.wellFormed.isSubtype_iff (.inr hb)).mp htb
        rw [h.wellFormed.isSubtype_iff (.inl ha), h.wellFormed.isSubtype_iff (.inl hb)]
        by_cases either : (w.typeDecl a).isInterface = true ∨ (w.typeDecl b).isInterface = true
        · exact .inr (.inr (.plain ha hb either))
        · obtain ⟨ha', hb'⟩ := not_or.mp either
          exact (sorted.leadsUp_or h ht hta htb (Bool.eq_false_iff.mpr ha')
            (Bool.eq_false_iff.mpr hb')).imp_right .inl

end WellSorted

theorem isInstanceOf_eq_yes {objectFixed : Bool}
    (h : w.isInstanceOf a b objectFixed = .yes) : w.isSubtype a b = true := by
  unfold isInstanceOf at h
  split at h
  · assumption
  · split at h
    · cases h
    · split at h <;> cases h

theorem isInstanceOf_eq_no (h : w.isInstanceOf a b false = .no) :
    w.isSubtype a b = false ∧ w.isSubtype b a = false := by
  unfold isInstanceOf at h
  cases hab : w.isSubtype a b with
  | true => simp [hab] at h
  | false =>
    cases hba : w.isSubtype b a with
    | true => simp [hab, hba] at h
    | false => exact ⟨rfl, rfl⟩

/-- A verdict on an object whose type is pinned down tells whether the type is a subtype. Where
nothing is declared below an array, yes is right of all subtypes of the object. Where types are
declared as what they are, no is right of all of them, too, unless there is an interface to be
found behind array dimensions that object and cast share. -/
theorem verdicts_are_sound (built : w.Built) (object cast : TypeRef) (castFixed : Bool) :
    (w.model.isInstanceOf object cast true castFixed =
      if w.isSubtype object cast then .yes else .no) ∧
    (w.ArraysAreLeaves → ∀ objectFixed,
      w.model.isInstanceOf object cast objectFixed castFixed = .yes →
      ∀ t, w.isSubtype t object = true → w.isSubtype t cast = true) ∧
    (w.WellSorted → ¬ w.InvolvesInterface object cast →
      w.model.isInstanceOf object cast false castFixed = .no →
      ∀ t, w.Has (.type t) → ¬ (w.isSubtype t object = true ∧ w.isSubtype t cast = true)) := by
  refine ⟨?_, ?_, ?_⟩
  · show w.isInstanceOf object cast true = _
    simp [isInstanceOf]
  · intro leaves objectFixed yes t below
    exact leaves.isSubtype_trans built below (isInstanceOf_eq_yes yes)
  · rintro sorted plain no t ht ⟨hobject, hcast⟩
    obtain ⟨down, up⟩ := isInstanceOf_eq_no no
    rcases sorted.related_of_common built ht hobject hcast with related | related | involved
    · cases down.symm.trans related
    · cases up.symm.trans related
    · exact plain involved

def withType (w : World) (name : String) (isInterface : Bool) (superType : Option TypeRef)
    (interfaces : List TypeRef) : World :=
  (w.defineType ⟨name, .system, isInterface, false, false, superType, interfaces, [], []⟩).2

theorem Built.withType (h : w.Built) (name : String) (isInterface : Bool)
    {superType : Option TypeRef} {interfaces : List TypeRef}
    (has : ∀ s ∈ superType.toList ++ interfaces, w.Has (.type s)) :
    (w.withType name isInterface superType interfaces).Built :=
  .defineType _ h (fun s hs => has s (List.mem_append_left _ (Option.mem_toList.mpr hs)))
    fun i hi => has i (List.mem_append_right _ hi)

theorem Built.isSubtype_of_mem_parents (h : w.Built) (hs : s ∈ w.parents t)
    (other : w.component t = none ∨ w.component s = none) : w.isSubtype t s = true :=
  (h.wellFormed.isSubtype_iff other).mpr (.single hs)

/-- A type is below no type that is not among some that nothing leads out of. -/
theorem Built.isSubtype_eq_false (h : w.Built) (known : List TypeRef) (ht : t ∈ known)
    (hs : s ∉ known) (closed : ∀ u ∈ known, ∀ p ∈ w.parents u, p ∈ known)
    (other : w.component t = none ∨ w.component s = none) : w.isSubtype t s = false := by
  refine Bool.eq_false_iff.mpr fun below => hs ?_
  exact ((h.wellFormed.isSubtype_iff other).mp below).keeps (P := (· ∈ known)) ht closed

theorem isInstanceOf_of_unrelated (down : w.isSubtype a b = false) (up : w.isSubtype b a = false)
    (ha : (w.typeDecl a).isInterface = false) (hb : (w.typeDecl b).isInterface = false) :
    w.isInstanceOf a b false = .no := by
  simp [isInstanceOf, down, up, ha, hb]

/-- A class with a subclass and an unrelated class. -/
def menagerie : World :=
  let w := fresh.withType "Animal" false none []
  let w := w.withType "Dog" false (some ⟨2⟩) []
  w.withType "Rock" false none []

theorem built_menagerie : menagerie.Built :=
  ((Built.fresh.withType _ _ (by decide)).withType _ _ (by decide)).withType _ _ (by decide)

theorem wellSorted_menagerie : menagerie.WellSorted := wellSorted_of_types (by decide)

theorem verdicts_are_sound_of_menagerie :
    let w := menagerie
    w.Built ∧ w.WellSorted ∧
      w.model.isInstanceOf ⟨3⟩ ⟨2⟩ false false = .yes ∧
      (∀ t, w.isSubtype t ⟨3⟩ = true → w.isSubtype t ⟨2⟩ = true) ∧
      ¬ w.InvolvesInterface ⟨4⟩ ⟨3⟩ ∧ w.model.isInstanceOf ⟨4⟩ ⟨3⟩ false false = .no ∧
      ∀ t, w.Has (.type t) → ¬ (w.isSubtype t ⟨4⟩ = true ∧ w.isSubtype t ⟨3⟩ = true) := by
  intro w
  have dog : w.isSubtype ⟨3⟩ ⟨2⟩ = true :=
    built_menagerie.isSubtype_of_mem_parents (by decide) (.inl rfl)
  have yes : w.model.isInstanceOf ⟨3⟩ ⟨2⟩ false false = .yes := by
    show w.isInstanceOf ⟨3⟩ ⟨2⟩ false = .yes
    rw [isInstanceOf, if_pos dog]
  have no : w.model.isInstanceOf ⟨4⟩ ⟨3⟩ false false = .no :=
    isInstanceOf_of_unrelated
      (built_menagerie.isSubtype_eq_false [⟨4⟩, ⟨0⟩] (by decide) (by decide) (by decide) (.inl rfl))
      (built_menagerie.isSubtype_eq_false [⟨3⟩, ⟨2⟩, ⟨0⟩] (by decide) (by decide) (by decide)
        (.inl rfl)) rfl rfl
  have plain : ¬ w.InvolvesInterface ⟨4⟩ ⟨3⟩ := by
    rintro (⟨-, -, either⟩ | ⟨array, -, -⟩)
    · revert either
      decide
    · cases array
  obtain ⟨-, right, -⟩ := verdicts_are_sound built_menagerie ⟨3⟩ ⟨2⟩ false
  obtain ⟨-, -, apart⟩ := verdicts_are_sound built_menagerie ⟨4⟩ ⟨3⟩ false
  exact ⟨built_menagerie, wellSorted_menagerie, yes,
    right wellSorted_menagerie.leaves false yes, plain, no, apart wellSorted_menagerie plain no⟩

/-- A class that extends another and implements an interface, and the arrays of the three. -/
def woven : World :=
  let w := fresh.withType "A" false none []
  let w := w.withType "I" true none []
  let w := w.withType "T" false (some ⟨2⟩) [⟨3⟩]
  (((w.arrayOf ⟨2⟩).2.arrayOf ⟨3⟩).2.arrayOf ⟨4⟩).2

theorem built_woven : woven.Built :=
  .arrayOf _ (.arrayOf _ (.arrayOf _
    (((Built.fresh.withType _ _ (by decide)).withType _ _ (by decide)).withType _ _ (by decide))
    (by decide)) (by decide)) (by decide)

theorem wellSorted_woven : woven.WellSorted := wellSorted_of_types (by decide)

/-- The arrays of the class and of the interface are taken for unrelated. -/
theorem isInstanceOf_woven : woven.isInstanceOf ⟨5⟩ ⟨6⟩ false = .no := by
  refine isInstanceOf_of_unrelated ?_ ?_ rfl rfl
  · rw [isSubtype_of_components (a := ⟨2⟩) (b := ⟨3⟩) rfl rfl]
    exact built_woven.isSubtype_eq_false [⟨2⟩, ⟨0⟩] (by decide) (by decide) (by decide) (.inl rfl)
  · rw [isSubtype_of_components (a := ⟨3⟩) (b := ⟨2⟩) rfl rfl]
    exact built_woven.isSubtype_eq_false [⟨3⟩] (by decide) (by decide) (by decide) (.inl rfl)

/-- The array of the class below both is below either array. -/
theorem isSubtype_woven :
    woven.isSubtype ⟨7⟩ ⟨5⟩ = true ∧ woven.isSubtype ⟨7⟩ ⟨6⟩ = true := by
  constructor
  · rw [isSubtype_of_components (a := ⟨4⟩) (b := ⟨2⟩) rfl rfl]
    exact built_woven.isSubtype_of_mem_parents (by decide) (.inl rfl)
  · rw [isSubtype_of_components (a := ⟨4⟩) (b := ⟨3⟩) rfl rfl]
    exact built_woven.isSubtype_of_mem_parents (by decide) (.inl rfl)

/-- On top of that, a class below an array (8), a class (9) that another names as an interface (10)
and that an interface extends (11), which a class names (12), and a class below an interface (13),
with a class below it (15) that names an interface below the root (14). -/
def tangled : World :=
  let w := woven.withType "X" false (some ⟨7⟩) []
  let w := w.withType "C" false none []
  let w := w.withType "U" false (some ⟨2⟩) [⟨9⟩]
  let w := w.withType "J" true (some ⟨9⟩) []
  let w := w.withType "V" false (some ⟨2⟩) [⟨11⟩]
  let w := w.withType "K" false (some ⟨3⟩) []
  let w := w.withType "L" true (some ⟨0⟩) []
  w.withType "M" false (some ⟨13⟩) [⟨14⟩]

theorem built_tangled : tangled.Built :=
  (((((((built_woven.withType _ _ (by decide)).withType _ _ (by decide)).withType _ _
    (by decide)).withType _ _ (by decide)).withType _ _ (by decide)).withType _ _
    (by decide)).withType _ _ (by decide)).withType _ _ (by decide)

/-- The class below the array is not below what the array is below. -/
theorem tangled_below_array : tangled.isInstanceOf ⟨7⟩ ⟨5⟩ false = .yes ∧
    tangled.isSubtype ⟨8⟩ ⟨7⟩ = true ∧ tangled.isSubtype ⟨8⟩ ⟨5⟩ = false := by
  have arrays : tangled.isSubtype ⟨7⟩ ⟨5⟩ = true := by
    rw [isSubtype_of_components (a := ⟨4⟩) (b := ⟨2⟩) rfl rfl]
    exact built_tangled.isSubtype_of_mem_parents (by decide) (.inl rfl)
  refine ⟨?_, built_tangled.isSubtype_of_mem_parents (by decide) (.inl rfl), ?_⟩
  · rw [isInstanceOf, if_pos arrays]
  · exact built_tangled.isSubtype_eq_false [⟨8⟩, ⟨7⟩, ⟨0⟩] (by decide) (by decide) (by decide)
      (.inl rfl)

/-- Two classes with common subclasses, of which one is implemented, are taken for unrelated. -/
theorem tangled_classes : tangled.isInstanceOf ⟨2⟩ ⟨9⟩ false = .no ∧
    ∀ t ∈ [(⟨10⟩ : TypeRef), ⟨12⟩],
      tangled.isSubtype t ⟨2⟩ = true ∧ tangled.isSubtype t ⟨9⟩ = true := by
  have through : tangled.isSubtype ⟨12⟩ ⟨9⟩ = true :=
    (built_tangled.wellFormed.isSubtype_iff (.inl rfl)).mpr
      (.head (b := ⟨11⟩) (by decide) (.single (by decide)))
  refine ⟨isInstanceOf_of_unrelated ?_ ?_ rfl rfl, ?_⟩
  · exact built_tangled.isSubtype_eq_false [⟨2⟩, ⟨0⟩] (by decide) (by decide) (by decide) (.inl rfl)
  · exact built_tangled.isSubtype_eq_false [⟨9⟩, ⟨0⟩] (by decide) (by decide) (by decide) (.inl rfl)
  · simp only [List.forall_mem_cons, List.not_mem_nil, false_implies, implies_true, and_true]
    exact ⟨⟨built_tangled.isSubtype_of_mem_parents (by decide) (.inl rfl),
        built_tangled.isSubtype_of_mem_parents (by decide) (.inl rfl)⟩,
      built_tangled.isSubtype_of_mem_parents (by decide) (.inl rfl), through⟩

/-- A class that is not below the root and the root are taken for unrelated. -/
theorem tangled_root : tangled.isInstanceOf ⟨13⟩ ⟨0⟩ false = .no ∧
    tangled.isSubtype ⟨15⟩ ⟨13⟩ = true ∧ tangled.isSubtype ⟨15⟩ ⟨0⟩ = true := by
  have through : tangled.isSubtype ⟨15⟩ ⟨0⟩ = true :=
    (built_tangled.wellFormed.isSubtype_iff (.inl rfl)).mpr
      (.head (b := ⟨14⟩) (by decide) (.single (by decide)))
  refine ⟨isInstanceOf_of_unrelated ?_ ?_ rfl rfl,
    built_tangled.isSubtype_of_mem_parents (by decide) (.inl rfl), through⟩
  · exact built_tangled.isSubtype_eq_false [⟨13⟩, ⟨3⟩] (by decide) (by decide) (by decide) (.inl rfl)
  · exact built_tangled.isSubtype_eq_false [⟨0⟩] (by decide) (by decide) (by decide) (.inl rfl)

/-- No goes wrong with an array of a class and one of an interface, though all types are declared as
what they are, and also with classes that have a common subclass although neither is below the
other. Yes goes wrong where a type is declared below an array. -/
theorem verdicts_go_wrong :
    (woven.Built ∧ woven.WellSorted ∧
      woven.model.isInstanceOf ⟨5⟩ ⟨6⟩ false false = .no ∧
      ∃ t, woven.Has (.type t) ∧ woven.isSubtype t ⟨5⟩ = true ∧ woven.isSubtype t ⟨6⟩ = true) ∧
    tangled.Built ∧
      (tangled.model.isInstanceOf ⟨7⟩ ⟨5⟩ false false = .yes ∧
        ∃ t, tangled.isSubtype t ⟨7⟩ = true ∧ tangled.isSubtype t ⟨5⟩ = false) ∧
      (tangled.model.isInstanceOf ⟨2⟩ ⟨9⟩ false false = .no ∧
        ∀ t ∈ [(⟨10⟩ : TypeRef), ⟨12⟩], tangled.Has (.type t) ∧
          tangled.isSubtype t ⟨2⟩ = true ∧ tangled.isSubtype t ⟨9⟩ = true) ∧
      tangled.model.isInstanceOf ⟨13⟩ ⟨0⟩ false false = .no ∧
        ∃ t, tangled.Has (.type t) ∧
          tangled.isSubtype t ⟨13⟩ = true ∧ tangled.isSubtype t ⟨0⟩ = true := by
  obtain ⟨yes, below⟩ := tangled_below_array
  obtain ⟨unrelated, common⟩ := tangled_classes
  obtain ⟨rootless, shared⟩ := tangled_root
  have has : ∀ t ∈ [(⟨10⟩ : TypeRef), ⟨12⟩], tangled.Has (.type t) := by decide
  exact ⟨⟨built_woven, wellSorted_woven, isInstanceOf_woven, ⟨7⟩, by decide, isSubtype_woven⟩,
    built_tangled, ⟨yes, ⟨8⟩, below⟩, ⟨unrelated, fun t ht => ⟨has t ht, common t ht⟩⟩, rootless,
    ⟨15⟩, by decide, shared⟩

end Provenance.World
