import Provenance.Proofs.Stability

/-!
Reading a world by handles with a test. A checked query does what the query does, but it tests
every handle before it follows it, takes no step up to a type that is not older, and stops at
the first handle that fails. Here are the tests and the walks over the hierarchy. In a sound
world, as every world is that was built, nothing fails.
-/
namespace Provenance

/-- The types that a type is built on. -/
def TypeDecl.bases (d : TypeDecl) : List TypeRef := d.superType.toList ++ d.component.toList

namespace World

variable {w : World} {t : TypeRef}

section Older

variable {links : TypeDecl → List TypeRef}
  (older : ∀ t, ∀ s ∈ links (w.typeDecl t), s.index < t.index)
include older

/-- What is there already is older than a type that is added. -/
theorem older_addType {d : TypeDecl} (has : ∀ s ∈ links (w.added d), w.Has (.type s)) :
    ∀ u, ∀ s ∈ links ((w.addType d).2.typeDecl u), s.index < u.index := by
  intro u s hs
  rw [typeDecl_addType] at hs
  split at hs
  · rename_i hu
    exact hu ▸ has s hs
  · exact older u s hs

theorem older_modifyType {f : TypeDecl → TypeDecl} (same : ∀ d, links (f d) = links d) :
    ∀ u, ∀ s ∈ links ((w.modifyType t f).typeDecl u), s.index < u.index := by
  intro u s hs
  rw [typeDecl_modifyType] at hs
  split at hs
  · rw [same] at hs
    exact older u s hs
  · exact older u s hs

end Older

/-- Types are built on older ones. -/
def Layered (w : World) : Prop := ∀ t, ∀ s ∈ (w.typeDecl t).bases, s.index < t.index

theorem Layered.addType (h : w.Layered) {d : TypeDecl} (bases : ∀ s ∈ d.bases, w.Has (.type s)) :
    (w.addType d).2.Layered :=
  older_addType h bases

theorem Layered.modifyType (h : w.Layered) {f : TypeDecl → TypeDecl}
    (bases : ∀ d, (f d).bases = d.bases) : (w.modifyType t f).Layered :=
  older_modifyType h bases

theorem Layered.defineType (h : w.Layered) (root : w.Has (.type rootType)) {spec : TypeSpec}
    (superType : ∀ s, spec.superType = some s → w.Has (.type s)) :
    (w.defineType spec).2.Layered := by
  refine h.addType fun s hs => has_superType_of_spec root superType s ?_
  simpa [TypeDecl.bases, TypeDecl.plain] using hs

theorem Layered.arrayOf (h : w.Layered) (root : w.Has (.type rootType)) (ht : w.Has (.type t)) :
    (w.arrayOf t).2.Layered := by
  rw [World.arrayOf]
  split
  · exact h
  · refine (h.addType fun s hs => ?_).modifyType fun _ => rfl
    rcases List.mem_pair.mp hs with rfl | rfl
    · exact root
    · exact ht

theorem Built.layered (h : w.Built) : w.Layered := by
  induction h with
  | fresh =>
    rintro ⟨_ | _ | n⟩ s hs
    · cases hs
    · cases List.mem_singleton.mp hs
      decide
    · cases hs
  | newContext _ ih | setMaySkipFrames _ _ _ _ ih => exact ih
  | defineType _ built superType _ ih => exact ih.defineType built.wellFormed.rootType superType
  | arrayOf _ built ht ih => exact ih.arrayOf built.wellFormed.rootType ht
  | rename _ _ _ _ ih | markInitialized _ _ _ _ ih | addEntry _ _ _ _ ih
  | defineProcedure _ _ _ ih =>
    exact ih.modifyType fun _ => rfl

/-- A well formed world whose types are built on older ones. -/
structure Sound (w : World) : Prop extends w.WellFormed where
  layered : w.Layered

theorem Built.sound (h : w.Built) : w.Sound := ⟨h.wellFormed, h.layered⟩

end World

/-- What reading by handles comes to: a value, or the handle that failed the test. -/
abbrev Reading := Except Symbol

namespace Reading

variable {α β : Type} {l : List α}

theorem ok_bind {r : Reading α} {a : α} (h : r = .ok a) (f : α → Reading β) :
    (r >>= f) = f a := by
  subst h
  rfl

theorem mapM_eq_ok {f : α → Reading β} {g : α → β} (h : ∀ a ∈ l, f a = .ok (g a)) :
    l.mapM f = .ok (l.map g) := by
  induction l with
  | nil => rfl
  | cons a l ih =>
    rw [List.mapM_cons, h a List.mem_cons_self, ih fun b hb => h b (List.mem_cons_of_mem a hb)]
    rfl

theorem findM?_eq_ok {p : α → Reading Bool} {q : α → Bool} (h : ∀ a ∈ l, p a = .ok (q a)) :
    l.findM? p = .ok (l.find? q) := by
  induction l with
  | nil => rfl
  | cons a l ih =>
    rw [List.findM?, h a List.mem_cons_self, List.find?_cons]
    cases q a with
    | true => rfl
    | false => exact ih fun b hb => h b (List.mem_cons_of_mem a hb)

theorem findSomeM?_eq_ok {f : α → Reading (Option β)} {g : α → Option β}
    (h : ∀ a ∈ l, f a = .ok (g a)) : l.findSomeM? f = .ok (l.findSome? g) := by
  induction l with
  | nil => rfl
  | cons a l ih =>
    rw [List.findSomeM?, h a List.mem_cons_self, List.findSome?_cons]
    cases g a with
    | some b => rfl
    | none => exact ih fun b hb => h b (List.mem_cons_of_mem a hb)

theorem filterAuxM_eq_ok {p : α → Reading Bool} {q : α → Bool} (acc : List α)
    (h : ∀ a ∈ l, p a = .ok (q a)) : l.filterAuxM p acc = .ok ((l.filter q).reverse ++ acc) := by
  induction l generalizing acc with
  | nil => rfl
  | cons a l ih =>
    rw [List.filterAuxM, ok_bind (h a List.mem_cons_self),
      ih _ fun b hb => h b (List.mem_cons_of_mem a hb), List.filter_cons]
    cases q a <;> simp

theorem filterM_eq_ok {p : α → Reading Bool} {q : α → Bool} (h : ∀ a ∈ l, p a = .ok (q a)) :
    l.filterM p = .ok (l.filter q) := by
  rw [List.filterM, filterAuxM_eq_ok [] h, List.append_nil]
  exact congrArg Except.ok (List.reverse_reverse _)

end Reading

namespace Checked

open Reading

variable (w : World)

def typeDecl (t : TypeRef) : Reading TypeDecl :=
  match w.types[t.index]? with
  | some d => .ok d
  | none => .error (.type t)

def procDecl (p : ProcRef) : Reading ProcDecl :=
  match w.procedures[p.index]? with
  | some d => .ok d
  | none => .error (.procedure p)

/-- A step from a type to one that it is built on. -/
def step (t : TypeRef) : Option TypeRef → Reading (Option TypeRef)
  | none => .ok none
  | some s => if s.index < t.index then .ok (some s) else .error (.type s)

variable {w} {t s : TypeRef} {base : Option TypeRef}

theorem typeDecl_eq_ok (ht : w.Has (.type t)) : typeDecl w t = .ok (w.typeDecl t) := by
  have hget : w.types[t.index]? = some w.types[t.index] := Array.getElem?_eq_getElem ht
  rw [typeDecl, World.typeDecl, Array.getD_eq_getD_getElem?, hget]
  rfl

theorem procDecl_eq_ok {p : ProcRef} (hp : w.Has (.procedure p)) :
    procDecl w p = .ok (w.procDecl p) := by
  have hget : w.procedures[p.index]? = some w.procedures[p.index] := Array.getElem?_eq_getElem hp
  rw [procDecl, World.procDecl, Array.getD_eq_getD_getElem?, hget]
  rfl

theorem step_eq_ok (h : ∀ s, base = some s → s.index < t.index) :
    step t base = .ok (base.filter (·.index < t.index)) := by
  cases base with
  | none => rfl
  | some s => rw [step, if_pos (h s rfl), Option.filter_some, if_pos (by simpa using h s rfl)]

theorem lt_of_step (h : step t base = .ok (some s)) : s.index < t.index := by
  cases base with
  | none => cases h
  | some u =>
    rw [step] at h
    split at h
    · cases h
      assumption
    · cases h

variable (w) in
def superType (t : TypeRef) : Reading (Option TypeRef) := do
  step t (← typeDecl w t).superType

variable (w) in
def component (t : TypeRef) : Reading (Option TypeRef) := do
  step t (← typeDecl w t).component

variable (w) in
def interfaces (t : TypeRef) : Reading (List TypeRef) := return (← typeDecl w t).interfaces

variable (w) in
def parents (t : TypeRef) : Reading (List TypeRef) :=
  return (← superType w t).toList ++ (← interfaces w t)

theorem superType_eq_ok (h : w.Sound) (ht : w.Has (.type t)) :
    superType w t = .ok (w.superType t) := by
  rw [superType, ok_bind (typeDecl_eq_ok ht)]
  exact step_eq_ok fun s hs => h.layered t s (by simp [TypeDecl.bases, hs])

theorem component_eq_ok (h : w.Sound) (ht : w.Has (.type t)) :
    component w t = .ok (w.component t) := by
  rw [component, ok_bind (typeDecl_eq_ok ht)]
  exact step_eq_ok fun s hs => h.layered t s (by simp [TypeDecl.bases, hs])

theorem interfaces_eq_ok (ht : w.Has (.type t)) : interfaces w t = .ok (w.interfaces t) := by
  rw [interfaces, ok_bind (typeDecl_eq_ok ht)]
  rfl

theorem parents_eq_ok (h : w.Sound) (ht : w.Has (.type t)) : parents w t = .ok (w.parents t) := by
  rw [parents, ok_bind (superType_eq_ok h ht), ok_bind (interfaces_eq_ok ht)]
  rfl

theorem superType_lt (h : superType w t = .ok (some s)) : s.index < t.index := by
  cases hd : typeDecl w t with
  | error x =>
    rw [superType, hd] at h
    cases h
  | ok d =>
    rw [superType, ok_bind hd] at h
    exact lt_of_step h

theorem component_lt (h : component w t = .ok (some s)) : s.index < t.index := by
  cases hd : typeDecl w t with
  | error x =>
    rw [component, hd] at h
    cases h
  | ok d =>
    rw [component, ok_bind hd] at h
    exact lt_of_step h

variable (w) in
def superChain (t : TypeRef) : Reading (List TypeRef) :=
  match _h : superType w t with
  | .error x => .error x
  | .ok none => .ok [t]
  | .ok (some s) => return t :: (← superChain s)
termination_by t.index
decreasing_by exact superType_lt _h

theorem superChain_of_none (h : superType w t = .ok none) : superChain w t = .ok [t] := by
  rw [superChain]
  split <;> simp_all

theorem superChain_of_some (h : superType w t = .ok (some s)) :
    superChain w t = return t :: (← superChain w s) := by
  rw [superChain]
  split <;> simp_all

theorem superChain_eq_ok (h : w.Sound) (ht : w.Has (.type t)) :
    superChain w t = .ok (w.superChain t) := by
  fun_induction w.superChain t with
  | case1 t ih =>
    have hread := superType_eq_ok h ht
    split
    · rename_i hnone
      rw [superChain_of_none (hread.trans (congrArg _ hnone))]
    · rename_i s hs
      rw [superChain_of_some (hread.trans (congrArg _ hs)), ok_bind (ih s hs (h.has_superType hs))]
      rfl

variable (w) in
def chainInterfaces (t : TypeRef) : Reading (List TypeRef) :=
  return (← (← superChain w t).mapM (interfaces w)).flatten

theorem chainInterfaces_eq_ok (h : w.Sound) (ht : w.Has (.type t)) :
    chainInterfaces w t = .ok ((w.superChain t).flatMap w.interfaces) := by
  rw [chainInterfaces, ok_bind (superChain_eq_ok h ht),
    ok_bind (mapM_eq_ok fun s hs => interfaces_eq_ok (h.has_superChain ht s hs)),
    List.flatMap_def]
  rfl

def walk (bound : Nat) (next : TypeRef → Reading (List TypeRef)) (seen : Std.HashSet TypeRef) :
    List TypeRef → Reading (List TypeRef)
  | [] => .ok []
  | t :: pending =>
    if t ∈ seen then walk bound next seen pending
    else if t.index < bound then do
      let above ← next t
      return t :: (← walk bound next (seen.insert t) (above ++ pending))
    else .error (.type t)
termination_by pending => (unseen bound seen, pending.length)
decreasing_by
  · exact Prod.Lex.right _ (Nat.lt_succ_self _)
  · rename_i hseen hbound
    exact Prod.Lex.left _ _ (unseen_insert_lt hbound hseen)

/-- A walk whose steps stay within the bound meets nothing beyond it. -/
theorem walk_eq_ok {bound : Nat} {next : TypeRef → List TypeRef}
    {read : TypeRef → Reading (List TypeRef)} (reads : ∀ t, t.index < bound → read t = .ok (next t))
    (within : ∀ t, t.index < bound → ∀ s ∈ next t, s.index < bound) {seen : Std.HashSet TypeRef}
    {start : List TypeRef} (hstart : ∀ t ∈ start, t.index < bound) :
    walk bound read seen start = .ok (Provenance.walk bound next seen start) := by
  fun_induction Provenance.walk bound next seen start with
  | case1 => rw [walk]
  | case2 seen t pending ht ih =>
    have hpending : ∀ s ∈ next t ++ pending, s.index < bound := by
      intro s hs
      rcases List.mem_append.mp hs with hs | hs
      · exact within t ht.1 s hs
      · exact hstart s (List.mem_cons_of_mem t hs)
    rw [walk, if_neg ht.2, if_pos ht.1, ok_bind (reads t ht.1), ok_bind (ih hpending)]
    rfl
  | case3 seen t pending ht ih =>
    have hseen : t ∈ seen :=
      Decidable.of_not_not fun hnot => ht ⟨hstart t List.mem_cons_self, hnot⟩
    rw [walk, if_pos hseen, ih fun s hs => hstart s (List.mem_cons_of_mem t hs)]

variable (w) in
def allInterfaces (t : TypeRef) : Reading (List TypeRef) := do
  walk w.types.size (fun i => return (← interfaces w i).reverse) ∅ (← chainInterfaces w t).reverse

variable (w) in
def aboveInterfaces (t : TypeRef) : Reading (List TypeRef) := do
  walk w.types.size (parents w) ∅ (← chainInterfaces w t)

variable (w) in
def isAbove (sup t : TypeRef) : Reading Bool :=
  return (← superChain w t).contains sup || (← aboveInterfaces w t).contains sup

theorem allInterfaces_eq_ok (h : w.Sound) (ht : w.Has (.type t)) :
    allInterfaces w t = .ok (w.allInterfaces t) := by
  rw [allInterfaces, ok_bind (chainInterfaces_eq_ok h ht)]
  refine walk_eq_ok (fun u hu => ?_) (fun u _ i hi => ?_) fun i hi => ?_
  · rw [ok_bind (interfaces_eq_ok hu)]
    rfl
  · exact h.has_interfaces i (List.mem_reverse.mp hi)
  · exact h.has_chainInterfaces i (List.mem_reverse.mp hi)

theorem aboveInterfaces_eq_ok (h : w.Sound) (ht : w.Has (.type t)) :
    aboveInterfaces w t = .ok (w.aboveInterfaces t) := by
  rw [aboveInterfaces, ok_bind (chainInterfaces_eq_ok h ht)]
  exact walk_eq_ok (fun _ hu => parents_eq_ok h hu) (fun _ _ => h.has_parents)
    h.has_chainInterfaces

theorem isAbove_eq_ok (h : w.Sound) (ht : w.Has (.type t)) :
    isAbove w s t = .ok (w.isAbove s t) := by
  rw [isAbove, ok_bind (superChain_eq_ok h ht), ok_bind (aboveInterfaces_eq_ok h ht)]
  rfl

variable (w) in
def isSubtype (sub sup : TypeRef) : Reading Bool :=
  if sub = sup then .ok true
  else match _h : component w sub, component w sup with
    | .ok (some a), .ok (some b) => isSubtype a b
    | .ok _, .ok _ => isAbove w sup sub
    | .error x, _ | _, .error x => .error x
termination_by sub.index
decreasing_by exact component_lt _h

theorem isSubtype_of_some {a b : TypeRef} (hne : t ≠ s) (ha : component w t = .ok (some a))
    (hb : component w s = .ok (some b)) : isSubtype w t s = isSubtype w a b := by
  rw [isSubtype, if_neg hne]
  split <;> simp_all

theorem isSubtype_of_none {x y : Option TypeRef} (hne : t ≠ s) (hx : component w t = .ok x)
    (hy : component w s = .ok y) (hnone : ∀ a b, x = some a → y ≠ some b) :
    isSubtype w t s = isAbove w s t := by
  rw [isSubtype, if_neg hne]
  split
  · rename_i a b ha hb
    cases Except.ok.inj (hx.symm.trans ha)
    exact absurd (Except.ok.inj (hy.symm.trans hb)) (hnone a b rfl)
  · rfl
  · simp_all
  · simp_all

theorem isSubtype_eq_ok (h : w.Sound) (ht : w.Has (.type t)) (hs : w.Has (.type s)) :
    isSubtype w t s = .ok (w.isSubtype t s) := by
  fun_induction w.isSubtype t s with
  | case1 t s ih =>
    by_cases hne : t = s
    · rw [isSubtype, if_pos hne, decide_eq_true hne, Bool.true_or]
    · rw [decide_eq_false hne, Bool.false_or]
      split
      · rename_i a b ha hb
        rw [isSubtype_of_some hne ((component_eq_ok h ht).trans (congrArg _ ha))
          ((component_eq_ok h hs).trans (congrArg _ hb)),
          ih a b ha (h.has_component ha) (h.has_component hb)]
      · rename_i hnone
        rw [isSubtype_of_none hne (component_eq_ok h ht) (component_eq_ok h hs) hnone,
          isAbove_eq_ok h ht]

end Checked

end Provenance
