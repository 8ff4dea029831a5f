import Provenance.Proofs.Ancestry
import Provenance.Proofs.Inheriting
import Provenance.Proofs.Unrolling

/-!
How a world that was built holds together. What a type is declared on is older than the type, an
array and its component lead to each other, and every procedure is listed once, by its owner. So a
walk along declarations ends even if it takes no note of where it has been, and it comes to what the
walk comes to that meets nothing twice.
-/
namespace Provenance

/-- What a walk visits until nothing is pending, the steps from a type before what was pending
already. It may visit a type many times. -/
inductive Visits (next : TypeRef → List TypeRef) : (pending visited : List TypeRef) → Prop where
  | done : Visits next [] []
  | visit {t : TypeRef} {pending visited : List TypeRef} :
      Visits next (next t ++ pending) visited → Visits next (t :: pending) (t :: visited)

section Visits

variable {next : TypeRef → List TypeRef} {pending visited visited' : List TypeRef} {α : Type}
  {answer : TypeRef → Option α} {bound : Nat} {seen seen' : Std.HashSet TypeRef} {t s : TypeRef}

theorem Visits.last (h : next t = []) : Visits next [t] [t] := .visit (by rw [h]; exact .done)

theorem Visits.step (h : next t = [s]) (rest : Visits next [s] visited) :
    Visits next [t] (t :: visited) := .visit (by rw [h]; exact rest)

theorem Visits.unique (h : Visits next pending visited) (h' : Visits next pending visited') :
    visited = visited' := by
  induction h generalizing visited' with
  | done =>
    cases h'
    rfl
  | visit _ ih =>
    cases h' with
    | visit h' => rw [ih h']

/-- Where steps lead to older types only, the walk ends. -/
theorem exists_visits (older : ∀ t, ∀ s ∈ next t, s.index < t.index) (pending : List TypeRef) :
    ∃ visited, Visits next pending visited := by
  have ends : Ends next (fun _ => false) pending := search_ends older pending
  obtain ⟨fuel, found, h⟩ := ends
  induction fuel generalizing pending with
  | zero => cases h
  | succ fuel ih =>
    cases pending with
    | nil => exact ⟨[], .done⟩
    | cons t pending =>
      obtain ⟨visited, visits⟩ := ih _ h
      exact ⟨t :: visited, .visit visits⟩

/-- What was visited already has no answer, and what it leads to was visited too or is still ahead
of everything that is not older. -/
structure Passed (next : TypeRef → List TypeRef) (answer : TypeRef → Option α)
    (seen : Std.HashSet TypeRef) (pending : List TypeRef) : Prop where
  nothing : ∀ u ∈ seen, answer u = none
  ahead : ∀ u ∈ seen, ∀ v ∈ next u, v ∈ seen ∨
    ∃ top below, pending = top ++ below ∧ v ∈ top ∧ ∀ x ∈ top, x.index < u.index

/-- Nothing new comes of a type that was visited. -/
theorem Passed.next_seen (h : Passed next answer seen (t :: pending)) (ht : t ∈ seen) :
    ∀ v ∈ next t, v ∈ seen := by
  intro v hv
  rcases h.ahead t ht v hv with hseen | ⟨top, below, split, hmem, older⟩
  · exact hseen
  · cases top with
    | nil => cases hmem
    | cons x top =>
      -- All that is ahead of the type would be older than the type, and it is the first itself.
      rw [List.cons_append, List.cons.injEq] at split
      exact absurd (older x List.mem_cons_self) (split.1 ▸ Nat.lt_irrefl _)

theorem Passed.visit (older : ∀ t, ∀ s ∈ next t, s.index < t.index)
    (h : Passed next answer seen (t :: pending)) (nothing : answer t = none)
    (same : ∀ v, v ∈ seen' ↔ v = t ∨ v ∈ seen) : Passed next answer seen' (next t ++ pending) where
  nothing u hu := by
    rcases (same u).mp hu with rfl | hu
    · exact nothing
    · exact h.nothing u hu
  ahead u hu v hv := by
    rcases (same u).mp hu with rfl | hu
    · exact .inr ⟨next u, pending, rfl, hv, older u⟩
    · rcases h.ahead u hu v hv with hseen | ⟨top, below, split, hmem, below_u⟩
      · exact .inl ((same v).mpr (.inr hseen))
      · cases top with
        | nil => cases hmem
        | cons x top =>
          rw [List.cons_append, List.cons.injEq] at split
          obtain ⟨rfl, rfl⟩ := split
          rcases List.mem_cons.mp hmem with rfl | hmem
          · exact .inl ((same v).mpr (.inl rfl))
          · refine .inr ⟨next t ++ top, below, by rw [List.append_assoc],
              List.mem_append_right _ hmem, fun y hy => ?_⟩
            rcases List.mem_append.mp hy with hnext | htop
            · exact Nat.lt_trans (older t y hnext) (below_u t List.mem_cons_self)
            · exact below_u y (List.mem_cons_of_mem t htop)

theorem walk_of_seen {more : List TypeRef} (h : ∀ v ∈ more, v ∈ seen) :
    walk bound next seen (more ++ pending) = walk bound next seen pending := by
  induction more with
  | nil => rfl
  | cons v more ih =>
    have hv : ¬(v.index < bound ∧ v ∉ seen) := fun new => new.2 (h v List.mem_cons_self)
    rw [List.cons_append, walk, if_neg hv, ih fun u hu => h u (List.mem_cons_of_mem v hu)]

/-- The first answer that a walk comes to does not depend on whether it meets types again. -/
theorem Visits.findSome?_walk (older : ∀ t, ∀ s ∈ next t, s.index < t.index)
    (visits : Visits next pending visited) (within : ∀ t ∈ pending, t.index < bound)
    (passed : Passed next answer seen pending) :
    (walk bound next seen pending).findSome? answer = visited.findSome? answer := by
  induction visits generalizing seen with
  | done => rw [walk]
  | @visit t pending visited _ ih =>
    have ht := within t List.mem_cons_self
    have within' : ∀ s ∈ next t ++ pending, s.index < bound := by
      intro s hs
      rcases List.mem_append.mp hs with hnext | hpending
      · exact Nat.lt_trans (older t s hnext) ht
      · exact within s (List.mem_cons_of_mem t hpending)
    by_cases hseen : t ∈ seen
    · have nothing := passed.nothing t hseen
      have same : ∀ v, v ∈ seen ↔ v = t ∨ v ∈ seen := fun v =>
        ⟨.inr, fun hv => hv.elim (fun he => he ▸ hseen) id⟩
      -- Where the walk meets the type again it goes on with types it has visited already, so that
      -- the other walk, which leaves them out, has passed as much.
      have again := ih within' (passed.visit older nothing same)
      rw [walk_of_seen (passed.next_seen hseen)] at again
      rw [walk, if_neg fun new => new.2 hseen, List.findSome?_cons, nothing, again]
    · have new : ∀ v, v ∈ seen.insert t ↔ v = t ∨ v ∈ seen := fun v => by
        rw [Std.HashSet.mem_insert, beq_iff_eq, eq_comm]
      rw [walk, if_pos ⟨ht, hseen⟩, List.findSome?_cons, List.findSome?_cons]
      cases hanswer : answer t with
      | some a => rfl
      | none => exact ih within' (passed.visit older hanswer new)

end Visits

namespace World

variable {w : World} {t u : TypeRef} {p : ProcRef}

/-- The owner of a procedure lists it, and lists it once. -/
def ListedOnce (w : World) : Prop :=
  ∀ p, w.Has (.procedure p) → (w.typeDecl (w.procDecl p).owner).procedures.count p = 1

namespace ListedOnce

theorem addType (h : w.ListedOnce) (wellFormed : w.WellFormed) (d : TypeDecl) :
    (w.addType d).2.ListedOnce := by
  intro p hp
  have old : (w.procDecl p).owner.index ≠ w.types.size := Nat.ne_of_lt (wellFormed.owner p)
  show ((w.addType d).2.typeDecl (w.procDecl p).owner).procedures.count p = 1
  rw [typeDecl_addType, if_neg old]
  exact h p hp

theorem modifyType (h : w.ListedOnce) {f : TypeDecl → TypeDecl}
    (same : ∀ d, (f d).procedures = d.procedures) : (w.modifyType t f).ListedOnce := by
  intro p hp
  show ((w.modifyType t f).typeDecl (w.procDecl p).owner).procedures.count p = 1
  rw [typeDecl_modifyType]
  split
  · rw [same]
    exact h p hp
  · exact h p hp

theorem setMaySkipFrames (h : w.ListedOnce) (q : ProcRef) (value : Bool) :
    (w.setMaySkipFrames q value).ListedOnce := by
  intro p hp
  have owner : ((w.setMaySkipFrames q value).procDecl p).owner = (w.procDecl p).owner := by
    rw [World.setMaySkipFrames, procDecl_modifyProcedure]
    split <;> rfl
  rw [owner]
  exact h p (has_modifyProcedure.mp hp)

/-- The new procedure is the last one that its owner lists, and the lists had no place for it
before. -/
theorem defineProcedure (h : w.ListedOnce) (wellFormed : w.WellFormed) {spec : ProcSpec}
    (has : w.Has (.type spec.owner)) : (w.defineProcedure spec).2.ListedOnce := by
  obtain ⟨d, slot, howner, heq⟩ := w.defineProcedure_eq spec
  rw [heq]
  intro p hp
  show (((w.addProcedure d).modifyType spec.owner _).typeDecl
    ((w.addProcedure d).procDecl p).owner).procedures.count p = 1
  rw [typeDecl_modifyType, procDecl_addProcedure]
  have hp : p.index < w.procedures.size + 1 := by
    simpa [Has, World.modifyType, addProcedure] using hp
  by_cases hnew : p.index = w.procedures.size
  · have new : p ∉ (w.typeDecl spec.owner).procedures := fun mem =>
      Nat.ne_of_lt ((wellFormed.covers spec.owner).procedures p mem) hnew
    rw [if_pos hnew, howner, if_pos ⟨rfl, has⟩]
    show ((w.typeDecl spec.owner).procedures ++ [(⟨w.procedures.size⟩ : ProcRef)]).count p = 1
    rw [List.count_append, List.count_eq_zero_of_not_mem new, ← hnew, List.count_singleton_self]
  · have hold : w.Has (.procedure p) := Nat.lt_of_le_of_ne (Nat.le_of_lt_succ hp) hnew
    rw [if_neg hnew]
    split
    · show ((w.typeDecl _).procedures ++ [(⟨w.procedures.size⟩ : ProcRef)]).count p = 1
      have other : p ∉ [(⟨w.procedures.size⟩ : ProcRef)] := fun mem =>
        hnew (congrArg ProcRef.index (List.mem_singleton.mp mem))
      rw [List.count_append, List.count_eq_zero_of_not_mem other]
      exact h p hold
    · exact h p hold

end ListedOnce

theorem Built.listedOnce (h : w.Built) : w.ListedOnce := by
  induction h with
  | fresh => exact fun p hp => absurd hp (Nat.not_lt_zero _)
  | newContext _ ih => exact ih
  | defineType spec built _ _ ih => exact ih.addType built.wellFormed _
  | arrayOf t built _ ih =>
    rw [World.arrayOf]
    split
    · exact ih
    · exact (ih.addType built.wellFormed _).modifyType fun _ => rfl
  | rename t name _ _ ih => exact ih.modifyType fun _ => rfl
  | markInitialized | addEntry => exact ListedOnce.modifyType ‹_› fun _ => rfl
  | defineProcedure spec built has ih => exact ih.defineProcedure built.wellFormed has
  | setMaySkipFrames q value _ _ ih => exact ih.setMaySkipFrames q value

theorem Built.count_procedures (h : w.Built) (hp : w.Has (.procedure p)) (t : TypeRef) :
    (w.typeDecl t).procedures.count p = if t = (w.procDecl p).owner then 1 else 0 := by
  split
  · rename_i owner
    rw [owner]
    exact h.listedOnce p hp
  · rename_i other
    exact List.count_eq_zero_of_not_mem fun mem => other (h.owns t p mem).symm

/-- What a type is declared on is older than the type. An array and its component lead to each
other, so that a type has one array at most and is what is made of its innermost component by as
many arrays as it has dimensions. A procedure is listed once by its owner and nowhere else, and
what tables of dispatch hold is there. -/
structure Coherent (w : World) : Prop where
  superType : ∀ t s, (w.typeDecl t).superType = some s → s.index < t.index
  interface : ∀ t, ∀ i ∈ (w.typeDecl t).interfaces, i.index < t.index
  component : ∀ t c, (w.typeDecl t).component = some c → c.index < t.index
  linked : ∀ c a, (w.typeDecl c).array = some a ↔ (w.typeDecl a).component = some c
  oneArray : ∀ c a a', (w.typeDecl a).component = some c → (w.typeDecl a').component = some c →
    a = a'
  innermost : ∀ t, (w.typeDecl (w.model.baseComponent t).1).component = none
  unrolled : ∀ t, w.model.arrayOn (w.model.baseComponent t).2 (w.model.baseComponent t).1 = some t
  listed : ∀ p, w.Has (.procedure p) → ∀ t,
    (w.typeDecl t).procedures.count p = if t = (w.procDecl p).owner then 1 else 0
  dispatched : ∀ t, ∀ p ∈ (w.typeDecl t).vtable, w.Has (.procedure p)

theorem Built.coherent (h : w.Built) : w.Coherent where
  superType t s hs := h.layered t s (by simp [TypeDecl.bases, hs])
  interface := h.interfacesFirst
  component t c hc := h.layered t c (by simp [TypeDecl.bases, hc])
  linked := h.linked
  oneArray c a a' ha ha' :=
    Option.some.inj (((h.linked c a).mpr ha).symm.trans ((h.linked c a').mpr ha'))
  innermost t := by
    have plain : w.component (w.model.baseComponent t).1 = none :=
      Option.not_isSome_iff_eq_none.mp (Bool.eq_false_iff.mp (w.model.isArray_baseComponent t))
    rwa [h.component_eq] at plain
  unrolled := h.model_linked.arrayOn_baseComponent
  listed _ hp t := h.count_procedures hp t
  dispatched t := (h.wellFormed.covers t).vtable

/-- A type that has an array is left as it is when asked for it again. -/
theorem arrayOf_arrayOf (ht : w.Has (.type t)) :
    (w.arrayOf t).2.arrayOf t = w.arrayOf t := by
  have made : ((w.arrayOf t).2.typeDecl t).array = some (w.arrayOf t).1 := by
    cases hnone : (w.typeDecl t).array with
    | none =>
      rw [(links_arrayOf ht hnone t).1, if_pos rfl, World.arrayOf, hnone]
      rfl
    | some array =>
      rw [World.arrayOf, hnone]
      exact hnone
  rw [World.arrayOf, made]

def declaredSuper (w : World) (t : TypeRef) : List TypeRef := (w.typeDecl t).superType.toList

def declaredComponent (w : World) (t : TypeRef) : List TypeRef := (w.typeDecl t).component.toList

/-- The interfaces that a declaration names, the last first. -/
def declaredInterfaces (w : World) (t : TypeRef) : List TypeRef :=
  (w.typeDecl t).interfaces.reverse

theorem Built.visits_superChain (h : w.Built) (t : TypeRef) :
    Visits w.declaredSuper [t] (w.superChain t) := by
  induction t using (InvImage.wf TypeRef.index Nat.lt_wfRel.wf).induction with
  | _ t ih =>
    have declared : w.declaredSuper t = (w.superType t).toList :=
      congrArg Option.toList h.superType_eq.symm
    cases hs : w.superType t with
    | none =>
      rw [superChain_of_none hs]
      exact .last (by rw [declared, hs]; rfl)
    | some s =>
      rw [superChain_of_some hs]
      exact .step (by rw [declared, hs]; rfl) (ih s (w.superType_lt hs))

theorem Built.visits_layers (h : w.Built) (t : TypeRef) :
    Visits w.declaredComponent [t] (w.model.layers t).reverse := by
  induction t using w.model.finiteNesting.induction with
  | _ t ih =>
    have declared : w.declaredComponent t = (w.model.componentType t).toList :=
      congrArg Option.toList h.component_eq.symm
    cases hc : w.model.componentType t with
    | none =>
      rw [Model.layers_of_none hc]
      exact .last (by rw [declared, hc]; rfl)
    | some c =>
      rw [Model.layers_of_some hc, List.reverse_concat]
      exact .step (by rw [declared, hc]; rfl) (ih c hc)

theorem Built.declaredInterfaces_lt (h : w.Built) :
    ∀ t, ∀ i ∈ w.declaredInterfaces t, i.index < t.index := fun t i hi =>
  h.interfacesFirst t i (List.mem_reverse.mp hi)

/-- The walk over interfaces may meet one of them many times, but it finds nothing else for that. -/
theorem Built.findProcedure_of_visits (h : w.Built) {visited : List TypeRef}
    (visits : Visits w.declaredInterfaces ((w.superChain t).flatMap w.interfaces).reverse visited)
    (name signature : String) (accept : ProcDecl → Bool) :
    w.findProcedure t name signature accept =
      (w.superChain t ++ visited).findSome? (w.declared name signature accept) := by
  have within : ∀ i ∈ ((w.superChain t).flatMap w.interfaces).reverse, i.index < w.types.size :=
    fun i hi => h.wellFormed.has_chainInterfaces i (List.mem_reverse.mp hi)
  have walked : (w.allInterfaces t).findSome? (w.declared name signature accept) =
      visited.findSome? (w.declared name signature accept) :=
    visits.findSome?_walk h.declaredInterfaces_lt within ⟨by simp, by simp⟩
  rw [findProcedure, searchOrder, List.findSome?_append, List.findSome?_append, walked]

/-- A world that was built is coherent, so the walks along its declarations end though they take no
note of where they have been: the test of subtypes, and those along supertypes, over interfaces and
inward through an array, from whose visits come the shape of a type, what declares a field or a
procedure, and the innermost component. And one array is all that is ever made of a type. -/
theorem world_coheres_and_walks_end (built : w.Built) :
    w.Coherent ∧
    (∀ sub sup, ∃ fuel, w.seekSubtype fuel sub sup = some (w.isSubtype sub sup)) ∧
    (∀ t, ∃ chain interfaces, Visits w.declaredSuper [t] chain ∧
      Visits w.declaredInterfaces (chain.flatMap w.interfaces).reverse interfaces ∧
      w.chainDigest t = Sha256.digest
        (marked (chain.flatMap w.level ++ (w.typeDecl t).procedures.map w.procedureText)) ∧
      (∀ name isStatic, w.declaringType t name isStatic = chain.find? fun s =>
        (w.typeDecl s).fields.any fun f => f.name == name && isStatic.all (f.isStatic == ·)) ∧
      ∀ name signature accept, w.findProcedure t name signature accept =
        (chain ++ interfaces).findSome? (w.declared name signature accept)) ∧
    (∀ t, ∃ layers, Visits w.declaredComponent [t] layers ∧
      layers.getLast? = some (w.model.baseComponent t).1 ∧
      layers.length = (w.model.baseComponent t).2 + 1) ∧
    ∀ t, w.Has (.type t) → (w.arrayOf t).2.arrayOf t = w.arrayOf t := by
  refine ⟨built.coherent, built.seekSubtype_ends, fun t => ?_, fun t => ?_,
    fun _ => arrayOf_arrayOf⟩
  · obtain ⟨interfaces, visits⟩ := exists_visits built.declaredInterfaces_lt
      ((w.superChain t).flatMap w.interfaces).reverse
    exact ⟨w.superChain t, interfaces, built.visits_superChain t, visits, rfl, fun _ _ => rfl,
      built.findProcedure_of_visits visits⟩
  · refine ⟨(w.model.layers t).reverse, built.visits_layers t, ?_, ?_⟩
    · rw [List.getLast?_reverse, Model.head?_layers]
    · rw [List.length_reverse, Model.length_layers]

/-- A class that implements two interfaces which extend a third one, with procedures at the top and
at the bottom, and arrays of the class of two dimensions. -/
def diamond : World :=
  let w := fresh.withType "Named" true none []
  let w := w.withType "Shape" true none [⟨2⟩]
  let w := w.withType "Sized" true none [⟨2⟩]
  let w := w.withType "Circle" false none [⟨3⟩, ⟨4⟩]
  let w := w.withProcedure ⟨2⟩ "name" false false
  let w := w.withProcedure ⟨5⟩ "area" false false
  ((w.arrayOf ⟨5⟩).2.arrayOf ⟨6⟩).2

theorem built_diamond : diamond.Built :=
  .arrayOf _ (.arrayOf _ (Built.fresh
    |>.withType _ _ (by decide)
    |>.withType _ _ (by decide)
    |>.withType _ _ (by decide)
    |>.withType _ _ (by decide)
    |>.withProcedure _ _ _ (by decide)
    |>.withProcedure _ _ _ (by decide)) (by decide)) (by decide)

/-- The interface at the top is visited twice on the way to its procedure, and both arrays are
walked through to the class. -/
theorem world_coheres_and_walks_end_of_diamond :
    diamond.Built ∧
      Visits diamond.declaredInterfaces [⟨4⟩, ⟨3⟩] [⟨4⟩, ⟨2⟩, ⟨3⟩, ⟨2⟩] ∧
      diamond.findProcedure ⟨5⟩ "name" "()" (fun _ => true) = some ⟨0⟩ ∧
      diamond.model.baseComponent ⟨7⟩ = (⟨5⟩, 2) ∧ diamond.model.arrayOn 2 ⟨5⟩ = some ⟨7⟩ ∧
      (diamond.typeDecl ⟨5⟩).procedures.count ⟨1⟩ = 1 ∧
      (diamond.arrayOf ⟨5⟩).2.arrayOf ⟨5⟩ = diamond.arrayOf ⟨5⟩ := by
  obtain ⟨coherent, -, lookups, layers, idempotent⟩ := world_coheres_and_walks_end built_diamond
  have visits : Visits diamond.declaredInterfaces [⟨4⟩, ⟨3⟩] [⟨4⟩, ⟨2⟩, ⟨3⟩, ⟨2⟩] :=
    .visit (.visit (.visit (.visit .done)))
  have climbs : Visits diamond.declaredSuper [⟨5⟩] [⟨5⟩, ⟨0⟩] := .step rfl (.last rfl)
  have inward : Visits diamond.declaredComponent [⟨7⟩] [⟨7⟩, ⟨6⟩, ⟨5⟩] :=
    .step rfl (.step rfl (.last rfl))
  obtain ⟨chain, interfaces, climbs', visits', -, -, finds⟩ := lookups ⟨5⟩
  cases climbs'.unique climbs
  cases visits'.unique visits
  obtain ⟨found, inward', last, length⟩ := layers ⟨7⟩
  cases inward'.unique inward
  have base : diamond.model.baseComponent ⟨7⟩ = (⟨5⟩, 2) :=
    Prod.ext (Option.some.inj last).symm (Nat.succ.inj length).symm
  have unrolled := coherent.unrolled ⟨7⟩
  rw [base] at unrolled
  refine ⟨built_diamond, visits, ?_, base, unrolled, ?_, idempotent ⟨5⟩ (by decide)⟩
  · rw [finds]
    decide
  · rw [coherent.listed ⟨1⟩ (by decide)]
    decide

end World

end Provenance
