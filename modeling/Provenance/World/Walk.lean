import Provenance.Symbol
import Std.Data.HashSet

/-!
Walks over types. A walk visits a type, then all that it leads to, then what was pending
before. It visits nothing twice, so it ends wherever its steps lead, and what it visits is
what some path of steps reaches.
-/
namespace Provenance

/-- How many types with an index below `bound` have not been seen. -/
def unseen (bound : Nat) (seen : Std.HashSet TypeRef) : Nat :=
  (List.range bound).countP fun i => !seen.contains ⟨i⟩

theorem countP_lt_countP {α : Type} {p q : α → Bool} {l : List α} {x : α}
    (hpq : ∀ a, p a = true → q a = true) (hx : x ∈ l) (hp : p x = false) (hq : q x = true) :
    l.countP p < l.countP q := by
  induction l with
  | nil => cases hx
  | cons a l ih =>
    have hle : l.countP p ≤ l.countP q := List.countP_mono_left fun a _ => hpq a
    rw [List.countP_cons, List.countP_cons]
    rcases List.mem_cons.mp hx with rfl | hmem
    · simp only [hp, hq, Bool.false_eq_true, ite_true, ite_false]
      omega
    · have hlt := ih hmem
      by_cases ha : p a = true
      · rw [if_pos ha, if_pos (hpq a ha)]
        omega
      · rw [if_neg ha]
        omega

theorem unseen_insert_lt {bound : Nat} {seen : Std.HashSet TypeRef} {t : TypeRef}
    (hlt : t.index < bound) (hnew : t ∉ seen) :
    unseen bound (seen.insert t) < unseen bound seen := by
  refine countP_lt_countP (x := t.index) ?_ (List.mem_range.mpr hlt) (by simp) (by simpa using hnew)
  intro i h
  simp_all

/-- The visits of a walk, to types with an index below `bound` that were not seen before. -/
def walk (bound : Nat) (next : TypeRef → List TypeRef) (seen : Std.HashSet TypeRef) :
    List TypeRef → List TypeRef
  | [] => []
  | t :: pending =>
    if t.index < bound ∧ t ∉ seen then
      t :: walk bound next (seen.insert t) (next t ++ pending)
    else walk bound next seen pending
termination_by pending => (unseen bound seen, pending.length)
decreasing_by
  · rename_i h
    exact Prod.Lex.left _ _ (unseen_insert_lt h.1 h.2)
  · exact Prod.Lex.right _ (Nat.lt_succ_self _)

/-- Some path of steps leads to a type from one of those given, and every type on it is open. -/
inductive Reached (next : TypeRef → List TypeRef) (isOpen : TypeRef → Prop)
    (start : List TypeRef) : TypeRef → Prop where
  | start {t : TypeRef} : t ∈ start → isOpen t → Reached next isOpen start t
  | step {s t : TypeRef} : Reached next isOpen start s → t ∈ next s → isOpen t →
      Reached next isOpen start t

namespace Reached

variable {next : TypeRef → List TypeRef} {isOpen isOpen' : TypeRef → Prop}
  {start start' : List TypeRef} {t u : TypeRef}

theorem is_open (h : Reached next isOpen start t) : isOpen t := by
  cases h <;> assumption

theorem mono (h : Reached next isOpen start t) (hopen : ∀ u, isOpen u → isOpen' u)
    (hstart : ∀ u ∈ start, isOpen u → Reached next isOpen' start' u) :
    Reached next isOpen' start' t := by
  induction h with
  | start hmem ho => exact hstart _ hmem ho
  | step _ hmem ho ih => exact .step ih hmem (hopen _ ho)

/-- Closing a type that is visited now leaves every other type within reach, if what it leads
to is pending. -/
theorem without (h : Reached next isOpen (u :: start) t) (hne : t ≠ u) :
    Reached next (fun v => isOpen v ∧ v ≠ u) (next u ++ start) t := by
  induction h with
  | start hmem ho =>
    exact .start (List.mem_append_right _ ((List.mem_cons.mp hmem).resolve_left hne)) ⟨ho, hne⟩
  | @step s v _ hmem ho ih =>
    by_cases hs : s = u
    · exact .start (List.mem_append_left _ (hs ▸ hmem)) ⟨ho, hne⟩
    · exact .step (ih hs) hmem ⟨ho, hne⟩

end Reached

theorem mem_walk_iff {bound : Nat} {next : TypeRef → List TypeRef}
    {seen : Std.HashSet TypeRef} {start : List TypeRef} {t : TypeRef} :
    t ∈ walk bound next seen start ↔
      Reached next (fun u => u.index < bound ∧ u ∉ seen) start t := by
  fun_induction walk bound next seen start with
  | case1 seen =>
    refine ⟨fun h => (by cases h), fun h => ?_⟩
    induction h with
    | start hmem => cases hmem
    | step _ _ _ ih => cases ih
  | case2 seen u pending hu ih =>
    rw [List.mem_cons, ih]
    constructor
    · rintro (rfl | h)
      · exact .start List.mem_cons_self hu
      · refine h.mono (fun v hv => ?_) fun v hmem hv => ?_
        · simp_all
        · have hv' : v.index < bound ∧ v ∉ seen := by simp_all
          rcases List.mem_append.mp hmem with hnext | hpending
          · exact .step (.start List.mem_cons_self hu) hnext hv'
          · exact .start (List.mem_cons_of_mem _ hpending) hv'
    · intro h
      by_cases ht : t = u
      · exact .inl ht
      · refine .inr ((h.without ht).mono (fun v hv => ?_) fun v hmem hv => .start hmem ?_)
        all_goals
          have hne : u ≠ v := fun he => hv.2 he.symm
          simp [hv.1.1, hv.1.2, hne]
  | case3 seen u pending hu ih =>
    rw [ih]
    constructor
    · exact fun h => h.mono (fun _ => id) fun v hmem hv => .start (List.mem_cons_of_mem _ hmem) hv
    · refine fun h => h.mono (fun _ => id) fun v hmem hv => ?_
      rcases List.mem_cons.mp hmem with rfl | hpending
      · exact absurd hv hu
      · exact .start hpending hv

theorem nodup_walk (bound : Nat) (next : TypeRef → List TypeRef) (seen : Std.HashSet TypeRef)
    (start : List TypeRef) : (walk bound next seen start).Nodup := by
  fun_induction walk bound next seen start with
  | case1 => exact List.nodup_nil
  | case2 seen u pending hu ih =>
    refine List.nodup_cons.mpr ⟨fun hmem => ?_, ih⟩
    have := (mem_walk_iff.mp hmem).is_open.2
    simp at this
  | case3 _ _ _ _ ih => exact ih

end Provenance
