import Provenance.Session.Operation
import Provenance.Proofs.Actions
import Provenance.Proofs.Numbering

/-!
What a session knows without any record: the two types it begins with and the symbols it is
given as seeds. They have the first IDs, in the order in which they came.
-/
namespace Provenance.Session

/-- The symbols that are known once they were all asked for as seeds. -/
def seededWith (model : Model) (given : List Symbol) : List Symbol :=
  (Session.seeds model ++ given).foldl learn []

theorem seededWith_append (model : Model) (given : List Symbol) (x : Symbol) :
    seededWith model (given ++ [x]) = learn (seededWith model given) x := by
  simp [seededWith, ← List.append_assoc]

/-- What a session begins with comes first. -/
theorem front_seededWith (model : Model) (given : List Symbol) :
    seededWith model [] <+: seededWith model given := by
  rw [seededWith, seededWith, List.append_nil, List.foldl_append]
  exact prefix_foldl_learn _ given

theorem lists_start (model : Model) (config : Config) (phase : Phase) :
    (start model config phase).numbering.Lists (seededWith model []) := by
  have hroot := Numbering.lists_empty.enrol (by decide) (.type model.rootType)
  exact hroot.enrol (by simp [learn]) (.type model.metaType)

theorem seed_eq (x : Symbol) (s : Session) :
    seed x s =
      if s.phase ∈ [Phase.building, Phase.loading] then
        if s.isLate then violate (.lateSeed x) s
        else match s.numbering.id? x with
          | some id => .ok id s
          | none => match s.numbering.next with
            | none => refuse (.limit .symbolIds) s
            | some id => .ok id
                { s with numbering := s.numbering.issue x id, seeded := s.seeded + 1 }
      else refuse (.wrongPhase .seed s.phase) s := by
  by_cases hp : s.phase ∈ [Phase.building, Phase.loading]
  · rw [seed, bind_of_ok (gate_of_mem hp), get_bind, if_pos hp]
    by_cases hl : s.isLate
    · simp only [hl, if_true]
      rfl
    · simp only [hl, Bool.false_eq_true, if_false, get_bind]
      cases hx : s.numbering.id? x with
      | some id => rfl
      | none =>
        cases hn : s.numbering.next with
        | none =>
          simp only
          exact bind_of_error (issue_of_none hn)
        | some id =>
          simp only
          exact bind_of_ok (issue_of_some hn)
  · rw [if_neg hp]
    exact bind_of_error (gate_of_not_mem hp)

/-- A seed gives out the next ID, or changes nothing. -/
theorem leaves_seed_cases (x : Symbol) (s : Session) :
    leaves (seed x) s = s ∨ ∃ id, s.numbering.id? x = none ∧ leaves (seed x) s =
      { s with numbering := s.numbering.issue x id, seeded := s.seeded + 1 } := by
  rw [leaves, seed_eq]
  by_cases hp : s.phase ∈ [Phase.building, Phase.loading]
  · rw [if_pos hp]
    by_cases hl : s.isLate
    · rw [if_pos hl]
      exact .inl rfl
    · rw [if_neg hl]
      cases s.numbering.id? x with
      | some id => exact .inl rfl
      | none =>
        cases s.numbering.next with
        | none => exact .inl rfl
        | some id => exact .inr ⟨id, rfl, rfl⟩
  · rw [if_neg hp]
    exact .inl rfl

/-- A session that takes seeds, and what it knows. -/
structure Seedable (s : Session) (known : List Symbol) : Prop where
  phase : s.phase ∈ [Phase.building, Phase.loading]
  empty : s.ledger.isEmpty = true
  lists : s.numbering.Lists known
  seeded : known.length ≤ s.seeded

variable {s : Session} {known : List Symbol} {x : Symbol}

theorem Seedable.isLate_eq_false (h : Seedable s known) : s.isLate = false := by
  rw [isLate, h.empty, h.lists.size_eq]
  simpa using h.seeded

theorem seedable_start (model : Model) (config : Config) {phase : Phase}
    (hphase : phase ∈ [Phase.building, Phase.loading]) :
    Seedable (start model config phase) (seededWith model []) where
  phase := hphase
  empty := rfl
  lists := lists_start model config phase
  seeded := by
    by_cases h : Operand.type (P := ProcRef) model.metaType = .type model.rootType
    · simp [start, seeds, seededWith, learn, h]
    · simp [start, seeds, seededWith, learn, h]

/-- A seed is answered with an ID, unless all IDs are given out. -/
theorem seed_of_seedable (h : Seedable s known) (room : (learn known x).length ≤ 65535) :
    ∃ id s', seed x s = .ok id s' ∧ s'.numbering.id? x = some id ∧ s'.phase = s.phase ∧
      Seedable s' (learn known x) := by
  have heq := seed_eq x s
  rw [if_pos h.phase, h.isLate_eq_false] at heq
  cases hx : s.numbering.id? x with
  | some id =>
    rw [hx] at heq
    rw [learn_of_mem (h.lists.mem_iff.mpr (by rw [hx]; rfl))]
    exact ⟨id, s, heq, hx, rfl, h⟩
  | none =>
    rw [hx] at heq
    rw [learn_of_not_mem (h.lists.not_mem_iff.mpr hx)] at room ⊢
    rw [List.length_append, List.length_singleton] at room
    cases hnext : s.numbering.next with
    | none =>
      have hfull := h.lists.next_none hnext
      omega
    | some id =>
      rw [hnext] at heq
      refine ⟨id, _, heq, ?_, rfl, h.phase, h.empty, h.lists.issue hx hnext, ?_⟩
      · rw [Numbering.id?_issue, Numbering.id?_assign, if_pos rfl]
      · have hseeded := h.seeded
        rw [List.length_append, List.length_singleton]
        exact Nat.succ_le_succ hseeded

/-- Seeds asked for one after the other have, in the end, the IDs they were answered with. -/
theorem seeds_of_seedable (model : Model) (given : List Symbol) (h : Seedable s known)
    (room : (given.foldl learn known).length ≤ 65535) :
    ∃ s', performAll model (given.map .seed) s =
        (given.map fun x => .id (s'.numbering.id? x), s') ∧
      s'.phase = s.phase ∧ Seedable s' (given.foldl learn known) := by
  induction given generalizing s known with
  | nil => exact ⟨s, rfl, rfl, h⟩
  | cons x given ih =>
    rw [List.foldl_cons] at room
    have front := prefix_foldl_learn (learn known x) given
    obtain ⟨id, s₁, hseed, hid, hphase, h₁⟩ :=
      seed_of_seedable h (Nat.le_trans front.length_le room)
    obtain ⟨s', hrest, hphase', h'⟩ := ih h₁ room
    refine ⟨s', ?_, hphase'.trans hphase, h'⟩
    have hfirst : perform model (.seed x) s = (.id (some id), s₁) := by
      rw [perform, settle, hseed]
    rw [List.map_cons, performAll, hfirst]
    simp only [hrest]
    rw [List.map_cons, h₁.lists.id?_of_front h'.lists front hid]

end Provenance.Session
