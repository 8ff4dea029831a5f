import Mathlib.Algebra.GroupWithZero.Nat
import Provenance.Proofs.Correspondence
import Provenance.Proofs.Phases

/-!
When it is too late for a seed. A session does not remember whether anything was recorded or
confirmed: it looks whether the ledger has records and whether more symbols are known than were
counted as seeds. So a seed comes too late once a record was made, and once a validation has bound
a symbol, but not after a check that was confirmed, nor after a record that led to a symbol known
already. Where root type and meta type are the same the two are counted as two seeds though they
have one ID, and the first symbol that is bound goes unnoticed.
-/
namespace Provenance.Session

variable {model : Model} {s s' t : Session} {op : Operation} {x : Symbol}
  {past more : List (Operation × Session)}

/-- How many symbols the validations among the operations have bound. -/
def bound (model : Model) (past : List (Operation × Session)) : Nat :=
  (past.map fun (op, s) =>
    if op.isValidation then (perform model op s).2.numbering.size - s.numbering.size else 0).sum

theorem bound_snoc (past : List (Operation × Session)) (op : Operation) (s : Session) :
    bound model (past ++ [(op, s)]) = bound model past +
      if op.isValidation then (perform model op s).2.numbering.size - s.numbering.size else 0 := by
  simp [bound]

theorem bound_snoc_of_not_validation (h : op.isValidation = false) :
    bound model (past ++ [(op, s)]) = bound model past := by
  rw [bound_snoc, h]
  rfl

/-- How many of the two types known from the start are counted without having an ID of their
own. -/
def shared (model : Model) : Nat := if model.rootType = model.metaType then 1 else 0

/-- Some symbols may have been bound, and apart from that only regions have changed. -/
structure Binds (s s' : Session) : Prop where
  phase : s'.phase = s.phase
  ledger : s'.ledger = s.ledger
  seeded : s'.seeded = s.seeded
  numbering : s'.numbering = s.numbering ∨
    s.phase = .loading ∧ s.numbering.size < s'.numbering.size

/-- Where seeds may still be taken afterwards, symbols were bound at most. -/
theorem binds_of_moves (h : Moves (fun _ => True) [] s s')
    (phase : s'.phase ∈ [Phase.building, .loading]) (empty : s'.ledger.isEmpty = true) :
    Binds s s' := by
  refine (h.invariant (I := fun seeds s' => seeds = [] → s'.phase ∈ [Phase.building, .loading] →
    s'.ledger.isEmpty = true → Binds s s') ?_ fun _ _ _ => ⟨rfl, rfl, rfl, .inl rfl⟩ :
      [] ++ [] = [] → _) rfl phase empty
  intro seeds given s₁ s₂ ih hmove none phase empty
  obtain ⟨none, nothing⟩ := List.append_eq_nil_iff.mp none
  cases hmove with
  | reseed | seed => cases nothing
  | region =>
    obtain ⟨phase, ledger, seeded, numbering⟩ := ih (by simpa using none) phase empty
    exact ⟨phase, ledger, seeded, numbering⟩
  | confirm _ _ _ fresh | derive _ _ _ fresh =>
    rw [isEmpty_insert_of_fresh fresh] at empty
    cases empty
  | «sealed» | validated | reject => simp [reject] at phase
  | @bind _ x id loading _ new =>
    obtain ⟨same, ledger, seeded, numbering⟩ := ih (by simpa using none) phase empty
    have hsize := Numbering.size_assign s₁.numbering x id new
    refine ⟨same, ledger, seeded, .inr ⟨same.symm.trans loading, ?_⟩⟩
    show s.numbering.size < (s₁.numbering.assign x id).size
    rcases numbering with heq | ⟨-, hlt⟩
    · rw [hsize, heq]
      exact Nat.lt_succ_self _
    · omega

theorem moves_of_not_seed (model : Model) (plain : ∀ body, op ≠ .guarded body)
    (other : ∀ x, op ≠ .seed x) (s : Session) :
    Moves (fun _ => True) [] s (perform model op s).2 := by
  by_cases quiet : op.isQuiet
  · exact perform_quiet model quiet s
  · cases op with
    | add d =>
      have entries : Entries model (fun _ => True) s (leaves (add model d) s) :=
        add_entries (fun _ _ _ => trivial) d (fun _ _ => trivial) s
      rw [perform, settle_snd]
      exact entries.moves fun _ _ => trivial
    | seed x => exact absurd rfl (other x)
    | guarded body => exact absurd rfl (plain body)
    | _ => exact absurd rfl quiet

/-- Only validations bind. -/
theorem Binds.numbering_eq (h : Binds s (perform model op s).2)
    (validates : op.isValidation = false) (plain : ∀ body, op ≠ .guarded body)
    (other : ∀ x, op ≠ .seed x) : (perform model op s).2.numbering = s.numbering := by
  rcases h.numbering with heq | ⟨loading, -⟩
  · exact heq
  · cases op with
    | add d => rw [perform_add_of_not_building model d (by simp [loading])]
    | seed x => exact absurd rfl (other x)
    | guarded body => exact absurd rfl (plain body)
    | enterRegion =>
      rw [perform, settle_snd]
      exact leaves_gate (R := fun s s' => s'.numbering = s.numbering) rfl fun _ => rfl
    | exitRegion =>
      rw [perform, settle_snd, exitRegion, leaves_get_bind]
      cases s.region.exit? <;> rfl
    | sealRecords =>
      rw [perform, settle_snd]
      rcases sealRecords_cases s with ⟨_, building, -⟩ | ⟨e, he⟩
      · cases building.symm.trans loading
      · rw [leaves_of_error he]
    | validateSymbol | validate | validateRecords => cases validates
    | _ => rw [perform_question model rfl s]

theorem perform_seed_of_early {id : SymbolId} (model : Model)
    (phase : s.phase ∈ [Phase.building, .loading]) (early : s.isLate = false)
    (unknown : s.numbering.id? x = none) (next : s.numbering.next = some id) :
    perform model (.seed x) s = (.id (some id),
      { s with numbering := s.numbering.issue x id, seeded := s.seeded + 1 }) := by
  rw [perform, settle, seed_eq, if_pos phase, early, unknown, next]
  rfl

/-- A seed fails, or is answered with the ID that its symbol has, or gives out the next ID. -/
theorem perform_seed_cases (model : Model) (x : Symbol) (s : Session) :
    (∃ failure, perform model (.seed x) s = (.failed failure, s)) ∨
    (∃ id, s.numbering.id? x = some id ∧ perform model (.seed x) s = (.id (some id), s)) ∨
    ∃ id, s.phase ∈ [Phase.building, .loading] ∧ s.isLate = false ∧ s.numbering.id? x = none ∧
      s.numbering.next = some id ∧ perform model (.seed x) s = (.id (some id),
        { s with numbering := s.numbering.issue x id, seeded := s.seeded + 1 }) := by
  rw [perform, settle, seed_eq]
  by_cases hp : s.phase ∈ [Phase.building, .loading]
  · rw [if_pos hp]
    cases hl : s.isLate with
    | true => exact .inl ⟨_, rfl⟩
    | false =>
      cases hx : s.numbering.id? x with
      | some id => exact .inr (.inl ⟨id, rfl, rfl⟩)
      | none =>
        cases hn : s.numbering.next with
        | none => exact .inl ⟨_, rfl⟩
        | some id => exact .inr (.inr ⟨id, hp, rfl, rfl, rfl, rfl⟩)
  · rw [if_neg hp]
    exact .inl ⟨_, rfl⟩

theorem perform_seed_same_or_new (model : Model) (x : Symbol) (s : Session) :
    (perform model (.seed x) s).2 = s ∨
      ∃ id, s.numbering.id? x = none ∧ s.numbering.next = some id ∧
        perform model (.seed x) s = (.id (some id),
          { s with numbering := s.numbering.issue x id, seeded := s.seeded + 1 }) := by
  rcases perform_seed_cases model x s with
    ⟨failure, heq⟩ | ⟨id, -, heq⟩ | ⟨id, -, -, new, next, heq⟩
  · exact .inl (congrArg Prod.snd heq)
  · exact .inl (congrArg Prod.snd heq)
  · exact .inr ⟨id, new, next, heq⟩

/-- As long as seeds may be taken and nothing is recorded, all symbols known are the two from the
start, seeds, and such as were bound; before the first of these IDs are in order. -/
structure Counted (model : Model) (past : List (Operation × Session)) (s : Session) : Prop where
  size : s.phase ∈ [Phase.building, .loading] → s.ledger.isEmpty = true →
    s.numbering.size + shared model = s.seeded + bound model past
  lists : s.phase ∈ [Phase.building, .loading] → s.ledger.isEmpty = true →
    bound model past = 0 → ∃ known, s.numbering.Lists known

namespace Counted

theorem start (model : Model) (config : Config) (phase : Phase) :
    Counted model [] (start model config phase) where
  size _ _ := by
    rw [(lists_start model config phase).size_eq]
    by_cases same : model.rootType = model.metaType
    · simp [Session.start, seeds, seededWith, learn, shared, bound, same]
    · have other : ¬model.metaType = model.rootType := fun h => same h.symm
      simp [Session.start, seeds, seededWith, learn, shared, bound, same, other]
  lists _ _ _ := ⟨_, lists_start model config phase⟩

theorem isLate_eq_false_iff (h : Counted model past s)
    (phase : s.phase ∈ [Phase.building, .loading]) :
    s.isLate = false ↔ s.ledger.isEmpty = true ∧ bound model past ≤ shared model := by
  rw [isLate, Bool.or_eq_false_iff, Bool.not_eq_false']
  refine and_congr_right fun empty => ?_
  have size := h.size phase empty
  rw [decide_eq_false_iff_not]
  omega

theorem seed (h : Counted model past s) (x : Symbol) :
    Counted model (past ++ [(.seed x, s)]) (perform model (.seed x) s).2 := by
  have same : bound model (past ++ [(.seed x, s)]) = bound model past :=
    bound_snoc_of_not_validation rfl
  rcases perform_seed_same_or_new model x s with stays | ⟨id, new, next, heq⟩
  · rw [stays]
    exact ⟨by rw [same]; exact h.size, by rw [same]; exact h.lists⟩
  · rw [heq]
    refine ⟨fun phase empty => ?_, fun phase empty none => ?_⟩
    · have size := h.size phase empty
      have hsize : (s.numbering.issue x id).size = s.numbering.size + 1 :=
        Numbering.size_assign s.numbering x id new
      rw [same]
      show (s.numbering.issue x id).size + shared model = s.seeded + 1 + bound model past
      omega
    · rw [same] at none
      obtain ⟨known, lists⟩ := h.lists phase empty none
      exact ⟨_, lists.issue new next⟩

end Counted

/-- What is bound is what is known more afterwards. -/
theorem Binds.exists_more (binds : Binds s (perform model op s).2)
    (plain : ∀ body, op ≠ .guarded body) (other : ∀ x, op ≠ .seed x)
    (past : List (Operation × Session)) :
    ∃ more, bound model (past ++ [(op, s)]) = bound model past + more ∧
      (perform model op s).2.numbering.size = s.numbering.size + more ∧
      (more = 0 → (perform model op s).2.numbering = s.numbering) := by
  by_cases validates : op.isValidation = true
  · refine ⟨_, by rw [bound_snoc, if_pos validates], ?_⟩
    rcases binds.numbering with heq | ⟨-, hlt⟩
    · simp [heq]
    · omega
  · have none : op.isValidation = false := by simpa using validates
    have heq := binds.numbering_eq none plain other
    exact ⟨0, bound_snoc_of_not_validation none, by rw [heq]; rfl, fun _ => heq⟩

theorem Counted.plain (h : Counted model past s) (hplain : ∀ body, op ≠ .guarded body)
    (other : ∀ x, op ≠ .seed x) : Counted model (past ++ [(op, s)]) (perform model op s).2 := by
  have binds := binds_of_moves (moves_of_not_seed model hplain other s)
  refine ⟨fun phase empty => ?_, fun phase empty none => ?_⟩
  · have before := binds phase empty
    obtain ⟨more, hbound, hsize, -⟩ := before.exists_more hplain other past
    rw [before.phase] at phase
    rw [before.ledger] at empty
    have size := h.size phase empty
    rw [hbound, hsize, before.seeded]
    omega
  · have before := binds phase empty
    obtain ⟨more, hbound, -, same⟩ := before.exists_more hplain other past
    rw [before.phase] at phase
    rw [before.ledger] at empty
    rw [same (by omega)]
    exact h.lists phase empty (by omega)

theorem history_counted (model : Model) : History model (Counted model) where
  plain := by
    intro past op s hplain h
    cases op with
    | seed x => exact h.seed x
    | _ => exact h.plain hplain (by rintro _ ⟨⟩)
  opened := by
    intro past body s h
    have same : bound model (past ++ [(.guarded body, s)]) = bound model past :=
      bound_snoc_of_not_validation rfl
    exact ⟨by rw [same]; exact h.size, by rw [same]; exact h.lists⟩
  region h _ := ⟨h.size, h.lists⟩

/-- The ID that is given out next names nothing, unless a symbol was bound that went unnoticed. -/
theorem Counted.of_taken (h : Counted model past s) (phase : s.phase ∈ [Phase.building, .loading])
    (empty : s.ledger.isEmpty = true) {id : SymbolId} (next : s.numbering.next = some id)
    (unnoticed : bound model past ≤ shared model) (taken : (s.numbering.symbolOf? id).isSome) :
    model.rootType = model.metaType ∧ bound model past = 1 := by
  by_cases none : bound model past = 0
  · obtain ⟨known, lists⟩ := h.lists phase empty none
    rw [lists.symbolOf?_eq, lists.next_some id next] at taken
    simp at taken
  · unfold shared at unnoticed
    split at unnoticed
    · rename_i same
      exact ⟨same, by omega⟩
    · omega

/-- A seed gives out a new ID exactly if the session is building or loading, has made no record,
has bound no symbol (or just one, where root type and meta type are the same) and has an ID left
for a symbol that has none. Otherwise it fails or answers with the ID that is there, and changes
nothing. A new ID names no other symbol, except that a symbol bound unnoticed may lose its ID to a
seed. Neither a region that is open nor a check that was confirmed makes a difference. -/
theorem seed_is_new_iff {config : Config} {phase : Phase} {ops : List Operation}
    {before later : List (Operation × Session)}
    (trace : issuedAll model ops (start model config phase) = before ++ (.seed x, t) :: later) :
    let after := perform model (.seed x) t
    let new := t.phase ∈ [Phase.building, .loading] ∧ t.ledger.isEmpty = true ∧
      bound model before ≤ shared model ∧ t.numbering.id? x = none ∧ t.numbering.next.isSome
    (new → ∃ id, t.numbering.next = some id ∧ after = (.id (some id),
        { t with numbering := t.numbering.issue x id, seeded := t.seeded + 1 }) ∧
      ((t.numbering.symbolOf? id).isSome →
        model.rootType = model.metaType ∧ bound model before = 1)) ∧
    (¬new → after.2 = t ∧ ((∃ failure, after.1 = .failed failure) ∨
      ∃ id, t.numbering.id? x = some id ∧ after.1 = .id (some id))) := by
  intro after new
  have counted : Counted model before t :=
    (history_counted model).found (Counted.start model config phase) trace
  refine ⟨?_, fun old => ?_⟩
  · rintro ⟨phase, empty, unnoticed, unknown, left⟩
    obtain ⟨id, next⟩ := Option.isSome_iff_exists.mp left
    have early := (counted.isLate_eq_false_iff phase).mpr ⟨empty, unnoticed⟩
    exact ⟨id, next, perform_seed_of_early model phase early unknown next,
      counted.of_taken phase empty next unnoticed⟩
  · rcases perform_seed_cases model x t with
      ⟨failure, heq⟩ | ⟨id, known, heq⟩ | ⟨id, phase, early, unknown, next, -⟩
    · rw [show after = _ from heq]
      exact ⟨rfl, .inl ⟨failure, rfl⟩⟩
    · rw [show after = _ from heq]
      exact ⟨rfl, .inr ⟨id, known, rfl⟩⟩
    · obtain ⟨empty, unnoticed⟩ := (counted.isLate_eq_false_iff phase).mp early
      exact absurd ⟨phase, empty, unnoticed, unknown, by rw [next]; rfl⟩ old

/-- The first seed of a session. -/
theorem seed_is_new_iff_at_first :
    let model := Model.uniform ⟨0⟩ ⟨1⟩ none none ⟨List.replicate 32 0, rfl⟩
    let s₀ := forCompile model default
    issuedAll model [.seed (.type ⟨5⟩)] s₀ = [] ++ (.seed (.type ⟨5⟩), s₀) :: [] ∧
      ∃ id, s₀.numbering.next = some id ∧ perform model (.seed (.type ⟨5⟩)) s₀ = (.id (some id),
        { s₀ with numbering := s₀.numbering.issue (.type ⟨5⟩) id, seeded := s₀.seeded + 1 }) := by
  intro model s₀
  have lists : s₀.numbering.Lists (seededWith model []) := lists_start model default .building
  obtain ⟨id, next, -⟩ := lists.exists_next (by decide)
  have unknown : s₀.numbering.id? (.type ⟨5⟩) = none := lists.not_mem_iff.mp (by decide)
  have trace : issuedAll model [.seed (.type ⟨5⟩)] s₀ = [] ++ (.seed (.type ⟨5⟩), s₀) :: [] := rfl
  obtain ⟨id', next', answered, -⟩ := (seed_is_new_iff trace).1
    ⟨by decide, rfl, Nat.zero_le _, unknown, by rw [next]; rfl⟩
  exact ⟨trace, id', next', answered⟩

theorem perform_validateSymbol_of_free {id : SymbolId} (model : Model)
    (loading : s.phase = .loading) (free : s.numbering.symbolOf? id = none) (new : s.numbering.id? x = none) :
    perform model (.validateSymbol id (some x)) s =
      (.flag true, { s with numbering := s.numbering.assign x id }) := by
  rw [perform, settle, validateSymbol, bind_of_ok (gate_of_mem (by simp [loading]))]
  simp only [bindSymbol, Numbering.bind_of_free free new]
  rfl

/-- Where the meta type is the root type, a symbol that is bound to the next ID at first loses it to
a seed. -/
theorem exists_taken_over (same : model.rootType = model.metaType) (config : Config)
    {x y : Symbol} (hx : .type model.rootType ≠ x) (hy : .type model.rootType ≠ y) (hne : x ≠ y) :
    ∃ id bound seeded,
      perform model (.validateSymbol id (some x)) (forLoad model config) = (.flag true, bound) ∧
      perform model (.seed y) bound = (.id (some id), seeded) ∧
      seeded.numbering.id? x = some id ∧ seeded.numbering.symbolOf? id = some y := by
  let s₀ := forLoad model config
  have lists : s₀.numbering.Lists [.type model.rootType] := by
    have h := lists_start model config .loading
    rwa [show seededWith model [] = [.type model.rootType] by
      simp [seededWith, seeds, learn, ← same]] at h
  obtain ⟨id, next, hid⟩ := lists.exists_next (by simp)
  have free : s₀.numbering.symbolOf? id = none := by
    rw [lists.symbolOf?_eq, hid]
    rfl
  have new {z : Symbol} (hz : .type model.rootType ≠ z) : s₀.numbering.id? z = none :=
    lists.not_mem_iff.mp (by simpa using hz.symm)
  let bound := { s₀ with numbering := s₀.numbering.assign x id }
  have phase : bound.phase ∈ [Phase.building, .loading] := List.mem_cons_of_mem _ List.mem_cons_self
  have early : bound.isLate = false := by
    have hsize : bound.numbering.size = 2 := by
      rw [Numbering.size_assign s₀.numbering _ _ (new hx), lists.size_eq]
      rfl
    rw [isLate, hsize]
    rfl
  have unknown : bound.numbering.id? y = none := by
    rw [Numbering.id?_assign, if_neg hne]
    exact new hy
  refine ⟨id, bound, _, perform_validateSymbol_of_free model rfl free (new hx),
    perform_seed_of_early model phase early unknown next, ?_, ?_⟩
  · rw [Numbering.id?_issue, Numbering.id?_assign, if_neg hne.symm, Numbering.id?_assign,
      if_pos rfl]
  · rw [Numbering.symbolOf?_issue, Numbering.symbolOf?_assign, if_pos rfl]

/-- A new ID is given out while a region is open, and after a check was confirmed. Where the meta
type is the root type, a seed takes over the ID of a symbol that was bound to it. -/
theorem seed_comes_late_unnoticed :
    let model := Model.uniform ⟨0⟩ ⟨1⟩ none none ⟨List.replicate 32 0, rfl⟩
    let inside := (performAll model [.enterRegion] (forCompile model default)).2
    let loading := forLoad model default
    let check := Operation.validate (.check (.initialized .first true))
    let twins := Model.uniform ⟨0⟩ ⟨0⟩ none none ⟨List.replicate 32 0, rfl⟩
    (inside.region.isOpen = true ∧ inside.numbering.id? (.type ⟨5⟩) = none ∧
      ∃ id, (perform model (.seed (.type ⟨5⟩)) inside).1 = .id (some id)) ∧
    (∃ confirmed, perform model check loading = (.flag true, confirmed) ∧
      confirmed.numbering.id? (.type ⟨5⟩) = none ∧
      ∃ id, (perform model (.seed (.type ⟨5⟩)) confirmed).1 = .id (some id)) ∧
    ∃ id bound seeded,
      perform twins (.validateSymbol id (some (.type ⟨5⟩))) (forLoad twins default) =
        (.flag true, bound) ∧
      perform twins (.seed (.type ⟨6⟩)) bound = (.id (some id), seeded) ∧
      seeded.numbering.id? (.type ⟨5⟩) = some id ∧
      seeded.numbering.symbolOf? id = some (.type ⟨6⟩) := by
  intro model inside loading check twins
  have early {phase : Phase} (hphase : phase ∈ [Phase.building, .loading]) :
      (start model default phase).isLate = false :=
    (seedable_start model default hphase).isLate_eq_false
  have answered (s : Session) (phase : s.phase ∈ [Phase.building, .loading])
      (early : s.isLate = false) (lists : s.numbering.Lists (seededWith model [])) :
      s.numbering.id? (.type ⟨5⟩) = none ∧
        ∃ id, (perform model (.seed (.type ⟨5⟩)) s).1 = .id (some id) := by
    have unknown : s.numbering.id? (.type ⟨5⟩) = none := lists.not_mem_iff.mp (by decide)
    obtain ⟨id, next, -⟩ := lists.exists_next (by decide)
    exact ⟨unknown, id, congrArg Prod.fst (perform_seed_of_early model phase early unknown next)⟩
  refine ⟨⟨rfl, answered inside (by decide) (early (by decide : Phase.building ∈ _))
    (lists_start model default .building)⟩, ?_, exists_taken_over rfl default nofun nofun nofun⟩
  have lists := lists_start model default .loading
  have root : Assignment.type loading.numbering.symbolOf? .first = some ⟨0⟩ :=
    Assignment.type_eq_some.mpr (lists.symbolOf?_eq .first)
  have found : model.find loading.numbering.symbolOf? (.check (.initialized .first true)) =
      some (.states true) := by
    simp only [Model.find, Check.mapM, root]
    rfl
  have confirmed : perform model check loading = (.flag true, loading) := by
    rw [perform, settle, validate_of_find rfl found]
    rfl
  exact ⟨loading, confirmed,
    answered loading (by decide) (early (by decide : Phase.loading ∈ _)) lists⟩

end Provenance.Session
