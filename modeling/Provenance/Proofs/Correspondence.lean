import Provenance.Proofs.Runs

/-!
IDs and symbols in one-to-one correspondence. A binding may take any free ID while a session
loads, and a seed takes the next one; they do not collide because seeds are refused once
anything was bound. What is recorded or seeded takes IDs in their order, and when none is
left whatever needs one says so and leaves the numbering alone.
-/
namespace Provenance.Session

variable {α β : Type} {model : Model} {s s' : Session} {given : List Symbol}

theorem refuse_limit (l : Limit) (s : Session) :
    (refuse (.limit l) s : EStateM.Result Failure Session α) = .error (.refused (.limit l)) s := by
  simp [refuse, SessionError.isLogic]

/-- The session with some ID in supply as the next one. -/
def supplied (s : Session) (id : SymbolId) : Session :=
  { s with numbering := { s.numbering with next := some id } }

/-- Given an ID to hand out, the operation would take it. -/
def Needs (model : Model) (operation : Operation) (s : Session) : Prop :=
  ∃ id, (perform model operation (s.supplied id)).2.numbering.next ≠ some id

/-- An action that finds no ID to hand out either says so and leaves the numbering alone, or
needs none: it does the same whatever is in supply. -/
inductive Rationed (action : Action α) (s : Session) : Prop where
  | short {s' : Session} (reports : action s = .error (.refused (.limit .symbolIds)) s')
      (same : s'.numbering = s.numbering)
  | done {a : α} {s' : Session} (does : action s = .ok a s') (same : s'.numbering = s.numbering)
      (spares : ∀ id, action (s.supplied id) = .ok a (s'.supplied id))
  | failed {e : Failure} {s' : Session} (does : action s = .error e s')
      (spares : ∀ id, action (s.supplied id) = .error e (s'.supplied id))

namespace Rationed

theorem pure (a : α) : Rationed (Pure.pure a) s := .done rfl rfl fun _ => rfl

theorem refuse (e : SessionError) : Rationed (Session.refuse e : Action α) s :=
  .failed rfl fun _ => rfl

theorem bind {action : Action α} {next : α → Action β} (h : Rationed action s)
    (hnext : ∀ a s', action s = .ok a s' → s'.numbering = s.numbering → Rationed (next a) s') :
    Rationed (action >>= next) s := by
  cases h with
  | short reports same => exact .short (bind_of_error reports) same
  | failed does spares =>
    exact .failed (bind_of_error does) fun id => bind_of_error (spares id)
  | done does same spares =>
    cases hnext _ _ does same with
    | short reports same' => exact .short ((bind_of_ok does).trans reports) (same'.trans same)
    | done does' same' spares' =>
      exact .done ((bind_of_ok does).trans does') (same'.trans same) fun id =>
        (bind_of_ok (spares id)).trans (spares' id)
    | failed does' spares' =>
      exact .failed ((bind_of_ok does).trans does') fun id =>
        (bind_of_ok (spares id)).trans (spares' id)

/-- What is read off a session must not depend on the supply. -/
theorem get_bind {next : Session → Action β} (same : ∀ id, next (s.supplied id) = next s)
    (h : Rationed (next s) s) : Rationed ((get : Action Session) >>= next) s := by
  have hsupplied (id : SymbolId) :
      ((get : Action Session) >>= next) (s.supplied id) = next s (s.supplied id) := by
    rw [Session.get_bind, same]
  cases h with
  | short reports same => exact .short reports same
  | done does same spares => exact .done does same fun id => (hsupplied id).trans (spares id)
  | failed does spares => exact .failed does fun id => (hsupplied id).trans (spares id)

theorem gate {operation : Gated} {allowed : List Phase} :
    Rationed (Session.gate operation allowed) s := by
  by_cases hp : s.phase ∈ allowed
  · have hp' (id : SymbolId) : (s.supplied id).phase ∈ allowed := hp
    exact .done (gate_of_mem hp) rfl fun id => gate_of_mem (hp' id)
  · have hp' (id : SymbolId) : (s.supplied id).phase ∉ allowed := hp
    exact .failed (gate_of_not_mem hp) fun id => gate_of_not_mem (hp' id)

theorem requirePremises (r : LiveRecord) : Rationed (Session.requirePremises r) s := by
  have hs := requirePremises_eq r s
  have hsupplied (id : SymbolId) := requirePremises_eq r (s.supplied id)
  have same (id : SymbolId) : (s.supplied id).isValidated = s.isValidated := rfl
  simp only [same] at hsupplied
  cases hfind : r.premises.find? (fun x => !s.isValidated x) with
  | none =>
    rw [hfind] at hs
    simp only [hfind] at hsupplied
    exact .done hs rfl hsupplied
  | some x =>
    rw [hfind] at hs
    simp only [hfind] at hsupplied
    exact .failed hs hsupplied

variable (empty : s.numbering.next = none)
include empty

theorem append (r : LiveRecord) : Rationed (Session.append r) s := by
  have hs := append_eq r s
  have hsupplied (id : SymbolId) := append_eq r (s.supplied id)
  have ledger (id : SymbolId) : (s.supplied id).ledger = s.ledger := rfl
  have known (id : SymbolId) : (s.supplied id).numbering.id? = s.numbering.id? := rfl
  simp only [ledger, known] at hsupplied
  by_cases hc : s.ledger.contains r
  · simp only [hc, if_true] at hs hsupplied
    exact .failed hs hsupplied
  · simp only [hc] at hs hsupplied
    cases hd : r.defined with
    | none =>
      simp only [hd] at hs hsupplied
      exact .done hs rfl hsupplied
    | some x =>
      simp only [hd] at hs hsupplied
      by_cases hx : (s.numbering.id? x).isSome
      · simp only [hx] at hs hsupplied
        exact .done hs rfl hsupplied
      · simp only [hx, empty] at hs
        exact .short (hs.trans (refuse_limit _ s)) rfl

theorem appendIfNew (r : LiveRecord) : Rationed (Session.appendIfNew r) s := by
  refine get_bind (fun _ => rfl) ?_
  by_cases hc : s.ledger.contains r
  · rw [if_pos hc]
    exact pure ()
  · rw [if_neg hc]
    exact append empty r

theorem addType (ty : TypeRef) (rule : TypeRule TypeRef ProcRef) :
    Rationed (Session.addType model ty rule) s := by
  refine (requirePremises _).bind fun _ s₁ _ same₁ => get_bind (fun _ => rfl) ?_
  by_cases hv : s₁.isValidated (.type ty)
  · rw [if_pos hv]
    exact appendIfNew (by rw [same₁, empty]) _
  · rw [if_neg hv]
    refine (append (by rw [same₁, empty]) _).bind fun _ s₂ _ same₂ => ?_
    by_cases ha : model.isArray ty
    · rw [if_pos ha]
      exact pure ()
    · rw [if_neg ha]
      exact appendIfNew (by rw [same₂, same₁, empty]) _

theorem addProcedure (p : ProcRef) (rule : ProcRule TypeRef ProcRef) :
    Rationed (Session.addProcedure model p rule) s := by
  refine (requirePremises _).bind fun _ s₁ _ same₁ => get_bind (fun _ => rfl) ?_
  by_cases hv : s₁.isValidated (.procedure p)
  · rw [if_pos hv]
    exact appendIfNew (by rw [same₁, empty]) _
  · rw [if_neg hv]
    refine (append (by rw [same₁, empty]) _).bind fun _ s₂ _ same₂ => get_bind (fun _ => rfl) ?_
    by_cases ho : s₂.isValidated (.type (model.ownerOf p))
    · rw [if_pos ho]
      exact pure ()
    · rw [if_neg ho]
      exact addType (by rw [same₂, same₁, empty]) _ _

theorem addCheck (c : Check TypeRef ProcRef) : Rationed (Session.addCheck c) s :=
  (requirePremises _).bind fun _ _ _ same => appendIfNew (by rw [same, empty]) _

theorem addArrays (ty : TypeRef) (dims : Nat) (component : TypeRef) :
    Rationed (Session.addArrays model ty dims component) s := by
  induction dims generalizing component s with
  | zero => exact pure ()
  | succ dims ih =>
    rw [Session.addArrays]
    cases model.arrayType component with
    | none => exact refuse _
    | some array =>
      exact (addType empty array _).bind fun _ _ _ same => ih (by rw [same, empty]) array

theorem addNamed (ty : TypeRef) (naming : Naming) :
    Rationed (Session.addNamed model ty naming) s := by
  rw [Session.addNamed]
  generalize model.baseComponent ty = nested
  obtain ⟨component, dims⟩ := nested
  refine get_bind (fun _ => rfl) ?_
  by_cases hd : s.config.maxArrayDimensions.toNat < dims
  · simp only [hd, if_true]
    exact (refuse _).bind fun _ _ h => by cases h
  · simp only [hd, if_false]
    exact (addType empty component _).bind fun _ _ _ same =>
      addArrays (by rw [same, empty]) ty dims component

theorem add (d : Discovery) : Rationed (Session.add model d) s := by
  refine gate.bind fun _ s₁ _ same₁ => get_bind (fun _ => rfl) ?_
  rw [← same₁] at empty
  by_cases hr : s₁.region.isOpen
  · rw [if_pos hr]
    exact pure false
  · rw [if_neg hr]
    have told {action : Action Unit} (h : Rationed action s₁) :
        Rationed (action >>= fun _ => Pure.pure true) s₁ := h.bind fun _ _ _ _ => pure true
    cases d with
    | named ty naming =>
      cases ty with
      | none => exact pure false
      | some ty => exact told (addNamed empty ty naming)
    | type ty rule unnamed =>
      cases ty with
      | none => exact pure false
      | some ty => exact told (addType empty ty rule)
    | signed p owner beholder =>
      cases p with
      | none => exact pure false
      | some p => exact told (addProcedure empty p _)
    | procedure p rule unsigned =>
      cases p with
      | none => exact pure false
      | some p => exact told (addProcedure empty p rule)
    | check c unchained => exact told (addCheck empty c)

theorem seed (x : Symbol) : Rationed (Session.seed x) s := by
  refine gate.bind fun _ s₁ _ same₁ => get_bind (fun _ => rfl) ?_
  rw [← same₁] at empty
  by_cases hl : s₁.isLate
  · rw [if_pos hl]
    exact refuse _
  · rw [if_neg hl]
    refine get_bind (fun _ => rfl) ?_
    cases hx : s₁.numbering.id? x with
    | some id => exact pure id
    | none => exact .short (bind_of_error ((issue_of_none empty).trans (refuse_limit _ s₁))) rfl

end Rationed

theorem next_of_quiet (h : Moves (fun _ => False) [] s s') :
    s'.numbering.next = s.numbering.next := by
  refine (h.invariant (I := fun seeds s' => seeds = [] → s'.numbering.next = s.numbering.next) ?_
    fun _ => rfl : [] ++ [] = [] → _) rfl
  intro seeds given s₁ s₂ hsame quiet hgiven
  rw [List.append_eq_nil_iff] at hgiven
  cases quiet with
  | reseed | seed => cases hgiven.2
  | confirm ok | derive ok => cases ok
  | region | «sealed» | bind | validated | reject => exact hsame hgiven.1

/-- Whatever needs an ID when there is none left says so. -/
theorem limit_of_needs {operation : Operation} (empty : s.numbering.next = none)
    (plain : ∀ body, operation ≠ .guarded body) (needs : Needs model operation s) :
    ∃ s', perform model operation s = (.failed (.refused (.limit .symbolIds)), s') ∧
      s'.numbering = s.numbering := by
  obtain ⟨id, needs⟩ := needs
  have settles {α : Type} {action : Action α} {outcome : α → Outcome}
      (h : Rationed action s)
      (needs : (settle action outcome (s.supplied id)).2.numbering.next ≠ some id) :
      ∃ s', settle action outcome s = (.failed (.refused (.limit .symbolIds)), s') ∧
        s'.numbering = s.numbering := by
    cases h with
    | short reports same => exact ⟨_, by rw [settle, reports], same⟩
    | done _ _ spares => exact absurd (by rw [settle, spares]; rfl) needs
    | failed _ spares => exact absurd (by rw [settle, spares]; rfl) needs
  by_cases quiet : operation.isQuiet
  · exact absurd (next_of_quiet (perform_quiet model quiet (s.supplied id))) needs
  · cases operation with
    | add d => exact settles (Rationed.add empty d) needs
    | seed x => exact settles (Rationed.seed empty x) needs
    | guarded body => exact absurd rfl (plain body)
    | _ => exact absurd rfl quiet

/-- Nothing was bound out of order. -/
def InOrder (s : Session) : Prop :=
  s.phase = .building ∨ s.phase = .sealed ∨ s.phase = .loading ∧ s.isLate = false

/-- IDs and symbols name each other, and as long as IDs are given out in their order they are
those from one on. A session that loads never counts more seeds than symbols, so that it takes
no seeds once it has bound some ID out of order. -/
structure Numbered (s : Session) : Prop where
  isBijection : s.numbering.IsBijection
  lists : s.InOrder → ∃ known, s.numbering.Lists known
  seeded : s.phase = .loading → s.seeded ≤ s.numbering.size
  cleared : s.phase = .rejected → ∀ x, s.numbering.id? x = none

namespace Numbered

theorem start (distinct : model.rootType ≠ model.metaType) (config : Config) {phase : Phase}
    (hphase : phase ≠ .rejected) : Numbered (Session.start model config phase) where
  isBijection := (lists_start model config phase).isBijection
  lists _ := ⟨_, lists_start model config phase⟩
  seeded _ := by
    rw [(lists_start model config phase).size_eq]
    simp [Session.start, seeds, seededWith, learn, distinct.symm]
  cleared h := absurd h hphase

theorem inOrder_of_early (h : s.phase ∈ [Phase.building, Phase.loading])
    (early : s.isLate = false) : s.InOrder := by
  simp only [List.mem_cons, List.not_mem_nil, or_false] at h
  rcases h with hp | hp
  · exact .inl hp
  · exact .inr (.inr ⟨hp, early⟩)

theorem move {allowed : LiveRecord → Prop} (h : Numbered s) (hmove : Move allowed given s s') :
    Numbered s' := by
  cases hmove with
  | region => exact ⟨h.isBijection, h.lists, h.seeded, h.cleared⟩
  | reseed => exact h
  | @seed _ x id phase early new next =>
    obtain ⟨known, lists⟩ := h.lists (inOrder_of_early phase early)
    have lists' := lists.issue new next
    refine ⟨lists'.isBijection, fun _ => ⟨_, lists'⟩, fun loading => ?_, fun rejected => ?_⟩
    · have hseeded := h.seeded loading
      rw [lists.size_eq] at hseeded
      rw [lists'.size_eq, List.length_append]
      exact Nat.succ_le_succ hseeded
    · simp [show s.phase = .rejected from rejected] at phase
  | confirm _ phase =>
    have lists := h.lists (.inl phase)
    refine ⟨h.isBijection, fun _ => lists, h.seeded, h.cleared⟩
  | @derive _ r x id _ phase _ _ _ _ new next =>
    obtain ⟨known, lists⟩ := h.lists (.inl phase)
    have lists' := lists.issue new next
    refine ⟨lists'.isBijection, fun _ => ⟨_, lists'⟩, fun loading => ?_, fun rejected => ?_⟩
    · rw [show s.phase = .loading from loading] at phase
      cases phase
    · rw [show s.phase = .rejected from rejected] at phase
      cases phase
  | «sealed» phase =>
    exact ⟨h.isBijection, fun _ => h.lists (.inl phase), by rintro ⟨⟩, by rintro ⟨⟩⟩
  | @bind _ x id phase free new =>
    have hsize := Numbering.size_assign s.numbering x id new
    have hseeded := h.seeded phase
    refine ⟨h.isBijection.assign new free, fun inOrder => ?_, fun _ => ?_, fun rejected => ?_⟩
    · -- A binding makes it too late for seeds.
      have late : s.seeded < (s.numbering.assign x id).size := by omega
      rcases inOrder with hp | hp | ⟨-, early⟩
      · rw [show s.phase = .building from hp] at phase
        cases phase
      · rw [show s.phase = .sealed from hp] at phase
        cases phase
      · simp [isLate, late] at early
    · show s.seeded ≤ (s.numbering.assign x id).size
      omega
    · rw [show s.phase = .rejected from rejected] at phase
      cases phase
  | validated phase =>
    exact ⟨h.isBijection, by simp [InOrder], by rintro ⟨⟩, by rintro ⟨⟩⟩
  | reject phase =>
    refine ⟨?_, by simp [InOrder, reject], by rintro ⟨⟩, fun _ x => Numbering.id?_clear _ x⟩
    intro x id
    simp [reject]

/-- Where all IDs are in use and they were given out in order, the supply is empty. -/
theorem next_of_full (h : Numbered s) (inOrder : s.InOrder)
    (full : ∀ id, (s.numbering.symbolOf? id).isSome) : s.numbering.next = none := by
  obtain ⟨known, lists⟩ := h.lists inOrder
  cases hn : s.numbering.next with
  | none => rfl
  | some id =>
    have hid := full id
    rw [lists.symbolOf?_eq, lists.next_some id hn] at hid
    simp at hid

end Numbered

/-- A session that neither records nor takes seeds needs no ID. -/
theorem not_needs_of_not_inOrder {operation : Operation} (h : ¬ s.InOrder)
    (plain : ∀ body, operation ≠ .guarded body) : ¬ Needs model operation s := by
  rintro ⟨id, needs⟩
  refine needs ?_
  by_cases quiet : operation.isQuiet
  · exact next_of_quiet (perform_quiet model quiet (s.supplied id))
  · cases operation with
    | add d =>
      have hgate : (s.supplied id).phase ∉ [Phase.building] := fun hp =>
        h (.inl (List.mem_singleton.mp hp))
      rw [perform, settle_snd, Session.add, leaves_of_error (bind_of_error (gate_of_not_mem hgate))]
      rfl
    | seed x =>
      have heq := seed_eq x (s.supplied id)
      rw [perform, settle_snd, leaves, heq]
      by_cases hp : (s.supplied id).phase ∈ [Phase.building, Phase.loading]
      · rw [if_pos hp]
        cases hlate : (s.supplied id).isLate with
        | true => rfl
        | false => exact absurd (Numbered.inOrder_of_early (s := s) hp hlate) h
      · rw [if_neg hp]
        rfl
    | guarded body => exact absurd rfl (plain body)
    | _ => exact absurd rfl quiet

/-- What has an ID keeps it, unless all of it was rejected. -/
def Keeps (s s' : Session) : Prop :=
  s'.phase = .rejected ∨ ∀ x id, s.numbering.id? x = some id → s'.numbering.id? x = some id

theorem Keeps.move {allowed : LiveRecord → Prop} {s'' : Session} (h : Keeps s s')
    (hmove : Move allowed given s' s'') : Keeps s s'' := by
  -- A symbol that is new is none of those that had an ID.
  have assigned {x : Symbol} {id : SymbolId} (new : s'.numbering.id? x = none)
      (keeps : ∀ y other, s.numbering.id? y = some other → s'.numbering.id? y = some other) :
      ∀ y other, s.numbering.id? y = some other →
        (s'.numbering.assign x id).id? y = some other := by
    intro y other hy
    have hne : x ≠ y := by
      rintro rfl
      rw [keeps x other hy] at new
      cases new
    rw [Numbering.id?_assign, if_neg hne]
    exact keeps y other hy
  rcases h with rejected | keeps
  · cases hmove with
    | region | reseed => exact .inl rejected
    | seed phase => simp [rejected] at phase
    | confirm _ phase | derive _ phase | «sealed» phase | bind phase | validated phase
    | reject phase => simp [rejected] at phase
  · cases hmove with
    | region | reseed | confirm | «sealed» | validated => exact .inr keeps
    | seed _ _ new | derive _ _ _ _ _ _ new | bind _ _ new => exact .inr (assigned new keeps)
    | reject => exact .inl rfl

/-- The symbols that were listed are the first of those that are listed now. -/
def Lengthens (known : List Symbol) (s : Session) : Prop :=
  (s.phase = .building ∨ s.phase = .sealed) ∧ ∃ known', s.numbering.Lists known' ∧ known <+: known'

theorem Lengthens.move {allowed : LiveRecord → Prop} {known : List Symbol}
    (h : Lengthens known s) (hmove : Move allowed given s s') : Lengthens known s' := by
  obtain ⟨phase, known', lists, front⟩ := h
  cases hmove with
  | region | reseed | confirm => exact ⟨phase, known', lists, front⟩
  | seed _ _ new next | derive _ _ _ _ _ _ new next =>
    exact ⟨phase, _, lists.issue new next, front.trans (List.prefix_append _ _)⟩
  | «sealed» => exact ⟨.inr rfl, known', lists, front⟩
  | bind loading | validated loading | reject loading => simp [loading] at phase

/-- After any operations on a new session, failed ones among them, IDs and symbols name each
other, and nothing done later takes or changes an ID, short of a rejection, after which none
is left. In a session that records the IDs in use are those from one to some number, which is
65535 at most, and what gets an ID later gets a larger one. When all IDs are in use, whatever
would need one more reports that the limit is reached and leaves the numbering as it is. -/
theorem ids_and_symbols_correspond {config : Config} {s₀ : Session} {ops : List Operation}
    {outcomes : List Outcome} (distinct : model.rootType ≠ model.metaType)
    (fresh : s₀ = forCompile model config ∨ s₀ = forLoad model config)
    (run : performAll model ops s₀ = (outcomes, s)) :
    (∀ x id, s.numbering.id? x = some id ↔ s.numbering.symbolOf? id = some x) ∧
    (∀ x id, s.numbering.id? x = some id → 0 < id.toNat) ∧
    (∀ more : List Operation, let later := (performAll model more s).2
      (∀ x id, s.numbering.id? x = some id → later.numbering.id? x = some id) ∨
        later.phase = .rejected ∧ ∀ x, later.numbering.id? x = none) ∧
    (s.phase = .building ∨ s.phase = .sealed → ∃ n ≤ 65535,
      (∀ id, (s.numbering.symbolOf? id).isSome ↔ id.toNat ≤ n) ∧
      ∀ (more : List Operation) x id, s.numbering.id? x = none →
        (performAll model more s).2.numbering.id? x = some id → n < id.toNat) ∧
    ((∀ id, (s.numbering.symbolOf? id).isSome) →
      ∀ operation, (∀ body, operation ≠ .guarded body) → Needs model operation s →
        ∃ s', perform model operation s = (.failed (.refused (.limit .symbolIds)), s') ∧
          s'.numbering = s.numbering) := by
  have moves (ops : List Operation) (s : Session) : Moves (fun _ => True)
      (Operation.givenAll ops (performAll model ops s).1) s (performAll model ops s).2 :=
    performAll_moves model (fun _ _ => trivial) ops s fun _ _ _ _ => trivial
  have numbered₀ : Numbered s₀ := by
    rcases fresh with rfl | rfl
    · exact Numbered.start distinct config nofun
    · exact Numbered.start distinct config nofun
  have numbered : Numbered s := by
    have hrun := moves ops s₀
    rw [run] at hrun
    exact hrun.keeps (fun h hmove => h.move hmove) numbered₀
  refine ⟨numbered.isBijection, fun _ id _ => id.toNat_pos, fun more => ?_, fun phase => ?_, ?_⟩
  · have numbered' : Numbered (performAll model more s).2 :=
      (moves more s).keeps (fun h hmove => h.move hmove) numbered
    have later : Keeps s (performAll model more s).2 :=
      (moves more s).keeps (fun h hmove => h.move hmove) (.inr fun _ _ => id)
    rcases later with rejected | keeps
    · exact .inr ⟨rejected, numbered'.cleared rejected⟩
    · exact .inl keeps
  · obtain ⟨known, lists⟩ := numbered.lists (phase.imp_right .inl)
    refine ⟨known.length, lists.length_le, fun id => ?_, fun more x id new hid => ?_⟩
    · have hpos := id.toNat_pos
      rw [lists.symbolOf?_eq, Option.isSome_iff_ne_none, Ne, List.getElem?_eq_none_iff]
      omega
    · have later : Lengthens known (performAll model more s).2 :=
        (moves more s).keeps (fun h hmove => h.move hmove) ⟨phase, known, lists, List.prefix_rfl⟩
      obtain ⟨-, known', lists', more', rfl⟩ := later
      have hi := lists'.getElem?_of_id? hid
      have hpos := id.toNat_pos
      by_cases hlt : id.toNat - 1 < known.length
      · rw [List.getElem?_append_left hlt] at hi
        exact absurd new (by simp [← lists.not_mem_iff, List.mem_of_getElem? hi])
      · omega
  · intro full operation plain needs
    by_cases inOrder : s.InOrder
    · exact limit_of_needs (numbered.next_of_full inOrder full) plain needs
    · exact absurd needs (not_needs_of_not_inOrder inOrder plain)

/-- A session that was given as many seeds as there are IDs refuses one more. -/
theorem ids_and_symbols_correspond_when_used_up :
    let model := Model.uniform ⟨0⟩ ⟨1⟩ none none ⟨List.replicate 32 0, rfl⟩
    let given : List Symbol := (List.range 65533).map fun i => .type ⟨i + 2⟩
    let run := performAll model (given.map .seed) (forCompile model default)
    model.rootType ≠ model.metaType ∧ (∀ id, (run.2.numbering.symbolOf? id).isSome) ∧
      ∃ s', perform model (.seed (.procedure ⟨0⟩)) run.2 =
          (.failed (.refused (.limit .symbolIds)), s') ∧ s'.numbering = run.2.numbering := by
  intro model given run
  have distinct : model.rootType ≠ model.metaType := by
    intro h
    cases h
  have hstart : seededWith model [] = [.type ⟨0⟩, .type ⟨1⟩] := rfl
  have hgiven : given.Nodup := List.Pairwise.map _ (by simp) List.nodup_range
  have nodup : (seededWith model [] ++ given).Nodup := by
    rw [hstart]
    simpa [given] using hgiven
  have hfold := foldl_learn_of_nodup nodup
  have hlength : (given.foldl learn (seededWith model [])).length = 65535 := by
    rw [hfold, List.length_append, List.length_map, List.length_range, hstart]
    rfl
  obtain ⟨s, hseeds, hphase, seedable⟩ := seeds_of_seedable model given
    (seedable_start model default (by decide : Phase.building ∈ _)) (Nat.le_of_eq hlength)
  have hrun : run = _ := hseeds
  have lists := seedable.lists
  have full : ∀ id, (s.numbering.symbolOf? id).isSome := by
    intro id
    have hlt := id.toNat_lt
    rw [lists.symbolOf?_eq, Option.isSome_iff_ne_none, Ne, List.getElem?_eq_none_iff, hlength]
    omega
  have new : s.numbering.id? (.procedure ⟨0⟩) = none := by
    rw [← lists.not_mem_iff, hfold, hstart]
    simp [given]
  have needs : Needs model (.seed (.procedure ⟨0⟩)) s := by
    have heq := seed_eq (.procedure ⟨0⟩) (s.supplied .first)
    have early : (s.supplied .first).isLate = false := seedable.isLate_eq_false
    have new' : (s.supplied .first).numbering.id? (.procedure ⟨0⟩) = none := new
    rw [if_pos (show (s.supplied .first).phase ∈ _ from seedable.phase), early, new'] at heq
    have taken : (perform model (.seed (.procedure ⟨0⟩)) (s.supplied .first)).2.numbering.next =
        SymbolId.first.next? := by
      rw [perform, settle, heq]
      rfl
    exact ⟨.first, by rw [taken]; decide⟩
  rw [hrun]
  obtain ⟨-, -, -, -, limited⟩ := ids_and_symbols_correspond distinct (.inl rfl) hseeds
  exact ⟨distinct, full, limited full _ (by rintro _ ⟨⟩) needs⟩

end Provenance.Session
