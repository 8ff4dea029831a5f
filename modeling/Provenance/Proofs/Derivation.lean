import Provenance.Proofs.Runs

/-!
Records as a derivation. Each record mentions what is known before it, apart from the
symbol it defines, which is known after it. The ledger of a session that records is such a
derivation from the seeds, and its numbering lists what the derivation has reached, in the
order in which it was reached.
-/
namespace Provenance

section Derivation

variable {T P : Type} [DecidableEq T] [DecidableEq P] {known last : List (Operand T P)}
  {records : List (Record T P)} {r : Record T P}

/-- The symbols known after a record. -/
def Record.learned (r : Record T P) (known : List (Operand T P)) : List (Operand T P) :=
  match r.defined with
  | some x => learn known x
  | none => known

theorem Record.prefix_learned (r : Record T P) (known : List (Operand T P)) :
    known <+: r.learned known := by
  rw [learned]
  cases r.defined with
  | none => exact List.prefix_refl known
  | some x => exact prefix_learn known x

theorem Record.mem_learned {r : Record T P} {known : List (Operand T P)} {x : Operand T P} :
    x ∈ r.learned known ↔ x ∈ known ∨ r.defined = some x := by
  rw [learned]
  cases r.defined with
  | none => simp
  | some y => simp [mem_learn, eq_comm]

/-- Records that lead from the symbols known before them to those known after them. -/
inductive Derives : List (Operand T P) → List (Record T P) → List (Operand T P) → Prop where
  | nil (known : List (Operand T P)) : Derives known [] known
  | cons {known last : List (Operand T P)} {r : Record T P} {records : List (Record T P)} :
      (∀ x ∈ r.premises, x ∈ known) → Derives (r.learned known) records last →
        Derives known (r :: records) last

namespace Derives

theorem append (h : Derives known records last) (premises : ∀ x ∈ r.premises, x ∈ last) :
    Derives known (records ++ [r]) (r.learned last) := by
  induction h with
  | nil known => exact cons premises (nil _)
  | cons hfirst _ ih => exact cons hfirst (ih premises)

/-- Nothing known is lost and nothing is put before it. -/
theorem isPrefix (h : Derives known records last) : known <+: last := by
  induction h with
  | nil known => exact List.prefix_refl known
  | @cons known last r records _ _ ih => exact (r.prefix_learned known).trans ih

theorem mem_of_mem_operands (h : Derives known records last) (hr : r ∈ records) :
    ∀ x ∈ r.operands, x ∈ last := by
  induction h with
  | nil known => cases hr
  | @cons known last first records hfirst hrest ih =>
    rcases List.mem_cons.mp hr with rfl | hr
    · intro x hx
      apply hrest.isPrefix.subset
      rw [Record.mem_learned]
      rcases Record.mem_operands_iff.mp hx with hdefined | hpremise
      · exact Or.inr hdefined
      · exact Or.inl (hfirst x hpremise)
    · exact ih hr

/-- What is known in the end was known from the start or is what some record defines. -/
theorem mem_iff (h : Derives known records last) {x : Operand T P} :
    x ∈ last ↔ x ∈ known ∨ ∃ r ∈ records, r.defined = some x := by
  induction h with
  | nil known => simp
  | cons _ _ ih =>
    rw [ih, Record.mem_learned]
    simp only [List.mem_cons, exists_eq_or_imp, or_assoc]

end Derives

end Derivation

namespace Session

variable {allowed : LiveRecord → Prop} {model : Model} {seeds given : List Symbol}
  {s s' : Session}

/-- A session that records, after some symbols were answered as seeds. -/
structure Records (model : Model) (allowed : LiveRecord → Prop) (seeds : List Symbol)
    (s : Session) : Prop where
  phase : s.phase ≠ .loading
  lists : ∃ known, s.numbering.Lists known ∧
    Derives (seededWith model seeds) s.ledger.records known
  allowed : ∀ r ∈ s.ledger.records, allowed r

theorem records_of_early (early : s.isLate = false) : s.ledger.records = [] := by
  rw [isLate, Bool.or_eq_false_iff] at early
  simpa [Ledger.isEmpty, Ledger.records] using early.1

theorem records_insert_of_fresh {l : Ledger} {r : LiveRecord} (fresh : l.contains r = false) :
    (l.insert r).2.records = l.records ++ [r] := by
  rw [Ledger.records_insert, fresh]
  rfl

theorem isEmpty_insert_of_fresh {l : Ledger} {r : LiveRecord} (fresh : l.contains r = false) :
    (l.insert r).2.isEmpty = false := by
  simp [Ledger.insert, fresh, Ledger.isEmpty]

theorem Records.forCompile (model : Model) (allowed : LiveRecord → Prop) (config : Config) :
    Records model allowed [] (forCompile model config) where
  phase := by
    intro h
    cases h
  lists := ⟨_, lists_start model config .building, Derives.nil _⟩
  allowed := by
    intro r hr
    cases hr

namespace Records

/-- A record more, which asks for known symbols only. -/
theorem insert {r : LiveRecord} {known : List Symbol} {numbering : Numbering}
    (h : Records model allowed seeds s) (ok : allowed r)
    (derives : Derives (seededWith model seeds) s.ledger.records known)
    (fresh : s.ledger.contains r = false) (premises : ∀ x ∈ r.premises, x ∈ known)
    (lists : numbering.Lists (r.learned known)) :
    Records model allowed seeds
      { s with numbering := numbering, ledger := (s.ledger.insert r).2 } where
  phase := h.phase
  lists := by
    refine ⟨r.learned known, lists, ?_⟩
    rw [records_insert_of_fresh fresh]
    exact derives.append premises
  allowed := by
    intro r' hr'
    rw [records_insert_of_fresh fresh, List.mem_append, List.mem_singleton] at hr'
    rcases hr' with hr' | rfl
    · exact h.allowed r' hr'
    · exact ok

theorem move (h : Records model allowed seeds s) (hmove : Move allowed given s s') :
    Records model allowed (seeds ++ given) s' := by
  obtain ⟨known, lists, derives⟩ := h.lists
  cases hmove with
  | region _ region =>
    rw [List.append_nil]
    exact ⟨h.phase, h.lists, h.allowed⟩
  | @reseed _ x early hx =>
    have hempty := records_of_early early
    rw [hempty] at derives
    cases derives
    refine ⟨h.phase, ⟨_, lists, ?_⟩, h.allowed⟩
    rw [hempty, seededWith_append, learn_of_mem (lists.mem_iff.mpr hx)]
    exact Derives.nil _
  | @seed _ x id _ early new next =>
    have hempty := records_of_early early
    rw [hempty] at derives
    cases derives
    refine ⟨h.phase, ⟨_, lists.issue new next, ?_⟩, h.allowed⟩
    show Derives _ s.ledger.records _
    rw [hempty, seededWith_append, learn_of_not_mem (lists.not_mem_iff.mpr new)]
    exact Derives.nil _
  | @confirm _ r ok _ _ fresh premises hknown =>
    rw [List.append_nil]
    have hlearned : r.learned known = known := by
      rw [Record.learned]
      cases hx : r.defined with
      | none => rfl
      | some x => exact learn_of_mem (lists.mem_iff.mpr (hknown x hx))
    exact h.insert ok derives fresh (fun x hx => lists.mem_iff.mpr (premises x hx))
      (by rw [hlearned]; exact lists)
  | @derive _ r x id ok _ _ fresh premises defined new next =>
    rw [List.append_nil]
    have hlearned : r.learned known = known ++ [x] := by
      rw [Record.learned, defined]
      exact learn_of_not_mem (lists.not_mem_iff.mpr new)
    exact h.insert ok derives fresh (fun x hx => lists.mem_iff.mpr (premises x hx))
      (by rw [hlearned]; exact lists.issue new next)
  | «sealed» phase _ =>
    rw [List.append_nil]
    exact ⟨by simp, h.lists, h.allowed⟩
  | bind phase _ _ => exact absurd phase h.phase
  | validated phase => exact absurd phase h.phase
  | reject phase => exact absurd phase h.phase

/-- Any operations on a new session that compiles leave a session that records. -/
theorem of_run {config : Config} {ops : List Operation} {outcomes : List Outcome}
    (confirmed : ∀ r, model.Confirms r → allowed r)
    (ok : ∀ d, .add d ∈ Operation.atomsAll ops → ∀ r, d.record? model = some r → allowed r)
    (run : performAll model ops (Session.forCompile model config) = (outcomes, s)) :
    Records model allowed (Operation.givenAll ops outcomes) s := by
  have hmoves := performAll_moves model confirmed ops (Session.forCompile model config) ok
  rw [run] at hmoves
  exact hmoves.invariant (fun h hmove => h.move hmove) (Records.forCompile model allowed config)

end Records

end Session

end Provenance
