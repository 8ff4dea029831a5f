import Provenance.Proofs.Confirming
import Provenance.Proofs.Seeding

/-!
What a replay decides. A list of records is justified by an assignment of symbols to IDs
if the assignment keeps what is known, records depend on IDs known before them only, and
the model confirms every record as the assignment reads it. The replay succeeds exactly on
lists that some assignment justifies, and then its table is that assignment, as far as IDs
are known or defined.
-/
namespace Provenance

namespace Assignment

/-- One assignment has all that another has. -/
def Extends (τ σ : Assignment) : Prop := ∀ id x, σ id = some x → τ id = some x

/-- No symbol stands behind two IDs. -/
def Injective (σ : Assignment) : Prop := ∀ i j x, σ i = some x → σ j = some x → i = j

theorem Extends.refl (σ : Assignment) : σ.Extends σ := fun _ _ h => h

theorem Extends.trans {σ τ υ : Assignment} (h : τ.Extends σ) (h' : υ.Extends τ) :
    υ.Extends σ := fun id x hx => h' id x (h id x hx)

theorem Extends.eq_of_isSome {σ τ : Assignment} (h : τ.Extends σ) {id : SymbolId}
    (hid : (σ id).isSome) : σ id = τ id := by
  obtain ⟨x, hx⟩ := Option.isSome_iff_exists.mp hid
  rw [hx, h id x hx]

/-- The IDs from one on stand for the symbols of a list. -/
def ofList (xs : List Symbol) : Assignment := fun id => xs[id.toNat - 1]?

theorem ofList_injective {xs : List Symbol} (nodup : xs.Nodup) : (ofList xs).Injective := by
  intro i j x hi hj
  have hlt := (List.getElem?_eq_some_iff.mp hi).1
  have heq := (List.getElem?_inj hlt nodup).mp (hi.trans hj.symm)
  have hipos := i.toNat_pos
  have hjpos := j.toNat_pos
  exact SymbolId.toNat_inj.mp (by omega)

theorem ofList_extends {xs ys : List Symbol} (front : xs <+: ys) :
    (ofList ys).Extends (ofList xs) := by
  intro id x hx
  exact getElem?_of_front front hx

end Assignment

theorem Numbering.Lists.symbolOf?_eq_ofList {n : Numbering} {xs : List Symbol}
    (h : n.Lists xs) : n.symbolOf? = Assignment.ofList xs := funext h.symbolOf?_eq

/-- Whether a record defines an ID. -/
def Record.Defines (r : SealedRecord) (id : SymbolId) : Prop :=
  ∃ x, r.defined = some x ∧ x.symbolId = id

/-- Every record depends only on IDs that are bound at first or defined before it. -/
def Grounded (bound : SymbolId → Prop) : List SealedRecord → Prop
  | [] => True
  | r :: rest =>
    (∀ x ∈ r.premises, bound x.symbolId) ∧ Grounded (fun id => bound id ∨ r.Defines id) rest

/-- The IDs that are known at first or defined by some record. -/
def Covered (known : Assignment) (records : List SealedRecord) (id : SymbolId) : Prop :=
  (known id).isSome ∨ ∃ r ∈ records, r.Defines id

/-- An assignment that makes sense of a list of records, on top of what is known. As the
model confirms each record under it, every operand stands for a symbol of the category that
its place demands, every rule leads to the symbol of the ID it defines, and checks hold. -/
structure Justifies (model : Model) (known : Assignment) (records : List SealedRecord)
    (σ : Assignment) : Prop where
  injective : σ.Injective
  keeps : σ.Extends known
  grounded : Grounded (fun id => (known id).isSome) records
  confirmed : ∀ r ∈ records, ∃ live, r.under σ = some live ∧ model.Confirms live

variable {model : Model} {σ known : Assignment} {r : SealedRecord} {records : List SealedRecord}

theorem Grounded.congr {bound bound' : SymbolId → Prop} (h : ∀ id, bound id ↔ bound' id) :
    Grounded bound records ↔ Grounded bound' records := by
  rw [funext fun id => propext (h id)]

theorem Grounded.take {bound : SymbolId → Prop} (h : Grounded bound records) (n : Nat) :
    Grounded bound (records.take n) := by
  induction n generalizing bound records with
  | zero => trivial
  | succ n ih =>
    cases records with
    | nil => trivial
    | cons r rest => exact ⟨h.1, ih h.2⟩

theorem Covered.cons {id : SymbolId} :
    Covered known (r :: records) id ↔
      ((known id).isSome ∨ r.Defines id) ∨ ∃ r' ∈ records, r'.Defines id := by
  simp only [Covered, List.mem_cons, exists_eq_or_imp, or_assoc]

namespace Finding

/-- Whether the finding is about an ID. -/
def Concerns (id : SymbolId) : Finding → Prop
  | derives other _ => other = id
  | states _ => False

theorem Fits.mono {finding : Finding} {σ τ : Assignment} (h : finding.Fits σ)
    (keeps : τ.Extends σ) : finding.Fits τ := by
  cases finding with
  | states holds => exact h
  | derives id x =>
    obtain ⟨hsome, hid⟩ := h
    obtain ⟨x, rfl⟩ := Option.isSome_iff_exists.mp hsome
    exact ⟨rfl, keeps id x hid⟩

end Finding

theorem Model.bound_of_find {finding : Finding} (h : model.find σ r = some finding) :
    ∀ x ∈ r.premises, (σ x.symbolId).isSome := by
  intro x hx
  obtain ⟨y, hy, _⟩ := Model.premises_of_find (by rw [h]; rfl) x hx
  exact Option.isSome_iff_exists.mpr ⟨y, hy⟩

/-- A finding is about the ID that the record defines. -/
theorem Model.defines_iff {finding : Finding} (h : model.find σ r = some finding)
    (id : SymbolId) : r.Defines id ↔ finding.Concerns id := by
  cases r with
  | type other rule =>
    obtain ⟨rule', _, hfinding⟩ := Option.bind_eq_some_iff.mp h
    cases hfinding
    simp [Record.Defines, Record.defined, Operand.symbolId, Finding.Concerns]
  | procedure other rule =>
    obtain ⟨rule', _, hfinding⟩ := Option.bind_eq_some_iff.mp h
    cases hfinding
    simp [Record.Defines, Record.defined, Operand.symbolId, Finding.Concerns]
  | check c =>
    obtain ⟨c', _, hfinding⟩ := Option.bind_eq_some_iff.mp h
    cases hfinding
    simp [Record.Defines, Record.defined, Finding.Concerns]

namespace Session

variable {s s' : Session} {finding : Finding}

/-- What one accepted record does to the table. -/
structure Accepts (s s' : Session) (finding : Finding) : Prop where
  eq : s' = { s with numbering := s'.numbering }
  isBijection : s.numbering.IsBijection → s'.numbering.IsBijection
  keeps : Assignment.Extends s'.numbering.symbolOf? s.numbering.symbolOf?
  fits : finding.Fits s'.numbering.symbolOf?
  bound : ∀ id, (s'.numbering.symbolOf? id).isSome ↔
    (s.numbering.symbolOf? id).isSome ∨ finding.Concerns id

theorem accepts_of_bound {id : SymbolId} {x : Symbol} (h : s.numbering.symbolOf? id = some x) :
    Accepts s s (.derives id (some x)) where
  eq := rfl
  isBijection h := h
  keeps := Assignment.Extends.refl _
  fits := ⟨rfl, h⟩
  bound other := by
    constructor
    · exact Or.inl
    · rintro (hbound | rfl)
      · exact hbound
      · rw [h]
        rfl

theorem accepts_of_free {id : SymbolId} {x : Symbol} (hid : s.numbering.symbolOf? id = none)
    (hx : s.numbering.id? x = none) :
    Accepts s { s with numbering := s.numbering.assign x id } (.derives id (some x)) where
  eq := rfl
  isBijection bijection := bijection.assign hx hid
  keeps := by
    intro other y hy
    have hne : id ≠ other := by
      rintro rfl
      rw [hid] at hy
      cases hy
    rw [Numbering.symbolOf?_assign, if_neg hne]
    exact hy
  fits := by
    refine ⟨rfl, ?_⟩
    rw [Numbering.symbolOf?_assign, if_pos rfl]
  bound other := by
    simp only [Numbering.symbolOf?_assign, Finding.Concerns]
    by_cases h : id = other
    · simp [h]
    · simp [h]

/-- A conclusion drawn with success binds what was found and nothing else. -/
theorem accepts_of_conclude (h : conclude finding s = .ok true s') : Accepts s s' finding := by
  cases finding with
  | states holds =>
    cases h
    exact ⟨rfl, id, Assignment.Extends.refl _, rfl, by simp [Finding.Concerns]⟩
  | derives id x =>
    cases x with
    | none => cases h
    | some x =>
      have hbind : (EStateM.Result.ok (decide ((s.numbering.bind id x).1 ≠ .conflict))
          { s with numbering := (s.numbering.bind id x).2 } :
            EStateM.Result Failure Session Bool) = .ok true s' := h
      injection hbind with hdone hs'
      subst hs'
      rcases Numbering.bind_cases (of_decide_eq_true hdone) with ⟨hbound, hsame⟩ | ⟨hid, hx, hnew⟩
      · rw [hsame]
        exact accepts_of_bound hbound
      · rw [hnew]
        exact accepts_of_free hid hx

/-- What an assignment has that keeps the table can be concluded without a conflict. -/
theorem conclude_of_fits (bijection : s.numbering.IsBijection) (injective : σ.Injective)
    (keeps : σ.Extends s.numbering.symbolOf?) (fits : finding.Fits σ) :
    ∃ s', conclude finding s = .ok true s' ∧ σ.Extends s'.numbering.symbolOf? := by
  cases finding with
  | states holds =>
    have hholds : holds = true := fits
    rw [hholds]
    exact ⟨s, rfl, keeps⟩
  | derives id x =>
    obtain ⟨hsome, hid⟩ := fits
    obtain ⟨x, rfl⟩ := Option.isSome_iff_exists.mp hsome
    have hconclude (binding : Binding) (numbering : Numbering) (ok : binding ≠ .conflict)
        (h : s.numbering.bind id x = (binding, numbering)) :
        conclude (.derives id (some x)) s = .ok true { s with numbering := numbering } := by
      show EStateM.Result.ok (decide ((s.numbering.bind id x).1 ≠ .conflict))
        { s with numbering := (s.numbering.bind id x).2 } = _
      rw [h, decide_eq_true ok]
    cases hbound : s.numbering.symbolOf? id with
    | some y =>
      have hy : y = x := by
        have hσ := keeps id y hbound
        rw [hid] at hσ
        exact (Option.some.inj hσ).symm
      subst hy
      exact ⟨s, hconclude _ _ (by decide) (Numbering.bind_of_bound hbound), keeps⟩
    | none =>
      -- Were the symbol bound to another ID, the assignment would have it twice.
      have hfree : s.numbering.id? x = none := by
        cases hx : s.numbering.id? x with
        | none => rfl
        | some other =>
          have hother := (bijection x other).mp hx
          have heq := injective other id x (keeps other x hother) hid
          rw [heq, hbound] at hother
          cases hother
      refine ⟨_, hconclude _ _ (by decide) (Numbering.bind_of_free hbound hfree), ?_⟩
      intro other y hy
      rw [Numbering.symbolOf?_assign] at hy
      by_cases ho : id = other
      · rw [if_pos ho] at hy
        rw [← ho, hid, hy]
      · rw [if_neg ho] at hy
        exact keeps other y hy

theorem accepts_of_validate (phase : s.phase = .loading) (h : validate model r s = .ok true s') :
    ∃ finding, model.find s.numbering.symbolOf? r = some finding ∧ Accepts s s' finding := by
  cases hfind : model.find s.numbering.symbolOf? r with
  | none =>
    obtain ⟨e, he⟩ := validate_of_not_find phase hfind
    rw [he] at h
    cases h
  | some finding =>
    rw [validate_of_find phase hfind] at h
    exact ⟨finding, rfl, accepts_of_conclude h⟩

theorem validate_of_confirmed (phase : s.phase = .loading)
    (bijection : s.numbering.IsBijection) (injective : σ.Injective)
    (keeps : σ.Extends s.numbering.symbolOf?)
    (bound : ∀ x ∈ r.premises, (s.numbering.symbolOf? x.symbolId).isSome)
    (confirmed : ∃ live, r.under σ = some live ∧ model.Confirms live) :
    ∃ s', validate model r s = .ok true s' ∧ σ.Extends s'.numbering.symbolOf? := by
  obtain ⟨finding, hfind, hfits⟩ := Model.confirms_under_iff.mp confirmed
  rw [← Model.find_congr fun x hx => keeps.eq_of_isSome (bound x hx)] at hfind
  rw [validate_of_find phase hfind]
  exact conclude_of_fits bijection injective keeps hfits

/-- What a replay that succeeds does to the table: it keeps what was known, binds what records
define and nothing else, and under it the model confirms every record. -/
structure Replayed (model : Model) (records : List SealedRecord) (s s' : Session) : Prop where
  eq : s' = { s with numbering := s'.numbering, phase := .validated }
  isBijection : s.numbering.IsBijection → s'.numbering.IsBijection
  keeps : Assignment.Extends s'.numbering.symbolOf? s.numbering.symbolOf?
  grounded : Grounded (fun id => (s.numbering.symbolOf? id).isSome) records
  confirmed : ∀ r ∈ records, ∃ live,
    r.under s'.numbering.symbolOf? = some live ∧ model.Confirms live
  bound : ∀ id, (s'.numbering.symbolOf? id).isSome ↔ Covered s.numbering.symbolOf? records id

theorem Replayed.nil (model : Model) (s : Session) :
    Replayed model [] s { s with phase := .validated } where
  eq := rfl
  isBijection := id
  keeps := Assignment.Extends.refl _
  grounded := trivial
  confirmed r hr := by cases hr
  bound id := by simp [Covered]

/-- One record accepted and then the others replayed. -/
theorem Replayed.cons {s₁ : Session} (accepts : Accepts s s₁ finding)
    (hfind : model.find s.numbering.symbolOf? r = some finding)
    (h : Replayed model records s₁ s') : Replayed model (r :: records) s s' where
  eq := by rw [h.eq, accepts.eq]
  isBijection bijection := h.isBijection (accepts.isBijection bijection)
  keeps := accepts.keeps.trans h.keeps
  grounded := by
    refine ⟨Model.bound_of_find hfind, (Grounded.congr ?_).mp h.grounded⟩
    intro id
    rw [accepts.bound, Model.defines_iff hfind]
  confirmed r' hr' := by
    rcases List.mem_cons.mp hr' with rfl | hr'
    · have keeps := accepts.keeps.trans h.keeps
      refine Model.confirms_under_iff.mpr ⟨finding, ?_, accepts.fits.mono h.keeps⟩
      rw [← hfind]
      exact (Model.find_congr fun x hx =>
        keeps.eq_of_isSome (Model.bound_of_find hfind x hx)).symm
    · exact h.confirmed r' hr'
  bound id := by rw [h.bound, Covered.cons, Covered, accepts.bound, Model.defines_iff hfind]

theorem replayed_of_replay {index : Nat} (phase : s.phase = .loading)
    (h : replay model index records s = .ok () s') : Replayed model records s s' := by
  induction records generalizing index s with
  | nil =>
    cases h
    exact .nil model s
  | cons r rest ih =>
    cases hv : validate model r s with
    | error e s₁ =>
      cases e with
      | refused e => rw [replay_of_refused hv] at h; cases h
      | fatal e => rw [replay_of_fatal hv] at h; cases h
    | ok holds s₁ =>
      cases holds with
      | false => rw [replay_of_false hv] at h; cases h
      | true =>
        rw [replay_of_true hv] at h
        obtain ⟨finding, hfind, accepts⟩ := accepts_of_validate phase hv
        have phase₁ : s₁.phase = .loading := by rw [accepts.eq, ← phase]
        exact .cons accepts hfind (ih phase₁ h)

/-- A replay that succeeds leaves a table that justifies the list. -/
theorem justifies_of_replay {index : Nat} (phase : s.phase = .loading)
    (bijection : s.numbering.IsBijection) (h : replay model index records s = .ok () s') :
    Justifies model s.numbering.symbolOf? records s'.numbering.symbolOf? ∧
      s'.numbering.IsBijection ∧ s' = { s with numbering := s'.numbering, phase := .validated } ∧
      ∀ id, (s'.numbering.symbolOf? id).isSome ↔ Covered s.numbering.symbolOf? records id := by
  have replayed := replayed_of_replay phase h
  have bijection' := replayed.isBijection bijection
  refine ⟨⟨?_, replayed.keeps, replayed.grounded, replayed.confirmed⟩, bijection', replayed.eq,
    replayed.bound⟩
  intro i j x hi hj
  rw [← Option.some_inj, ← (bijection' x i).mpr hi, ← (bijection' x j).mpr hj]

/-- A replay of a justified list succeeds. -/
theorem replay_of_justifies {index : Nat} (phase : s.phase = .loading)
    (bijection : s.numbering.IsBijection)
    (h : Justifies model s.numbering.symbolOf? records σ) :
    ∃ s', replay model index records s = .ok () s' ∧ σ.Extends s'.numbering.symbolOf? := by
  induction records generalizing index s with
  | nil => exact ⟨_, rfl, h.keeps⟩
  | cons r rest ih =>
    obtain ⟨bound, hgrounded⟩ := h.grounded
    obtain ⟨s₁, hv, keeps⟩ := validate_of_confirmed phase bijection h.injective h.keeps bound
      (h.confirmed r List.mem_cons_self)
    obtain ⟨finding, hfind, accepts⟩ := accepts_of_validate phase hv
    have phase₁ : s₁.phase = .loading := by rw [accepts.eq, ← phase]
    rw [replay_of_true hv]
    refine ih phase₁ (accepts.isBijection bijection) ⟨h.injective, keeps, ?_, ?_⟩
    · refine (Grounded.congr ?_).mp hgrounded
      intro id
      rw [accepts.bound, Model.defines_iff hfind]
    · intro r' hr'
      exact h.confirmed r' (List.mem_cons_of_mem r hr')

theorem validateRecords_of_loading (phase : s.phase = .loading) :
    validateRecords model records s = replay model 0 records s := by
  rw [validateRecords, bind_of_ok (gate_of_mem (by simp [phase]))]

theorem replayed_of_validateRecords (h : validateRecords model records s = .ok () s') :
    Replayed model records s s' := by
  by_cases phase : s.phase = .loading
  · rw [validateRecords_of_loading phase] at h
    exact replayed_of_replay phase h
  · have hnot : s.phase ∉ [Phase.loading] := by simpa using phase
    rw [validateRecords, bind_of_error (gate_of_not_mem hnot)] at h
    cases h

/-- A list of records is accepted exactly if some assignment justifies it. Every assignment
that does agrees with the final table where an ID is known or defined, and the table has
nothing else. -/
theorem replays_iff_justified (phase : s.phase = .loading)
    (bijection : s.numbering.IsBijection) :
    ((∃ s', validateRecords model records s = .ok () s') ↔
      ∃ σ, Justifies model s.numbering.symbolOf? records σ) ∧
    ∀ s' σ, validateRecords model records s = .ok () s' →
      Justifies model s.numbering.symbolOf? records σ →
        s'.numbering.IsBijection ∧
        s' = { s with numbering := s'.numbering, phase := .validated } ∧
        ∀ id, (Covered s.numbering.symbolOf? records id → s'.numbering.symbolOf? id = σ id) ∧
          (¬ Covered s.numbering.symbolOf? records id → s'.numbering.symbolOf? id = none) := by
  rw [validateRecords_of_loading phase]
  constructor
  · constructor
    · rintro ⟨s', h⟩
      exact ⟨_, (justifies_of_replay phase bijection h).1⟩
    · rintro ⟨σ, h⟩
      obtain ⟨s', hs', _⟩ := replay_of_justifies phase bijection h
      exact ⟨s', hs'⟩
  · intro s' σ h hσ
    obtain ⟨_, bijection', heq, hcovered⟩ := justifies_of_replay phase bijection h
    obtain ⟨s'', hs'', keeps⟩ := replay_of_justifies phase bijection hσ
    rw [h] at hs''
    cases hs''
    refine ⟨bijection', heq, ?_⟩
    intro id
    constructor
    · intro hid
      exact keeps.eq_of_isSome ((hcovered id).mpr hid)
    · intro hid
      rw [← Option.not_isSome_iff_eq_none, hcovered]
      exact hid

theorem replays_iff_justified_by_name :
    let model := Model.uniform ⟨0⟩ ⟨1⟩ (some ⟨2⟩) none ⟨List.replicate 32 0, rfl⟩
    let s := forLoad model default
    let records : List SealedRecord := [.type ⟨3, by decide⟩ (.byName ⟨1, by decide⟩ "T")]
    s.phase = .loading ∧ s.numbering.IsBijection ∧
      ∃ s', validateRecords model records s = .ok () s' := by
  intro model s records
  have lists : s.numbering.Lists [.type ⟨0⟩, .type ⟨1⟩] := lists_start model default .loading
  have keeps : (Assignment.ofList [.type ⟨0⟩, .type ⟨1⟩, .type ⟨2⟩]).Extends
      s.numbering.symbolOf? := by
    rw [lists.symbolOf?_eq_ofList]
    exact Assignment.ofList_extends ⟨[.type ⟨2⟩], rfl⟩
  refine ⟨rfl, lists.isBijection,
    (replays_iff_justified rfl lists.isBijection).1.mpr ⟨_, ?_, keeps, ?_, ?_⟩⟩
  · exact Assignment.ofList_injective (by decide)
  · rw [lists.symbolOf?_eq_ofList]
    refine ⟨?_, trivial⟩
    intro x hx
    rw [Record.premises_type] at hx
    cases List.mem_singleton.mp hx
    rfl
  · intro r hr
    cases List.mem_singleton.mp hr
    exact ⟨.type ⟨2⟩ (.byName ⟨0⟩ "T"), rfl, rfl⟩

end Session

end Provenance
