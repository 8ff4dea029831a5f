import Provenance.Proofs.Replaying
import Provenance.Proofs.Runs

/-!
A replay that fails. It blames the first record that does not hold, and what comes after that
record has no part in the verdict. Nothing that was known before or was bound on the way
remains, the session refuses to go on, and no operation brings anything back.
-/
namespace Provenance

/-- The gate that an operation has to pass, if some phase refuses it. -/
def Operation.gated? : Operation → Option Gated
  | .add d => some (.add d.kind)
  | .seed _ => some .seed
  | .enterRegion => some .enterRegion
  | .guarded _ => some .openGuard
  | .sealRecords => some .seal
  | .validateSymbol .. => some .validateSymbol
  | .validate r => some (.validate r.kind)
  | .validateRecords _ => some .validateRecords
  | .exitRegion | .isValidated _ | .findId _ | .requireId _ | .symbolFor .. | .typeFor ..
  | .procedureFor .. | .contains _ | .records => none

/-- What a lookup answers that finds nothing. -/
def Operation.foundNothing? : Operation → Option Outcome
  | .findId _ => some (.id none)
  | .requireId x => some (.failed (.refused (.invariant (.noId x))))
  | .symbolFor _ _ .optional => some (.symbol none)
  | .typeFor _ .optional => some (.type none)
  | .procedureFor _ .optional => some (.procedure none)
  | .symbolFor id _ .required | .typeFor id .required | .procedureFor id .required =>
    some (.failed (.refused (.invariant (.unboundId id))))
  | .add _ | .seed _ | .enterRegion | .exitRegion | .guarded _ | .isValidated _ | .contains _
  | .records | .sealRecords | .validateSymbol .. | .validate _ | .validateRecords _ => none

namespace Session

variable {model : Model} {r : SealedRecord} {records : List SealedRecord} {index : Nat}
  {s s' : Session} {region : Region}

/-- Lenient and loading: a session in which a replay runs and gives its errors back. -/
structure Replaying (region : Region) (s : Session) : Prop where
  phase : s.phase = .loading
  lenient : s.config.assertionsAreFatal = false
  region : s.region = region

theorem Replaying.of_validate (h : Replaying region s) :
    Replaying region (leaves (validate model r) s) := by
  refine leaves_validate h ?_
  intro _ id x _
  cases x with
  | none => exact h
  | some x => exact ⟨h.phase, h.lenient, h.region⟩

theorem Replaying.violate (h : Replaying region s) (v : Violation) :
    (violate v s : EStateM.Result Failure Session Bool) = .error (.refused (.invariant v)) s := by
  rw [Session.violate, refuse, h.lenient]
  rfl

/-- A record holds, or does not, or has an operand that breaks an invariant. -/
theorem Replaying.validate_cases (h : Replaying region s) (r : SealedRecord) :
    (∃ s', validate model r s = .ok true s' ∧ Replaying region s') ∨
    (∃ s', validate model r s = .ok false s' ∧ Replaying region s') ∨
    ∃ v, validate model r s = .error (.refused (.invariant v)) s := by
  have hleaves : Replaying region (leaves (validate model r) s) := h.of_validate
  cases hfind : model.find s.numbering.symbolOf? r with
  | none =>
    obtain ⟨v, hv⟩ := validate_of_not_find h.phase hfind
    rw [h.violate] at hv
    exact .inr (.inr ⟨v, hv⟩)
  | some finding =>
    have hconclude := validate_of_find h.phase hfind
    cases hv : validate model r s with
    | ok holds s' =>
      rw [leaves_of_ok hv] at hleaves
      cases holds with
      | true => exact .inl ⟨s', rfl, hleaves⟩
      | false => exact .inr (.inl ⟨s', rfl, hleaves⟩)
    | error e s' =>
      rw [hv] at hconclude
      rcases finding with ⟨id, _ | x⟩ | holds <;> cases hconclude

/-- A failed replay ends by forgetting, wherever it fails. -/
theorem Replaying.replay_error {failure : Failure} (h : Replaying region s)
    (hfails : replay model index records s = .error failure s') :
    ∃ between, Replaying region between ∧ s' = between.reject := by
  induction records generalizing index s with
  | nil => cases hfails
  | cons r rest ih =>
    rcases h.validate_cases r with ⟨between, hv, hb⟩ | ⟨between, hv, hb⟩ | ⟨v, hv⟩
    · rw [replay_of_true hv] at hfails
      exact ih hb hfails
    · rw [replay_of_false hv] at hfails
      cases hfails
      exact ⟨between, hb, rfl⟩
    · rw [replay_of_refused hv] at hfails
      cases hfails
      exact ⟨s, h, rfl⟩

/-- The blamed record is the first that does not hold: those before it are accepted from the
same start, and whatever stands behind it the verdict is the same. -/
theorem Replaying.replay_blames {place : Nat} {kind : Kind} (h : Replaying region s)
    (hfails : replay model index records s = .error (.refused (.rejected place kind)) s') :
    ∃ k r, place = index + k ∧ records[k]? = some r ∧ r.kind = kind ∧
      (∃ done, replay model index (records.take k) s = .ok () done) ∧
      ∀ rest, replay model index (records.take (k + 1) ++ rest) s =
        .error (.refused (.rejected place kind)) s' := by
  induction records generalizing index s with
  | nil => cases hfails
  | cons r rest ih =>
    rcases h.validate_cases r with ⟨between, hv, hb⟩ | ⟨between, hv, hb⟩ | ⟨v, hv⟩
    · rw [replay_of_true hv] at hfails
      obtain ⟨k, r', hplace, hr', hkind, ⟨done, hdone⟩, hrest⟩ := ih hb hfails
      refine ⟨k + 1, r', by omega, hr', hkind, ⟨done, ?_⟩, ?_⟩
      · rw [List.take_succ_cons, replay_of_true hv]
        exact hdone
      · intro more
        rw [List.take_succ_cons, List.cons_append, replay_of_true hv]
        exact hrest more
    · rw [replay_of_false hv] at hfails
      cases hfails
      refine ⟨0, r, rfl, rfl, rfl, ⟨_, rfl⟩, ?_⟩
      intro more
      exact replay_of_false hv
    · rw [replay_of_refused hv] at hfails
      cases hfails

/-- A session that has forgotten everything and lets nobody add to it. -/
structure Spent (s : Session) : Prop where
  phase : s.phase = .rejected
  lenient : s.config.assertionsAreFatal = false
  id?_eq : ∀ x, s.numbering.id? x = none
  symbolOf?_eq : ∀ id, s.numbering.symbolOf? id = none

theorem Replaying.reject (h : Replaying region s) : Spent s.reject where
  phase := rfl
  lenient := h.lenient
  id?_eq := Numbering.id?_clear s.numbering
  symbolOf?_eq := Numbering.symbolOf?_clear s.numbering

theorem Spent.gate {α : Type} {g : Gated} {allowed : List Phase} {next : Unit → Action α}
    (h : Spent s) (hallowed : Phase.rejected ∉ allowed) :
    (gate g allowed >>= next) s = .error (.refused (.wrongPhase g .rejected)) s := by
  rw [← h.phase] at hallowed
  have hrefuse : (Session.gate g allowed >>= next) s = refuse (.wrongPhase g s.phase) s :=
    bind_of_error (gate_of_not_mem hallowed)
  rw [hrefuse, refuse, h.lenient, h.phase]
  rfl

theorem Spent.settle_gate {α : Type} {g : Gated} {allowed : List Phase} {next : Unit → Action α}
    {outcome : α → Outcome} (h : Spent s) (hallowed : Phase.rejected ∉ allowed) :
    settle (Session.gate g allowed >>= next) outcome s =
      (.failed (.refused (.wrongPhase g .rejected)), s) := by
  rw [settle, h.gate hallowed]

/-- Whatever has a gate is refused at it. -/
theorem Spent.perform_gated (h : Spent s) {op : Operation} {g : Gated} (hg : op.gated? = some g) :
    perform model op s = (.failed (.refused (.wrongPhase g .rejected)), s) := by
  cases op with
  | exitRegion | isValidated | findId | requireId | symbolFor | typeFor | procedureFor | contains
  | records => cases hg
  | add | seed | enterRegion | sealRecords | validateSymbol | validateRecords =>
    cases hg
    rw [perform]
    exact h.settle_gate (by decide)
  | guarded body =>
    cases hg
    exact perform_guarded_of_error (h.gate (by decide))
  | validate r =>
    cases hg
    rw [perform, validate_eq]
    exact h.settle_gate (by decide)

theorem Spent.settle_violate {α : Type} {action : Action α} {outcome : α → Outcome} {v : Violation}
    (h : Spent s) (hv : action s = violate v s) :
    settle action outcome s = (.failed (.refused (.invariant v)), s) := by
  rw [settle, hv, violate, refuse, h.lenient]
  rfl

theorem Spent.symbolFor_optional (h : Spent s) (id : SymbolId) (expected : Category) :
    symbolFor id expected .optional s = .ok none s := by
  rw [symbolFor, get_bind, h.symbolOf?_eq]
  rfl

theorem Spent.symbolFor_required (h : Spent s) (id : SymbolId) (expected : Category) :
    symbolFor id expected .required s = violate (.unboundId id) s := by
  rw [symbolFor, get_bind, h.symbolOf?_eq]

/-- No lookup finds anything. -/
theorem Spent.perform_lookup (h : Spent s) {op : Operation} {answer : Outcome}
    (hop : op.foundNothing? = some answer) : perform model op s = (answer, s) := by
  cases op with
  | add | seed | enterRegion | exitRegion | guarded | isValidated | contains | records
  | sealRecords | validateSymbol | validate | validateRecords => cases hop
  | findId x =>
    cases hop
    simp only [perform, h.id?_eq]
  | requireId x =>
    cases hop
    have hv : requireId x s = violate (.noId x) s := by
      rw [requireId, get_bind, h.id?_eq]
    rw [perform, h.settle_violate hv]
  | symbolFor id expected presence =>
    cases presence with
    | optional =>
      cases hop
      rw [perform, settle, h.symbolFor_optional]
    | required =>
      cases hop
      rw [perform, h.settle_violate (h.symbolFor_required id expected)]
  | typeFor id presence =>
    cases presence with
    | optional =>
      cases hop
      have hnone : typeFor id .optional s = .ok none s :=
        bind_of_ok (h.symbolFor_optional id .type)
      rw [perform, settle, hnone]
    | required =>
      cases hop
      have hv : typeFor id .required s = violate (.unboundId id) s :=
        bind_of_error (h.symbolFor_required id .type)
      rw [perform, h.settle_violate hv]
  | procedureFor id presence =>
    cases presence with
    | optional =>
      cases hop
      have hnone : procedureFor id .optional s = .ok none s :=
        bind_of_ok (h.symbolFor_optional id .procedure)
      rw [perform, settle, hnone]
    | required =>
      cases hop
      have hv : procedureFor id .required s = violate (.unboundId id) s :=
        bind_of_error (h.symbolFor_required id .procedure)
      rw [perform, h.settle_violate hv]

/-- At most regions were left, of which none is open in a session that loads. -/
def Idles (s s' : Session) : Prop :=
  ∃ region, s' = { s with region := region } ∧ (s.region.isOpen = false → region = s.region)

theorem Idles.refl (s : Session) : Idles s s := ⟨s.region, rfl, fun _ => rfl⟩

theorem Idles.trans {s'' : Session} (h : Idles s s') (h' : Idles s' s'') : Idles s s'' := by
  obtain ⟨region, rfl, hsame⟩ := h
  obtain ⟨region', rfl, hsame'⟩ := h'
  refine ⟨region', rfl, fun hclosed => ?_⟩
  have heq := hsame hclosed
  subst heq
  exact hsame' hclosed

theorem Idles.eq_of_closed (h : Idles s s') (closed : s.region.isOpen = false) : s' = s := by
  obtain ⟨region, rfl, hsame⟩ := h
  rw [hsame closed]

theorem Spent.idles (h : Spent s) (hidles : Idles s s') : Spent s' := by
  obtain ⟨region, rfl, -⟩ := hidles
  exact ⟨h.phase, h.lenient, h.id?_eq, h.symbolOf?_eq⟩

theorem Spent.perform_idles (h : Spent s) (op : Operation) : Idles s (perform model op s).2 := by
  cases hg : op.gated? with
  | some g =>
    rw [h.perform_gated hg]
    exact Idles.refl s
  | none =>
    cases hop : op.foundNothing? with
    | some answer =>
      rw [h.perform_lookup hop]
      exact Idles.refl s
    | none =>
      cases op with
      | add | seed | enterRegion | guarded | sealRecords | validateSymbol | validate
      | validateRecords => cases hg
      | findId | requireId => cases hop
      | symbolFor _ _ presence | typeFor _ presence | procedureFor _ presence =>
        cases presence <;> cases hop
      | isValidated | contains | records => exact Idles.refl s
      | exitRegion =>
        rw [perform, settle_snd, exitRegion, leaves_get_bind]
        cases hexit : s.region.exit? with
        | none => exact Idles.refl s
        | some region =>
          refine ⟨region, rfl, fun hclosed => ?_⟩
          rw [Region.exit?_eq_none.mpr hclosed] at hexit
          cases hexit

theorem Spent.performAll_idles (h : Spent s) (operations : List Operation) :
    Idles s (performAll model operations s).2 := by
  induction operations generalizing s with
  | nil => exact Idles.refl s
  | cons op rest ih =>
    have hfirst : Idles s (perform model op s).2 := h.perform_idles op
    exact hfirst.trans (ih (h.idles hfirst))

/-- A replay that fails in a lenient session leaves nothing behind, for good: no lookup finds
anything, whatever is gated is refused as coming in the wrong phase, and with no region open,
as in every session that loads, nothing is changed any more. If a record is to blame, it is the
one of the kind that is named at the place that is named; the records before it are accepted
from the same start, and any that might follow it make no difference. -/
theorem failed_replay_forgets {failure : Failure} (phase : s.phase = .loading)
    (lenient : s.config.assertionsAreFatal = false)
    (fails : validateRecords model records s = .error failure s') :
    (∀ operations : List Operation, let later := (performAll model operations s').2
      later.phase = .rejected ∧ (∀ x, later.numbering.id? x = none) ∧
      (∀ id, later.numbering.symbolOf? id = none) ∧
      (∀ op answer, op.foundNothing? = some answer → perform model op later = (answer, later)) ∧
      (∀ op g, op.gated? = some g →
        perform model op later = (.failed (.refused (.wrongPhase g .rejected)), later)) ∧
      (s.region.isOpen = false →
        later = s' ∧ ∀ x, perform model (.isValidated x) later = (.flag false, later))) ∧
    ∀ index kind, failure = .refused (.rejected index kind) →
      ∃ r done, records[index]? = some r ∧ r.kind = kind ∧
        validateRecords model (records.take index) s = .ok () done ∧
        ∀ rest, validateRecords model (records.take (index + 1) ++ rest) s = .error failure s' := by
  have replaying : Replaying s.region s := ⟨phase, lenient, rfl⟩
  rw [validateRecords_of_loading phase] at fails
  constructor
  · obtain ⟨between, hbetween, rfl⟩ := replaying.replay_error fails
    have spent := hbetween.reject
    intro operations later
    have idles : Idles between.reject later := spent.performAll_idles operations
    have spent' := spent.idles idles
    refine ⟨spent'.phase, spent'.id?_eq, spent'.symbolOf?_eq,
      fun op answer => spent'.perform_lookup, fun op g => spent'.perform_gated, ?_⟩
    intro closed
    have hclosed : between.reject.region.isOpen = false := by
      rw [← hbetween.region] at closed
      exact closed
    have hsame := idles.eq_of_closed hclosed
    refine ⟨hsame, fun x => ?_⟩
    simp [perform, isValidated, spent.id?_eq, hsame, hclosed]
  · rintro index kind rfl
    obtain ⟨k, r, hplace, hr, hkind, ⟨done, hdone⟩, hrest⟩ := replaying.replay_blames fails
    rw [Nat.zero_add] at hplace
    subst hplace
    refine ⟨r, done, hr, hkind, ?_, fun rest => ?_⟩
    · rw [validateRecords_of_loading phase, hdone]
    · rw [validateRecords_of_loading phase, hrest]

/-- A name that is gone: the record before it holds, and the root type, which had an ID from the
start, has none afterwards. -/
theorem failed_replay_forgets_seeds :
    let model := Model.uniform ⟨0⟩ ⟨1⟩ none none ⟨List.replicate 32 0, rfl⟩
    let s := forLoad model default
    let initialized : SealedRecord := .check (.initialized ⟨1, by decide⟩ false)
    let named : SealedRecord := .type ⟨3, by decide⟩ (.byName ⟨1, by decide⟩ "T")
    s.phase = .loading ∧ s.config.assertionsAreFatal = false ∧
      ∃ s', validateRecords model [initialized, named, initialized] s =
          .error (.refused (.rejected 1 .typeByName)) s' ∧
        perform model (.findId (.type ⟨0⟩)) (performAll model [.exitRegion] s').2 =
          (.id none, (performAll model [.exitRegion] s').2) ∧
        validateRecords model [initialized, named] s =
          .error (.refused (.rejected 1 .typeByName)) s' := by
  intro model s initialized named
  have lists : s.numbering.Lists [.type ⟨0⟩, .type ⟨1⟩] := lists_start model default .loading
  have states : model.find s.numbering.symbolOf? initialized = some (.states true) := by
    rw [lists.symbolOf?_eq_ofList]
    rfl
  have derives : model.find s.numbering.symbolOf? named = some (.derives ⟨3, by decide⟩ none) := by
    rw [lists.symbolOf?_eq_ofList]
    rfl
  have holds : validate model initialized s = .ok true s := validate_of_find rfl states
  have missing : validate model named s = .ok false s := validate_of_find rfl derives
  have fails : validateRecords model [initialized, named, initialized] s =
      .error (.refused (.rejected 1 .typeByName)) s.reject := by
    rw [validateRecords_of_loading rfl, replay_of_true holds, replay_of_false missing]
    rfl
  obtain ⟨forgets, blames⟩ := failed_replay_forgets rfl rfl fails
  obtain ⟨-, -, -, finds, -⟩ := forgets [.exitRegion]
  obtain ⟨r, done, -, -, -, again⟩ := blames 1 .typeByName rfl
  exact ⟨rfl, rfl, s.reject, fails, finds (.findId (.type ⟨0⟩)) _ rfl, again []⟩

end Session

end Provenance
