import Provenance.Proofs.Regions
import Provenance.Proofs.Strictness

/-!
Regions of their own. Whatever is done in one, the number of open regions is in the end what it
was. Inside, a region stays open for as long as no exit leads out of all of them and no more are
entered than can be counted, and with nothing recorded and nothing sealed outside of a region
nothing else changes either, apart from what seeds take.
-/
namespace Provenance

namespace Operation

/-- Operations that make or close the list of records. -/
def commits : Operation → Bool
  | .add _ | .sealRecords => true
  | _ => false

mutual

/-- How many regions an operation leaves open, if it never leaves the last one and never enters
one more than can be counted. -/
def depthAfter : Operation → Nat → Option Nat
  | .enterRegion, depth => if depth + 1 < UInt32.size then some (depth + 1) else none
  | .exitRegion, depth => if 1 < depth then some (depth - 1) else none
  | .guarded body, depth =>
    if depth + 1 < UInt32.size then (depthAfterAll body (depth + 1)).map fun _ => depth else none
  | _, depth => some depth

def depthAfterAll : List Operation → Nat → Option Nat
  | [], depth => some depth
  | op :: rest, depth => (depthAfter op depth).bind (depthAfterAll rest)

end

end Operation

namespace Session

variable {model : Model} {s t : Session} {op : Operation} {ops : List Operation}

/-- The number of open regions, if any is. -/
def openDepth? (s : Session) : Option Nat :=
  if s.region.isOpen then some s.region.depth else none

theorem isSome_openDepth? : s.openDepth?.isSome ↔ s.region.isOpen = true := by
  rw [openDepth?]
  split <;> simp_all

theorem openDepth?_of_open (inside : s.region.isOpen = true) :
    s.openDepth? = some s.region.depth := if_pos inside

theorem openDepth?_eq_some {depth : Nat} :
    s.openDepth? = some depth ↔ s.region.isOpen = true ∧ s.region.depth = depth := by
  rw [openDepth?]
  split <;> simp_all

theorem openDepth?_entered (s : Session) : s.entered.openDepth? =
    if s.region.depth + 1 < UInt32.size then some (s.region.depth + 1) else none := by
  by_cases room : s.region.depth + 1 < UInt32.size
  · rw [if_pos room, openDepth?_of_open (s.region.isOpen_enter.mpr room)]
    exact congrArg some (Region.depth_enter_of_lt room)
  · rw [if_neg room]
    exact if_neg (mt s.region.isOpen_enter.mp room)

theorem openDepth?_exited {s' : Session} (inside : s.region.isOpen = true)
    (exited : s'.region = ⟨s.region.count - 1⟩) :
    s'.openDepth? = if 1 < s.region.depth then some (s.region.depth - 1) else none := by
  have hdepth : s'.region.depth = s.region.depth - 1 := by rw [exited, Region.depth_pred inside]
  by_cases deep : 1 < s.region.depth
  · rw [if_pos deep, openDepth?_of_open (Region.isOpen_iff.mpr (by omega)), hdepth]
  · rw [if_neg deep]
    exact if_neg (mt Region.isOpen_iff.mp (by omega))

theorem openDepth?_of_region {s' : Session} (same : s'.region = s.region) :
    s'.openDepth? = s.openDepth? := by
  rw [openDepth?, openDepth?, same]

theorem depthAfter_guarded (s : Session) (body : List Operation) :
    (Operation.guarded body).depthAfter s.region.depth =
      if s.entered.region.isOpen then
        (Operation.depthAfterAll body s.entered.region.depth).map fun _ => s.region.depth
      else none := by
  rw [Operation.depthAfter]
  by_cases room : s.region.depth + 1 < UInt32.size
  · have hopen : s.entered.region.isOpen = true := s.region.isOpen_enter.mpr room
    have hdepth : s.entered.region.depth = s.region.depth + 1 := Region.depth_enter_of_lt room
    rw [if_pos room, if_pos hopen, hdepth]
  · have shut : ¬s.entered.region.isOpen = true := mt s.region.isOpen_enter.mp room
    rw [if_neg room, if_neg shut]

/-- In a region, what an operation other than a region of its own leaves open. -/
theorem depthAfter_of_plain (model : Model) (building : s.phase = .building)
    (inside : s.region.isOpen = true) (plain : ∀ body, op ≠ .guarded body) :
    op.depthAfter s.region.depth = (perform model op s).2.openDepth? := by
  have unmoved (same : (perform model op s).2.region = s.region) :
      some s.region.depth = (perform model op s).2.openDepth? := by
    rw [openDepth?_of_region same, openDepth?_of_open inside]
  cases op with
  | guarded body => exact absurd rfl (plain body)
  | enterRegion =>
    rw [perform_enterRegion model building, Operation.depthAfter]
    exact (openDepth?_entered s).symm
  | exitRegion =>
    have exited : (perform model .exitRegion s).2.region = ⟨s.region.count - 1⟩ := by
      rw [perform, settle_snd, exitRegion, leaves_get_bind, Region.exit?_of_isOpen inside]
      rfl
    rw [Operation.depthAfter, openDepth?_exited inside exited]
  | sealRecords =>
    refine unmoved ?_
    rw [perform, settle_snd]
    rcases sealRecords_cases s with ⟨records, -, -, hok⟩ | ⟨e, he⟩
    · rw [leaves_of_ok hok]
    · rw [leaves_of_error he]
  | validateRecords =>
    exact unmoved (by rw [perform_validation_of_not_loading model rfl (by simp [building])])
  | _ => exact unmoved (steady_perform model rfl s).region

/-- With a region open, sealing fails like anything that belongs to another phase. -/
theorem phase_of_open (model : Model) (building : s.phase = .building)
    (inside : s.region.isOpen = true) (plain : ∀ body, op ≠ .guarded body) :
    (perform model op s).2.phase = .building := by
  cases op with
  | guarded body => exact absurd rfl (plain body)
  | seed x => rw [(steady_perform model rfl s).phase, building]
  | _ =>
    rw [perform_of_open model building inside plain (by rintro _ ⟨⟩)]
    exact building

/-- Where operations are issued in a region: whether every session they pass is in one, and
how many are open in the end. -/
structure Nests (trace : List (Event × Session)) (after : Option Nat) (left : Session) : Prop where
  isSome_iff : (∀ event ∈ trace, event.2.region.isOpen = true) ↔ after.isSome
  left_of_some : ∀ depth, after = some depth → left.phase = .building ∧ left.openDepth? = some depth

mutual

theorem nests_perform (model : Model) (op : Operation) {s : Session}
    (building : s.phase = .building) (inside : s.region.isOpen = true) :
    Nests (events model op s) (op.depthAfter s.region.depth) (perform model op s).2 := by
  cases op with
  | guarded body =>
    rw [events_guarded_of_ok (openGuard_of_building building), depthAfter_guarded, perform_guarded,
      if_pos building]
    by_cases entered : s.entered.region.isOpen = true
    · have nests := nests_performAll model body (s := s.entered) building entered
      have closed : (closing s.entered.region.count (performAll model body s.entered).2).2.region =
          s.region := by
        rw [closing_snd, leaves_closeGuard]
        exact congrArg Region.mk s.region.count_enter_sub_one
      rw [if_pos entered]
      constructor
      · rw [Option.isSome_map, ← nests.isSome_iff, List.forall_mem_append, List.forall_mem_cons]
        simp [closed, inside, entered]
      · intro depth h
        obtain ⟨depth', hbody, rfl⟩ := Option.map_eq_some_iff.mp h
        exact ⟨(nests.left_of_some depth' hbody).1, openDepth?_of_open inside⟩
    · rw [if_neg entered]
      exact ⟨by simp [entered], fun _ h => by cases h⟩
  | _ =>
    rw [depthAfter_of_plain model building inside (by rintro _ ⟨⟩),
      events_of_plain (by rintro _ ⟨⟩)]
    exact ⟨by simp [isSome_openDepth?],
      fun depth h => ⟨phase_of_open model building inside (by rintro _ ⟨⟩), h⟩⟩

theorem nests_performAll (model : Model) (ops : List Operation) {s : Session}
    (building : s.phase = .building) (inside : s.region.isOpen = true) :
    Nests (eventsAll model ops s) (Operation.depthAfterAll ops s.region.depth)
      (performAll model ops s).2 := by
  cases ops with
  | nil => exact ⟨by simp [eventsAll, Operation.depthAfterAll],
      fun depth h => ⟨building, (openDepth?_of_open inside).trans h⟩⟩
  | cons op rest =>
    have first := nests_perform model op building inside
    rw [eventsAll, performAll_cons, Operation.depthAfterAll]
    cases hdepth : op.depthAfter s.region.depth with
    | none =>
      rw [hdepth] at first
      refine ⟨?_, fun _ h => by cases h⟩
      rw [List.forall_mem_append, first.isSome_iff]
      simp
    | some depth =>
      rw [hdepth] at first
      obtain ⟨building', hdepth'⟩ := first.left_of_some depth rfl
      obtain ⟨inside', rfl⟩ := openDepth?_eq_some.mp hdepth'
      have later := nests_performAll model rest building' inside'
      refine ⟨?_, later.left_of_some⟩
      rw [List.forall_mem_append, first.isSome_iff, later.isSome_iff]
      simp

end

/-- No seed that is issued gives its symbol an ID that it did not have: it comes too late, or its
symbol has one, or none is left. -/
def SeedsIdle (model : Model) (issued : List (Operation × Session)) : Prop :=
  ∀ x t, (.seed x, t) ∈ issued →
    (perform model (.seed x) t).2.numbering.id? x = t.numbering.id? x

/-- Nothing but the number of open regions is different, and what seeds change unless they are
idle. -/
structure Untouched (idle : Prop) (s t : Session) : Prop where
  apart : t = { s with region := t.region, numbering := t.numbering, seeded := t.seeded }
  same : idle → t = { s with region := t.region }

theorem perform_seed_of_known {x : Symbol} (known : (s.numbering.id? x).isSome) :
    (perform model (.seed x) s).2 = s := by
  rw [perform, settle_snd]
  rcases leaves_seed_cases x s with heq | ⟨id, new, -⟩
  · exact heq
  · rw [new] at known
    cases known

theorem perform_seed_of_idle {x : Symbol}
    (idle : (perform model (.seed x) s).2.numbering.id? x = s.numbering.id? x) :
    (perform model (.seed x) s).2 = s := by
  rw [perform, settle_snd] at idle ⊢
  rcases leaves_seed_cases x s with heq | ⟨id, new, heq⟩
  · exact heq
  · rw [heq, new, Numbering.id?_issue, Numbering.id?_assign, if_pos rfl] at idle
    cases idle

/-- Reports and sealing apart, nothing but seeds changes more than the number of open regions, and
in a region these do not either. -/
theorem perform_of_sheltered (model : Model) (building : s.phase = .building)
    (plain : ∀ body, op ≠ .guarded body) (seedless : ∀ x, op ≠ .seed x)
    (sheltered : op.commits = true → s.region.isOpen = true) :
    (perform model op s).2 = { s with region := (perform model op s).2.region } := by
  have still (h : (perform model op s).2 = s) :
      (perform model op s).2 = { s with region := (perform model op s).2.region } := by
    rw [h]
  cases op with
  | guarded body => exact absurd rfl (plain body)
  | seed x => exact absurd rfl (seedless x)
  | add | sealRecords => exact perform_of_open model building (sheltered rfl) plain seedless
  | enterRegion =>
    rw [perform_enterRegion model building]
    rfl
  | exitRegion =>
    rw [perform, settle_snd, exitRegion, leaves_get_bind]
    cases s.region.exit? <;> rfl
  | validateSymbol | validate | validateRecords =>
    exact still (perform_validation_of_not_loading model rfl (by simp [building]))
  | _ => exact still (perform_question model rfl s)

namespace Untouched

variable {idle : Prop}

theorem refl (idle : Prop) (s : Session) : Untouched idle s s := ⟨rfl, fun _ => rfl⟩

theorem phase_eq (h : Untouched idle s t) : t.phase = s.phase := by rw [h.apart]

theorem ledger_eq (h : Untouched idle s t) : t.ledger = s.ledger := by rw [h.apart]

theorem withRegion (h : Untouched idle s t) (region : Region) :
    Untouched idle s { t with region := region } where
  apart := by rw [h.apart]
  same hidle := by rw [h.same hidle]

theorem seed (model : Model) {x : Symbol} (h : Untouched idle s t)
    (keeps : idle → (Session.perform model (.seed x) t).2.numbering.id? x = t.numbering.id? x) :
    Untouched idle s (perform model (.seed x) t).2 := by
  constructor
  · rw [perform, settle_snd]
    rcases leaves_seed_cases x t with heq | ⟨id, -, heq⟩
    · rw [heq]
      exact h.apart
    · rw [heq, h.apart]
  · intro hidle
    rw [perform_seed_of_idle (keeps hidle)]
    exact h.same hidle

theorem of_plain (model : Model) (building : s.phase = .building) (h : Untouched idle s t)
    (plain : ∀ body, op ≠ .guarded body) (seedsIdle : idle → SeedsIdle model (issued model op t))
    (sheltered : op.commits = true → t.region.isOpen = true) :
    Untouched idle s (perform model op t).2 := by
  by_cases hseed : ∃ x, op = .seed x
  · obtain ⟨x, rfl⟩ := hseed
    exact h.seed model fun hidle =>
      seedsIdle hidle x t ((mem_issued_of_plain plain).mpr ⟨rfl, rfl⟩)
  · rw [perform_of_sheltered model (h.phase_eq.trans building) plain
      (fun x hx => hseed ⟨x, hx⟩) sheltered]
    exact h.withRegion _

mutual

theorem perform (model : Model) (building : s.phase = .building) (op : Operation) {t : Session}
    (h : Untouched idle s t) (seedsIdle : idle → SeedsIdle model (issued model op t))
    (sheltered : ∀ op' u, (op', u) ∈ issued model op t → op'.commits = true →
      u.region.isOpen = true) : Untouched idle s (perform model op t).2 := by
  cases op with
  | guarded body =>
    have building' := h.phase_eq.trans building
    have within {op : Operation} {u : Session} (hu : (op, u) ∈ issuedAll model body t.entered) :
        (op, u) ∈ issued model (.guarded body) t := mem_issued_guarded.mpr (.inr ⟨building', hu⟩)
    rw [perform_guarded, if_pos building']
    refine withRegion (performAll model building body (h.withRegion _) (fun hidle => ?_) ?_) _
    · exact fun x u hu => seedsIdle hidle x u (within hu)
    · exact fun op' u hu => sheltered op' u (within hu)
  | _ =>
    exact h.of_plain model building (by rintro _ ⟨⟩) seedsIdle
      (sheltered _ t ((mem_issued_of_plain (by rintro _ ⟨⟩)).mpr ⟨rfl, rfl⟩))

theorem performAll (model : Model) (building : s.phase = .building) (ops : List Operation)
    {t : Session} (h : Untouched idle s t)
    (seedsIdle : idle → SeedsIdle model (issuedAll model ops t))
    (sheltered : ∀ op u, (op, u) ∈ issuedAll model ops t → op.commits = true →
      u.region.isOpen = true) : Untouched idle s (performAll model ops t).2 := by
  cases ops with
  | nil => exact h
  | cons op rest =>
    rw [performAll_cons]
    refine performAll model building rest (perform model building op h ?_ ?_) ?_ ?_
    · exact fun hidle x u hu => seedsIdle hidle x u (mem_issuedAll_cons.mpr (.inl hu))
    · exact fun op' u hu => sheltered op' u (mem_issuedAll_cons.mpr (.inl hu))
    · exact fun hidle x u hu => seedsIdle hidle x u (mem_issuedAll_cons.mpr (.inr hu))
    · exact fun op' u hu => sheltered op' u (mem_issuedAll_cons.mpr (.inr hu))

end

end Untouched

mutual

/-- An operation is issued at the start or where some event has led. -/
theorem passed_of_issued {op op' : Operation} {s : Session} (h : (op', t) ∈ issued model op s) :
    t = s ∨ ∃ event ∈ events model op s, event.2 = t := by
  cases op with
  | guarded body =>
    rcases mem_issued_guarded.mp h with ⟨-, rfl⟩ | ⟨building, hbody⟩
    · exact .inl rfl
    · rw [events_guarded_of_ok (openGuard_of_building building)]
      rcases passed_of_issuedAll hbody with rfl | ⟨event, hevent, rfl⟩
      · exact .inr ⟨_, List.mem_append_left _ List.mem_cons_self, rfl⟩
      · exact .inr ⟨event, List.mem_append_left _ (List.mem_cons_of_mem _ hevent), rfl⟩
  | _ => exact .inl ((mem_issued_of_plain (by rintro _ ⟨⟩)).mp h).2

theorem passed_of_issuedAll {op' : Operation} {ops : List Operation} {s : Session}
    (h : (op', t) ∈ issuedAll model ops s) :
    t = s ∨ ∃ event ∈ eventsAll model ops s, event.2 = t := by
  cases ops with
  | nil => cases h
  | cons op rest =>
    rw [eventsAll]
    rcases mem_issuedAll_cons.mp h with hfirst | hrest
    · rcases passed_of_issued hfirst with rfl | ⟨event, hevent, rfl⟩
      · exact .inl rfl
      · exact .inr ⟨event, List.mem_append_left _ hevent, rfl⟩
    · rcases passed_of_issuedAll hrest with rfl | ⟨event, hevent, rfl⟩
      · obtain ⟨earlier, last, heq⟩ := events_eq_append model op s
        refine .inr ⟨(last, (perform model op s).2), List.mem_append_left _ ?_, rfl⟩
        rw [heq]
        exact List.mem_append_right _ List.mem_cons_self
      · exact .inr ⟨event, List.mem_append_right _ hevent, rfl⟩

end

/-- A region of its own leaves no trace if no exit leads out of it. Whatever is done inside, the
number of open regions is in the end what it was. While it lasts a region is open at every point
exactly if no exit inside leaves the last one and no region is entered, its own included, past
the greatest count. In that case, and whenever reports and sealing are asked for in a region only,
the records and the phase are in the end what they were, and with no seed that takes an ID the
session is just what it was. -/
theorem guard_leaves_no_trace (model : Model) (body : List Operation)
    (building : s.phase = .building) :
    let left := (perform model (.guarded body) s).2
    let inside := s.entered.region.isOpen = true ∧
      ∀ event ∈ eventsAll model body s.entered, event.2.region.isOpen = true
    let sheltered := ∀ op t, (op, t) ∈ issuedAll model body s.entered →
      op.commits = true → t.region.isOpen = true
    left.region = s.region ∧
    (inside ↔ ((Operation.guarded body).depthAfter s.region.depth).isSome) ∧
    (inside → sheltered) ∧
    (sheltered → left.ledger = s.ledger ∧ left.phase = s.phase ∧
      (SeedsIdle model (issuedAll model body s.entered) → left = s)) := by
  intro left inside sheltered
  have hleft : left = { (performAll model body s.entered).2 with region := s.region } := by
    rw [show left = _ from perform_guarded model body s, if_pos building]
  refine ⟨by rw [hleft], ?_, ?_, ?_⟩
  · rw [depthAfter_guarded]
    by_cases entered : s.entered.region.isOpen = true
    · have nests := nests_performAll model body (s := s.entered) building entered
      rw [if_pos entered, Option.isSome_map, ← nests.isSome_iff]
      exact and_iff_right entered
    · rw [if_neg entered]
      exact iff_of_false (fun h => entered h.1) Bool.false_ne_true
  · rintro ⟨entered, hinside⟩ op t ht _
    rcases passed_of_issuedAll ht with rfl | ⟨event, hevent, rfl⟩
    · exact entered
    · exact hinside event hevent
  · intro hsheltered
    have untouched : Untouched (SeedsIdle model (issuedAll model body s.entered)) s
        (performAll model body s.entered).2 :=
      .performAll model building body ((Untouched.refl _ s).withRegion _) id hsheltered
    refine ⟨?_, ?_, fun idle => ?_⟩
    · rw [hleft]
      exact untouched.ledger_eq
    · rw [hleft]
      exact untouched.phase_eq
    · rw [hleft, untouched.same idle]

/-- A region with a report, one more region and an exit out of a region inside. -/
theorem guard_leaves_no_trace_of_nested :
    let model := Model.uniform ⟨0⟩ ⟨1⟩ none none ⟨List.replicate 32 0, rfl⟩
    let s₀ := forCompile model default
    let report := Operation.add (.check (.initialized ⟨0⟩ true) rfl)
    let body :=
      [report, .enterRegion, .seed (.type ⟨0⟩), .exitRegion, .guarded [.exitRegion, report]]
    s₀.phase = .building ∧
      (∀ event ∈ eventsAll model body s₀.entered, event.2.region.isOpen = true) ∧
      (perform model (.guarded body) s₀).2 = s₀ := by
  intro model s₀ report body
  have building : s₀.phase = .building := rfl
  have root : (s₀.numbering.id? (.type ⟨0⟩)).isSome :=
    (lists_start model default .building).mem_iff.mp (by decide)
  obtain ⟨-, isSome_iff, shelters, traceless⟩ := guard_leaves_no_trace model body building
  have shut : s₀.region.depth = 0 := rfl
  have inside := isSome_iff.mpr (by
    simp [body, report, Operation.depthAfterAll, Operation.depthAfter, shut, UInt32.size])
  have reported : perform model report s₀.entered = (.flag false, s₀.entered) :=
    perform_add_of_open model _ building rfl
  have idle : SeedsIdle model (issuedAll model body s₀.entered) := by
    intro x t ht
    obtain ⟨rfl, rfl⟩ : x = .type ⟨0⟩ ∧ t = s₀.entered.entered := by
      have entered := perform_enterRegion model (s := s₀.entered) building
      simpa [body, report, issuedAll, issued, mem_issued_guarded, reported, entered] using ht
    rw [perform_seed_of_known (s := s₀.entered.entered) root]
  exact ⟨building, inside.2, (traceless (shelters inside)).2.2 idle⟩

/-- An exit out of the last region lets a report be recorded. -/
theorem guard_leaves_a_trace_past_an_exit :
    let model := Model.uniform ⟨0⟩ ⟨1⟩ none none ⟨List.replicate 32 0, rfl⟩
    let s₀ := forCompile model default
    let body := [.exitRegion, .add (.check (.initialized ⟨0⟩ true) rfl)]
    s₀.phase = .building ∧ s₀.ledger.records = [] ∧
      (∃ event ∈ eventsAll model body s₀.entered, event.2.region.isOpen = false) ∧
      (perform model (.guarded body) s₀).2.ledger.records = [.check (.initialized ⟨0⟩ true)] := by
  intro model s₀ body
  have exited : perform model .exitRegion s₀.entered = (.done, s₀) :=
    perform_exitRegion_entered model rfl
  have premises : ∀ x ∈ (Record.check (.initialized ⟨0⟩ true) : LiveRecord).premises,
      (s₀.numbering.id? x).isSome := by
    intro x hx
    rw [Record.premises_check, Check.operands, List.mem_singleton] at hx
    rw [hx]
    exact (lists_start model default .building).mem_iff.mp (by decide)
  have reported : (perform model (.add (.check (.initialized ⟨0⟩ true) rfl)) s₀).2 =
      { s₀ with ledger := (s₀.ledger.insert (.check (.initialized ⟨0⟩ true))).2 } := by
    rw [perform, settle_snd]
    exact leaves_of_ok (bind_of_ok ((bind_of_ok (requirePremises_of_known rfl premises)).trans
      (appendIfNew_of_known (by rintro x ⟨⟩))))
  refine ⟨rfl, rfl, ⟨(.answered .done, s₀), ?_, rfl⟩, ?_⟩
  · rw [eventsAll, events_of_plain (by rintro _ ⟨⟩), exited]
    exact List.mem_cons_self
  · rw [perform_guarded, if_pos (show s₀.phase = .building from rfl)]
    simp only [body, performAll_cons, exited, reported]
    exact Ledger.records_insert _ _

end Session

end Provenance
