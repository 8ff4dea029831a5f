import Provenance.Proofs.Phases

/-!
Heuristic regions leave no trace. While one is open nothing but the number of open regions
changes, and that is forgotten once all are closed. So whatever was issued in a region may be
left out of a run together with the region.
-/
namespace Provenance

namespace Region

theorem eq_closed {r : Region} (h : r.isOpen = false) : r = .closed := by
  obtain ⟨count⟩ := r
  rw [isOpen, decide_eq_false_iff_not, UInt32.not_lt, UInt32.le_zero_iff] at h
  exact congrArg Region.mk h

end Region

namespace Session

variable {model : Model} {s s₀ t : Session} {op : Operation} {ops : List Operation}

/-- A session apart from the regions that are open in it. -/
def surfaced (s : Session) : Session := { s with region := .closed }

theorem surfaced_of_closed (closed : s.region.isOpen = false) : s.surfaced = s := by
  rw [surfaced, ← Region.eq_closed closed]

/-- In a region no symbol can be relied upon by a report, whatever it reports. -/
theorem perform_add_of_open (model : Model) (d : Discovery) (building : s.phase = .building)
    (inside : s.region.isOpen = true) : perform model (.add d) s = (.flag false, s) := by
  have hadd : add model d s = .ok false s := by
    rw [add, bind_of_ok (gate_of_mem (by simp [building])), get_bind, if_pos inside]
    rfl
  rw [perform, settle, hadd]

theorem perform_isValidated_of_open (model : Model) (x : Symbol)
    (inside : s.region.isOpen = true) : perform model (.isValidated x) s = (.flag true, s) := by
  show (Outcome.flag (s.isValidated x), s) = _
  rw [isValidated, inside, Bool.true_or]

/-- Nothing but the number of open regions changes. -/
theorem perform_of_open (model : Model) (building : s.phase = .building)
    (inside : s.region.isOpen = true) (plain : ∀ body, op ≠ .guarded body)
    (seedless : ∀ x, op ≠ .seed x) :
    (perform model op s).2 = { s with region := (perform model op s).2.region } := by
  have still (h : (perform model op s).2 = s) :
      (perform model op s).2 = { s with region := (perform model op s).2.region } := by
    rw [h]
  cases op with
  | guarded body => exact absurd rfl (plain body)
  | seed x => exact absurd rfl (seedless x)
  | add d => exact still (by rw [perform_add_of_open model d building inside])
  | enterRegion =>
    rw [perform, settle_snd]
    exact leaves_gate (R := fun s s' => s' = { s with region := s'.region }) rfl fun _ => rfl
  | exitRegion =>
    rw [perform, settle_snd, exitRegion, leaves_get_bind]
    cases s.region.exit? <;> rfl
  | sealRecords =>
    refine still ?_
    rw [perform, settle_snd]
    rcases sealRecords_cases s with ⟨_, -, closed, -⟩ | ⟨e, he⟩
    · rw [inside] at closed
      cases closed
    · exact leaves_of_error he
  | validateSymbol | validate | validateRecords =>
    exact still (perform_validation_of_not_loading model rfl (by simp [building]))
  | _ => exact still (perform_question model rfl s)

theorem perform_enterRegion (model : Model) (phase : s.phase = .building) :
    perform model .enterRegion s = (.done, s.entered) := by
  have henter : enterRegion s = .ok () s.entered := bind_of_ok (gate_of_mem (by simp [phase]))
  rw [perform, settle, henter]

theorem perform_exitRegion_entered (model : Model) (inside : s.entered.region.isOpen = true) :
    perform model .exitRegion s.entered = (.done, s) := by
  have hexit : exitRegion s.entered = .ok () s := by
    rw [exitRegion, get_bind, show s.entered.region.exit? = _ from Region.exit?_enter inside]
    rfl
  rw [perform, settle, hexit]

/-- With no region open only entering opens one, and changes nothing else. -/
theorem opens (model : Model) (closed : s.region.isOpen = false)
    (plain : ∀ body, op ≠ .guarded body) (opened : (perform model op s).2.region.isOpen = true) :
    s.phase = .building ∧ (perform model op s).2 = s.entered := by
  have unmoved (h : (perform model op s).2.region = s.region) :
      s.phase = .building ∧ (perform model op s).2 = s.entered := by
    rw [h, closed] at opened
    cases opened
  cases op with
  | guarded body => exact absurd rfl (plain body)
  | enterRegion =>
    by_cases hp : s.phase = .building
    · exact ⟨hp, by rw [perform_enterRegion model hp]⟩
    · refine unmoved ?_
      rw [perform, settle_snd, enterRegion,
        leaves_of_error (bind_of_error (gate_of_not_mem (by simpa using hp)))]
  | exitRegion =>
    refine unmoved ?_
    rw [perform, settle_snd, exitRegion, leaves_get_bind, Region.exit?_eq_none.mpr closed]
    rfl
  | sealRecords =>
    refine unmoved ?_
    rw [perform, settle_snd]
    rcases sealRecords_cases s with ⟨records, -, -, hok⟩ | ⟨e, he⟩
    · rw [leaves_of_ok hok]
    · rw [leaves_of_error he]
  | validateRecords records =>
    refine unmoved ?_
    rw [perform, settle_snd]
    refine leaves_gate (R := fun s s' => s'.region = s.region) rfl fun _ => ?_
    exact leaves_replay (I := fun s' => s'.region = s.region) (P := fun s' => s'.region = s.region)
      (fun r s' h => (steady_validate model r s').region.trans h) (fun _ h => h) (fun _ h => h)
      (fun _ h => h) rfl
  | _ => exact unmoved (steady_perform model rfl s).region

/-- What a run issues while no region is open, and what is answered to it: left out is all that
is issued in a region, and what opens the outermost ones and what closes them. -/
def outside (model : Model) : List Operation → Session → List (Operation × Outcome)
  | [], _ => []
  | op :: rest, s =>
    let (outcome, s') := perform model op s
    if s.region.isOpen || s'.region.isOpen then outside model rest s'
    else (op, outcome) :: outside model rest s'

theorem outside_cons (model : Model) (op : Operation) (rest : List Operation) (s : Session) :
    outside model (op :: rest) s =
      if s.region.isOpen || (perform model op s).2.region.isOpen then
        outside model rest (perform model op s).2
      else (op, (perform model op s).1) :: outside model rest (perform model op s).2 := rfl

theorem sublist_outside (model : Model) (ops : List Operation) (s : Session) :
    (outside model ops s).Sublist (ops.zip (performAll model ops s).1) := by
  induction ops generalizing s with
  | nil => exact List.Sublist.slnil
  | cons op rest ih =>
    rw [outside_cons, performAll_cons, List.zip_cons_cons]
    split
    · exact (ih _).cons _
    · exact (ih _).cons_cons _

/-- Leaving out what was issued in regions leads to the same session, as it is apart from the
regions still open. -/
theorem performAll_outside (building : s.region.isOpen = true → s.phase = .building)
    (plain : ∀ op ∈ ops, ∀ body, op ≠ .guarded body)
    (seedless : ∀ x t, (.seed x, t) ∈ issuedAll model ops s → t.region.isOpen = false) :
    performAll model ((outside model ops s).map Prod.fst) s.surfaced =
      ((outside model ops s).map Prod.snd, (performAll model ops s).2.surfaced) := by
  induction ops generalizing s with
  | nil => rfl
  | cons op rest ih =>
    have plain' : ∀ body, op ≠ .guarded body := plain op List.mem_cons_self
    have later (building') := ih (s := (perform model op s).2) building'
      (fun op' hop' => plain op' (List.mem_cons_of_mem op hop'))
      fun x t ht => seedless x t (mem_issuedAll_cons.mpr (.inr ht))
    rw [outside_cons, performAll_cons]
    by_cases inside : s.region.isOpen = true
    · -- The operation is left out, and so is the number of open regions.
      have notSeed : ∀ x, op ≠ .seed x := by
        rintro x rfl
        have closed := seedless x s (mem_issuedAll_cons.mpr (.inl (by simp [issued])))
        rw [inside] at closed
        cases closed
      have heq := perform_of_open model (building inside) inside plain' notSeed
      have hsurfaced : (perform model op s).2.surfaced = s.surfaced := by
        rw [heq]
        rfl
      rw [inside, Bool.true_or, if_pos rfl, ← hsurfaced]
      refine later fun _ => ?_
      rw [heq]
      exact building inside
    · have closed : s.region.isOpen = false := by simpa using inside
      by_cases opened : (perform model op s).2.region.isOpen = true
      · obtain ⟨phase, heq⟩ := opens model closed plain' opened
        have hsurfaced : (perform model op s).2.surfaced = s.surfaced := by
          rw [heq]
          rfl
        rw [opened, Bool.or_true, if_pos rfl, ← hsurfaced]
        refine later fun _ => ?_
        rw [heq]
        exact phase
      · -- No region is open before or after, so the operation does what it did.
        have closed' : (perform model op s).2.region.isOpen = false := by simpa using opened
        have later := later fun opened => by
          rw [closed'] at opened
          cases opened
        rw [surfaced_of_closed closed'] at later
        rw [closed, closed', surfaced_of_closed closed, if_neg (by simp), List.map_cons,
          performAll_cons, later]
        rfl

/-- Speculation stays without consequences, for any operations of which none is a seed issued in
a region. As long as a region is open every report is turned down, every symbol counts as
validated, and no operation changes anything but the number of open regions, where a region of
its own does no more than the operations inside it. And if regions are only entered and exited,
and all are closed in the end, then a run without all that was issued in regions, and without
what opened and closed them, has the same answers to the operations that remain and ends in the
same session, with the same records and IDs, and the same list if it is sealed. -/
theorem regions_leave_no_trace {outcomes : List Outcome}
    (run : performAll model ops s₀ = (outcomes, s))
    (seedless : ∀ x t, (.seed x, t) ∈ issuedAll model ops s₀ → t.region.isOpen = false) :
    (∀ op t, (op, t) ∈ issuedAll model ops s₀ → t.phase = .building → t.region.isOpen = true →
      (∀ d, perform model (.add d) t = (.flag false, t)) ∧
      (∀ x, perform model (.isValidated x) t = (.flag true, t)) ∧
      ((∀ body, op ≠ .guarded body) →
        (perform model op t).2 = { t with region := (perform model op t).2.region }) ∧
      ∀ body, op = .guarded body → (perform model op t).2 =
        { (performAll model body t.entered).2 with region := t.region }) ∧
    ((∀ op ∈ ops, ∀ body, op ≠ .guarded body) → s₀.region.isOpen = false →
      s.region.isOpen = false →
      (outside model ops s₀).Sublist (ops.zip outcomes) ∧
      performAll model ((outside model ops s₀).map Prod.fst) s₀ =
        ((outside model ops s₀).map Prod.snd, s)) := by
  constructor
  · intro op t issued building inside
    refine ⟨fun d => perform_add_of_open model d building inside,
      fun x => perform_isValidated_of_open model x inside, ?_, ?_⟩
    · intro plain
      refine perform_of_open model building inside plain ?_
      rintro x rfl
      have closed := seedless x t issued
      rw [inside] at closed
      cases closed
    · rintro body rfl
      rw [perform_guarded, if_pos building]
  · intro plain closed closed'
    have sublist := sublist_outside model ops s₀
    have without := performAll_outside (fun inside => by rw [closed] at inside; cases inside)
      plain seedless
    rw [run] at sublist without
    rw [surfaced_of_closed closed, surfaced_of_closed closed'] at without
    exact ⟨sublist, without⟩

/-- A report made two regions deep, and one after both are closed. -/
theorem regions_leave_no_trace_of_nested :
    let model := Model.uniform ⟨0⟩ ⟨1⟩ none none ⟨List.replicate 32 0, rfl⟩
    let s₀ := forCompile model default
    let lost := Operation.add (.check (.initialized ⟨7⟩ true) rfl)
    let kept := Operation.add (.check (.initialized ⟨0⟩ true) rfl)
    let ops := [.enterRegion, .enterRegion, lost, .exitRegion, .isValidated (.type ⟨7⟩),
      .exitRegion, kept]
    ∃ answer s,
      performAll model ops s₀ =
        ([.done, .done, .flag false, .done, .flag true, .done, answer], s) ∧
      (∀ x t, (.seed x, t) ∈ issuedAll model ops s₀ → t.region.isOpen = false) ∧
      s.region.isOpen = false ∧ performAll model [kept] s₀ = ([answer], s) := by
  intro model s₀ lost kept ops
  have building : s₀.phase = .building := rfl
  have enter (s : Session) (phase : s.phase = .building) := perform_enterRegion model phase
  have deep : s₀.entered.region.isOpen = true := rfl
  have deeper : s₀.entered.entered.region.isOpen = true := rfl
  have exit : perform model .exitRegion s₀.entered = (.done, s₀) :=
    perform_exitRegion_entered model deep
  have exit' : perform model .exitRegion s₀.entered.entered = (.done, s₀.entered) :=
    perform_exitRegion_entered model deeper
  have hlost : perform model lost s₀.entered.entered = (.flag false, s₀.entered.entered) :=
    perform_add_of_open model _ building rfl
  have asked : perform model (.isValidated (.type ⟨7⟩)) s₀.entered = (.flag true, s₀.entered) :=
    perform_isValidated_of_open model _ rfl
  have closed : (perform model kept s₀).2.region.isOpen = false := by
    rw [(steady_perform model rfl s₀).region]
    rfl
  have run : performAll model ops s₀ = ([.done, .done, .flag false, .done, .flag true, .done,
      (perform model kept s₀).1], (perform model kept s₀).2) := by
    simp only [ops, performAll_cons, enter s₀ building, enter s₀.entered building, hlost, exit,
      exit', asked]
    rfl
  have seedless : ∀ x t, (.seed x, t) ∈ issuedAll model ops s₀ → t.region.isOpen = false := by
    intro x t ht
    simp [ops, lost, kept, issuedAll, issued] at ht
  have remains : outside model ops s₀ = [(kept, (perform model kept s₀).1)] := by
    have shut : s₀.region.isOpen = false := rfl
    simp [ops, enter s₀ building, enter s₀.entered building, hlost, exit, exit', asked,
      deep, deeper, shut, closed, outside]
  obtain ⟨-, leftOut⟩ := regions_leave_no_trace run seedless
  obtain ⟨-, without⟩ := leftOut (by simp [ops, lost, kept]) rfl closed
  rw [remains] at without
  exact ⟨_, _, run, seedless, closed, without⟩

end Session

end Provenance
