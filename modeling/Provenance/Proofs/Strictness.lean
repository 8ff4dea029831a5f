import Provenance.Proofs.Hardening
import Provenance.Proofs.Repeating

/-!
Strict and lenient sessions. Where assertions are fatal a session does what it does where they
are not, for as long as nobody is to blame. The first logic error is where the two part: the
lenient session answers with the error and lives on, the strict one stops with the same error.
-/
namespace Provenance

namespace Session

variable {α : Type} {model : Model} {s t : Session}

/-- What happens in a run: an operation is answered, or a region of its own is opened or closed. -/
inductive Event where
  | answered (outcome : Outcome)
  | opened (count : UInt32)
  | closed (opened found : UInt32) (failure : Option Failure)

namespace Event

/-- The logic error that was made, where it did not stop the session. -/
def blame : Event → Option SessionError
  | answered (.failed (.refused e)) => if e.isLogic then some e else none
  | closed count found none =>
    if found = count then none
    else some (.invariant (.unbalancedGuard count.toNat found.toNat))
  | _ => none

/-- The error that stopped the session. -/
def stop : Event → Option SessionError
  | answered (.failed (.fatal e)) | closed _ _ (some (.fatal e)) => some e
  | _ => none

variable {event : Event} {e : SessionError}

theorem isLogic_of_blame (blame : event.blame = some e) : e.isLogic = true := by
  unfold Event.blame at blame
  split at blame
  · split at blame <;> simp_all
  · split at blame
    · cases blame
    · cases blame
      rfl
  · cases blame

theorem stop_of_blame (blame : event.blame = some e) : event.stop = none := by
  unfold Event.blame at blame
  split at blame
  · rfl
  · rfl
  · cases blame

end Event

/-- The end of a region of its own. -/
def closing (opened : UInt32) (s : Session) : Event × Session :=
  match closeGuard opened s with
  | .ok () t => (.closed opened s.region.count none, t)
  | .error failure t => (.closed opened s.region.count (some failure), t)

theorem closing_snd (opened : UInt32) (s : Session) :
    (closing opened s).2 = leaves (closeGuard opened) s := by
  rw [closing, leaves]
  cases closeGuard opened s <;> rfl

mutual

/-- The events of an operation, each with the session it leaves. -/
def events (model : Model) : Operation → Session → List (Event × Session)
  | .guarded body, s =>
    match openGuard s with
    | .error failure t => [(.answered (.failed failure), t)]
    | .ok opened t =>
      (.opened opened, t) :: eventsAll model body t ++ [closing opened (performAll model body t).2]
  | op, s => [(.answered (perform model op s).1, (perform model op s).2)]

def eventsAll (model : Model) : List Operation → Session → List (Event × Session)
  | [], _ => []
  | op :: rest, s => events model op s ++ eventsAll model rest (perform model op s).2

end

theorem events_of_plain {op : Operation} (plain : ∀ body, op ≠ .guarded body) :
    events model op s = [(.answered (perform model op s).1, (perform model op s).2)] := by
  cases op with
  | guarded body => exact absurd rfl (plain body)
  | _ => rfl

theorem events_guarded_of_error {body : List Operation} {failure : Failure}
    (h : openGuard s = .error failure t) :
    events model (.guarded body) s = [(.answered (.failed failure), t)] := by
  rw [events, h]

theorem events_guarded_of_ok {body : List Operation} {opened : UInt32}
    (h : openGuard s = .ok opened t) :
    events model (.guarded body) s = (.opened opened, t) :: eventsAll model body t ++
      [closing opened (performAll model body t).2] := by
  rw [events, h]

/-- The last event of an operation leaves what the operation leaves. -/
theorem events_eq_append (model : Model) (op : Operation) (s : Session) :
    ∃ earlier last, events model op s = earlier ++ [(last, (perform model op s).2)] := by
  cases op with
  | guarded body =>
    cases hopen : openGuard s with
    | error failure t =>
      rw [events_guarded_of_error hopen, perform_guarded_of_error hopen]
      exact ⟨[], _, rfl⟩
    | ok opened t =>
      obtain ⟨_, heq⟩ := perform_guarded_of_ok hopen
      rw [events_guarded_of_ok hopen, heq]
      refine ⟨(.opened opened, t) :: eventsAll model body t,
        (closing opened (performAll model body t).2).1, ?_⟩
      rw [← closing_snd]
  | _ => exact ⟨[], _, rfl⟩

/-- The last event of a run leaves what the run leaves. -/
theorem foldl_eventsAll (model : Model) (ops : List Operation) (s : Session) :
    (eventsAll model ops s).foldl (fun _ event => event.2) s = (performAll model ops s).2 := by
  induction ops generalizing s with
  | nil => rfl
  | cons op rest ih =>
    obtain ⟨earlier, last, heq⟩ := events_eq_append model op s
    rw [eventsAll, performAll_cons, ← ih, List.foldl_append, heq, List.foldl_append]
    rfl

/-- The strict trace for a lenient one: the same up to the first logic error, where it stops with
that error. -/
inductive Parts : List (Event × Session) → List (Event × Session) → Prop where
  | nil : Parts [] []
  | calm {event : Event} {t : Session} {rest rest' : List (Event × Session)}
      (calm : event.blame = none) (going : event.stop = none) (parts : Parts rest rest') :
      Parts ((event, t) :: rest) ((event, t.hardened) :: rest')
  | parted {event event' : Event} {t t' : Session} {e : SessionError}
      {rest rest' : List (Event × Session)} (blame : event.blame = some e)
      (stop : event'.stop = some e) : Parts ((event, t) :: rest) ((event', t') :: rest')

namespace Parts

variable {trace trace' more more' : List (Event × Session)}

theorem append (h : Parts trace trace')
    (hmore : (∀ e ∈ trace, e.1.blame = none) → Parts more more') :
    Parts (trace ++ more) (trace' ++ more') := by
  induction h with
  | nil => exact hmore fun _ he => absurd he List.not_mem_nil
  | calm calm going _ ih =>
    exact .calm calm going (ih fun rest => hmore (List.forall_mem_cons.mpr ⟨calm, rest⟩))
  | parted blame stop => exact .parted blame stop

/-- The strict trace of a run without logic errors. -/
theorem of_calm (h : Parts trace trace') (calm : ∀ e ∈ trace, e.1.blame = none) :
    trace' = trace.map fun e => (e.1, e.2.hardened) := by
  induction h with
  | nil => rfl
  | calm _ _ _ ih =>
    rw [ih fun e he => calm e (List.mem_cons_of_mem _ he)]
    rfl
  | parted blame =>
    rw [calm _ List.mem_cons_self] at blame
    cases blame

/-- Whatever comes after a stretch without logic errors comes after it in the strict trace. -/
theorem split {before after : List (Event × Session)} {event : Event} {t : Session}
    (h : Parts (before ++ (event, t) :: after) trace')
    (calm : ∀ e ∈ before, e.1.blame = none) :
    ∃ event' t' after',
      trace' = before.map (fun e => (e.1, e.2.hardened)) ++ (event', t') :: after' ∧
      (∀ e ∈ before, e.1.stop = none) ∧
      (event.blame = none → event' = event ∧ t' = t.hardened) ∧
      ∀ e, event.blame = some e → event'.stop = some e := by
  induction before generalizing trace' with
  | nil =>
    cases h with
    | calm blame going parts =>
      refine ⟨event, t.hardened, _, rfl, fun _ he => absurd he List.not_mem_nil,
        fun _ => ⟨rfl, rfl⟩, fun e he => ?_⟩
      rw [blame] at he
      cases he
    | parted blame stop =>
      refine ⟨_, _, _, rfl, fun _ he => absurd he List.not_mem_nil, fun none => ?_, fun e he => ?_⟩
      · rw [blame] at none
        cases none
      · rw [stop, ← blame, he]
  | cons first before ih =>
    obtain ⟨first, t₁⟩ := first
    obtain ⟨calm₁, calm⟩ := List.forall_mem_cons.mp calm
    cases h with
    | calm _ going parts =>
      obtain ⟨event', t', after', heq, goings, same, parted⟩ := ih parts calm
      refine ⟨event', t', after', ?_, List.forall_mem_cons.mpr ⟨going, goings⟩, same, parted⟩
      rw [heq]
      rfl
    | parted blame =>
      rw [calm₁] at blame
      cases blame

end Parts

/-- What an operation does on a lenient session and on the strict one. -/
structure Parting (trace trace' : List (Event × Session)) (left left' : α × Session) : Prop where
  parts : Parts trace trace'
  lenient : left.2.IsLenient
  agree : (∀ e ∈ trace, e.1.blame = none) → left' = (left.1, left.2.hardened)

theorem Parting.refused {e : SessionError} {t : Session} (lenient : t.IsLenient)
    (harmless : e.isLogic = false) :
    Parting [(.answered (.failed (.refused e)), t)]
      [(.answered (.failed (.refused e)), t.hardened)] (Outcome.failed (.refused e), t)
      (Outcome.failed (.refused e), t.hardened) :=
  ⟨.calm (by simp [Event.blame, harmless]) rfl .nil, lenient, fun _ => rfl⟩

theorem Parting.blamed {e : SessionError} {t t' : Session} {left' : Outcome × Session}
    (lenient : t.IsLenient) (logic : e.isLogic = true) :
    Parting [(.answered (.failed (.refused e)), t)] [(.answered (.failed (.fatal e)), t')]
      (Outcome.failed (.refused e), t) left' := by
  have blame : (Event.answered (.failed (.refused e))).blame = some e := by
    simp [Event.blame, logic]
  refine ⟨.parted blame rfl, lenient, fun calm => ?_⟩
  have none := calm _ List.mem_cons_self
  rw [blame] at none
  cases none

/-- A single answer. -/
theorem Hardens.settle {action : Action α} (h : Hardens action) {outcome : α → Outcome}
    (done : ∀ a, (Event.answered (outcome a)).blame = none ∧
      (Event.answered (outcome a)).stop = none) (lenient : s.IsLenient) :
    let answer := settle action outcome s
    let answer' := settle action outcome s.hardened
    Parting [(.answered answer.1, answer.2)] [(.answered answer'.1, answer'.2)] answer answer' := by
  have hs := h s lenient
  simp only [Session.settle]
  generalize action s = result at hs
  generalize action s.hardened = result' at hs
  cases hs with
  | ok lenient => exact ⟨.calm (done _).1 (done _).2 .nil, lenient, fun _ => rfl⟩
  | refused lenient harmless => exact .refused lenient harmless
  | blamed lenient logic => exact .blamed lenient logic

theorem parting_perform_of_plain (model : Model) {op : Operation}
    (plain : ∀ body, op ≠ .guarded body) (lenient : s.IsLenient) :
    Parting (events model op s) (events model op s.hardened) (perform model op s)
      (perform model op s.hardened) := by
  rw [events_of_plain plain, events_of_plain plain]
  cases op with
  | guarded body => exact absurd rfl (plain body)
  | add d => exact (Hardens.add model d).settle (fun _ => ⟨rfl, rfl⟩) lenient
  | seed x => exact (Hardens.seed x).settle (fun _ => ⟨rfl, rfl⟩) lenient
  | enterRegion => exact Hardens.enterRegion.settle (fun _ => ⟨rfl, rfl⟩) lenient
  | exitRegion => exact Hardens.exitRegion.settle (fun _ => ⟨rfl, rfl⟩) lenient
  | requireId x => exact (Hardens.requireId x).settle (fun _ => ⟨rfl, rfl⟩) lenient
  | symbolFor id expected presence =>
    exact (Hardens.symbolFor id expected presence).settle (fun _ => ⟨rfl, rfl⟩) lenient
  | typeFor id presence =>
    exact (Hardens.typeFor id presence).settle (fun _ => ⟨rfl, rfl⟩) lenient
  | procedureFor id presence =>
    exact (Hardens.procedureFor id presence).settle (fun _ => ⟨rfl, rfl⟩) lenient
  | sealRecords => exact Hardens.sealRecords.settle (fun _ => ⟨rfl, rfl⟩) lenient
  | validateSymbol id x =>
    exact (Hardens.validateSymbol id x).settle (fun _ => ⟨rfl, rfl⟩) lenient
  | validate r => exact (Hardens.validate model r).settle (fun _ => ⟨rfl, rfl⟩) lenient
  | validateRecords records =>
    exact (Hardens.validateRecords model records).settle (fun _ => ⟨rfl, rfl⟩) lenient
  | isValidated | findId | contains | records =>
    exact ⟨.calm rfl rfl .nil, lenient, fun _ => rfl⟩

theorem closeGuard_eq (opened : UInt32) (s : Session) :
    closeGuard opened s =
      if s.region.count ≠ opened && s.config.assertionsAreFatal then
        .error (.fatal (.invariant (.unbalancedGuard opened.toNat s.region.count.toNat)))
          { s with region := ⟨opened - 1⟩ }
      else .ok () { s with region := ⟨opened - 1⟩ } := by
  show (if s.region.count ≠ opened && s.config.assertionsAreFatal then throw _ else pure () :
    Action Unit) _ = _
  split <;> rfl

theorem closeGuard_of_lenient (lenient : s.IsLenient) (opened : UInt32) :
    closeGuard opened s = .ok () { s with region := ⟨opened - 1⟩ } := by
  rw [closeGuard_eq, lenient.fatal_eq_false, Bool.and_false, if_neg Bool.false_ne_true]

theorem closing_of_lenient (lenient : s.IsLenient) (opened : UInt32) :
    closing opened s =
      (.closed opened s.region.count none, { s with region := ⟨opened - 1⟩ }) := by
  rw [closing, closeGuard_of_lenient lenient]

theorem closeGuard_hardened_of_balanced {opened : UInt32} (balanced : s.region.count = opened) :
    closeGuard opened s.hardened = .ok () { s.hardened with region := ⟨opened - 1⟩ } := by
  rw [closeGuard_eq, if_neg (by simp [hardened, balanced])]

theorem closeGuard_hardened_of_unbalanced {opened : UInt32} (unbalanced : s.region.count ≠ opened) :
    closeGuard opened s.hardened =
      .error (.fatal (.invariant (.unbalancedGuard opened.toNat s.region.count.toNat)))
        { s.hardened with region := ⟨opened - 1⟩ } := by
  rw [closeGuard_eq, if_pos]
  · rfl
  · simp [hardened, unbalanced, Config.assertionsAreFatal, Config.withStrictness]

theorem blame_closing (lenient : s.IsLenient) {opened : UInt32}
    (calm : (closing opened s).1.blame = none) : s.region.count = opened := by
  rw [closing_of_lenient lenient] at calm
  simpa [Event.blame] using calm

/-- A count that was not kept is where the strict session stops. -/
theorem parts_closing (lenient : s.IsLenient) (opened : UInt32) :
    Parts [closing opened s] [closing opened s.hardened] := by
  rw [closing_of_lenient lenient]
  by_cases balanced : s.region.count = opened
  · have hclosing : closing opened s.hardened = (.closed opened s.region.count none,
        hardened { s with region := ⟨opened - 1⟩ }) := by
      rw [closing, closeGuard_hardened_of_balanced balanced]
      rfl
    rw [hclosing]
    exact .calm (by simp [Event.blame, balanced]) rfl .nil
  · rw [closing, closeGuard_hardened_of_unbalanced balanced]
    exact .parted (by simp [Event.blame, balanced]) rfl

mutual

theorem parting_perform (model : Model) (op : Operation) {s : Session} (lenient : s.IsLenient) :
    Parting (events model op s) (events model op s.hardened) (perform model op s)
      (perform model op s.hardened) := by
  cases op with
  | guarded body =>
    have opening := Hardens.openGuard s lenient
    generalize hopen : openGuard s = result at opening
    generalize hopen' : openGuard s.hardened = result' at opening
    cases opening with
    | @ok opened t lenient =>
      have inside := parting_performAll model body lenient
      rw [events_guarded_of_ok hopen, events_guarded_of_ok hopen']
      simp only [perform, hopen, hopen', closeGuard_of_lenient inside.lenient]
      refine ⟨(Parts.calm rfl rfl inside.parts).append fun calm => ?_, inside.lenient,
        fun calm => ?_⟩
      · rw [inside.agree (List.forall_mem_cons.mp calm).2]
        exact parts_closing inside.lenient opened
      · obtain ⟨calm, closed⟩ := List.forall_mem_append.mp calm
        rw [inside.agree (List.forall_mem_cons.mp calm).2]
        simp only [closeGuard_hardened_of_balanced
          (blame_closing inside.lenient (closed _ List.mem_cons_self))]
        rfl
    | refused lenient harmless =>
      rw [events_guarded_of_error hopen, events_guarded_of_error hopen',
        perform_guarded_of_error hopen, perform_guarded_of_error hopen']
      exact .refused lenient harmless
    | blamed lenient logic =>
      rw [events_guarded_of_error hopen, events_guarded_of_error hopen',
        perform_guarded_of_error hopen, perform_guarded_of_error hopen']
      exact .blamed lenient logic
  | _ => exact parting_perform_of_plain model (by rintro _ ⟨⟩) lenient

theorem parting_performAll (model : Model) (ops : List Operation) {s : Session}
    (lenient : s.IsLenient) :
    Parting (eventsAll model ops s) (eventsAll model ops s.hardened) (performAll model ops s)
      (performAll model ops s.hardened) := by
  cases ops with
  | nil => exact ⟨.nil, lenient, fun _ => rfl⟩
  | cons op rest =>
    have first := parting_perform model op lenient
    have later := parting_performAll model rest first.lenient
    rw [eventsAll, eventsAll, performAll_cons, performAll_cons]
    refine ⟨first.parts.append fun calm => ?_, later.lenient, fun calm => ?_⟩
    · rw [first.agree calm]
      exact later.parts
    · obtain ⟨calm, calm'⟩ := List.forall_mem_append.mp calm
      rw [first.agree calm]
      dsimp only
      rw [later.agree calm']

end

/-- A session is lenient, or it is the strict one of a lenient session. -/
theorem lenient_or_hardened (s : Session) :
    s.IsLenient ∨ s.config.strictness = .strict ∧ ∃ u : Session, u.IsLenient ∧ u.hardened = s := by
  obtain ⟨⟨strictness, dims⟩, phase, numbering, ledger, region, seeded⟩ := s
  cases strictness with
  | lenient => exact .inl rfl
  | strict =>
    exact .inr ⟨rfl, ⟨⟨.lenient, dims⟩, phase, numbering, ledger, region, seeded⟩, rfl, rfl⟩

/-- Only a logic error stops a session at its first event, and only a strict one. -/
theorem stop_of_first (trace : Session → List (Event × Session)) {event : Event}
    {rest : List (Event × Session)} {e : SessionError}
    (parts : ∀ u : Session, u.IsLenient → Parts (trace u) (trace u.hardened))
    (first : trace s = (event, t) :: rest) (stop : event.stop = some e) :
    e.isLogic = true ∧ s.config.strictness = .strict := by
  rcases lenient_or_hardened s with lenient | ⟨strict, u, lenient, rfl⟩
  · have parts := parts s lenient
    rw [first] at parts
    generalize trace s.hardened = trace' at parts
    cases parts with
    | calm _ going => cases going.symm.trans stop
    | parted blame => cases (Event.stop_of_blame blame).symm.trans stop
  · have parts := parts u lenient
    rw [first] at parts
    generalize trace u = trace' at parts
    cases parts with
    | calm _ going => cases going.symm.trans stop
    | parted blame stop' =>
      cases stop'.symm.trans stop
      exact ⟨Event.isLogic_of_blame blame, strict⟩

mutual

/-- A session is stopped by logic errors alone, and only if assertions are fatal. -/
theorem stop_of_mem_events {op : Operation} {s : Session} {event : Event × Session}
    {e : SessionError} (h : event ∈ events model op s) (stop : event.1.stop = some e) :
    e.isLogic = true ∧ s.config.strictness = .strict := by
  have ofFirst {first : Event × Session} (hfirst : events model op s = [first]) :
      e.isLogic = true ∧ s.config.strictness = .strict := by
    rw [hfirst, List.mem_singleton] at h
    rw [← h] at hfirst
    exact stop_of_first (events model op)
      (fun u lenient => (parting_perform model op lenient).parts) hfirst stop
  cases op with
  | guarded body =>
    cases hopen : openGuard s with
    | error failure t => exact ofFirst (events_guarded_of_error hopen)
    | ok opened t =>
      have config : t.config = s.config := by
        have reaches : Reaches s (leaves openGuard s) := ⟨[], openGuard_moves s⟩
        rw [leaves_of_ok hopen] at reaches
        exact reaches.config_eq
      rw [events_guarded_of_ok hopen] at h
      rw [← config]
      rcases List.mem_append.mp h with hinside | hclosing
      · rcases List.mem_cons.mp hinside with rfl | hinside
        · cases stop
        · exact stop_of_mem_eventsAll hinside stop
      · rw [← (Reaches.performAll model body t).config_eq]
        rw [List.mem_singleton] at hclosing
        subst hclosing
        exact stop_of_first (fun u => [closing opened u])
          (fun u lenient => parts_closing lenient opened) rfl stop
  | _ => exact ofFirst (events_of_plain (by rintro _ ⟨⟩))

theorem stop_of_mem_eventsAll {ops : List Operation} {s : Session} {event : Event × Session}
    {e : SessionError} (h : event ∈ eventsAll model ops s) (stop : event.1.stop = some e) :
    e.isLogic = true ∧ s.config.strictness = .strict := by
  cases ops with
  | nil => cases h
  | cons op rest =>
    rw [eventsAll] at h
    rcases List.mem_append.mp h with hfirst | hrest
    · exact stop_of_mem_events hfirst stop
    · rw [← (Reaches.perform model op s).config_eq]
      exact stop_of_mem_eventsAll hrest stop

end

/-- Strictness only decides how logic errors surface. Of two sessions that start out alike but
for it and are asked the same, the lenient one is never stopped, and the strict one by nothing but
a logic error. Their events, each with the session it leaves, are the same up to the first logic
error of the lenient one, before which neither is stopped. There the strict one is stopped, with
the same error and so with the same text. Without any logic error their events are all the same,
and so are the outcomes and what is left in the end. -/
theorem strictness_decides_how_logic_errors_surface (model : Model) (config : Config)
    (phase : Phase) (ops : List Operation) :
    let lenient := start model (config.withStrictness .lenient) phase
    let strict := start model (config.withStrictness .strict) phase
    let trace := eventsAll model ops lenient
    let trace' := eventsAll model ops strict
    (∀ event ∈ trace, event.1.stop = none) ∧
    (∀ event ∈ trace', ∀ e, event.1.stop = some e → e.isLogic = true) ∧
    (∀ before event t after, trace = before ++ (event, t) :: after →
      (∀ earlier ∈ before, earlier.1.blame = none) →
      ∃ event' t' after',
        trace' = before.map (fun earlier => (earlier.1, earlier.2.hardened)) ++
          (event', t') :: after' ∧
        (∀ earlier ∈ before, earlier.1.stop = none) ∧
        (event.blame = none → event' = event ∧ t' = t.hardened) ∧
        ∀ e, event.blame = some e → event'.stop = some e) ∧
    ((∀ event ∈ trace, event.1.blame = none) →
      trace' = trace.map (fun event => (event.1, event.2.hardened)) ∧
      performAll model ops strict =
        ((performAll model ops lenient).1, (performAll model ops lenient).2.hardened)) := by
  intro lenient strict trace trace'
  have parting := parting_performAll model ops (s := lenient) rfl
  refine ⟨fun event hevent => ?_, fun event hevent e stop => (stop_of_mem_eventsAll hevent stop).1,
    fun before event t after htrace calm => ?_, fun calm => ?_⟩
  · cases stop : event.1.stop with
    | none => rfl
    | some e => cases (stop_of_mem_eventsAll hevent stop).2
  · have parts := parting.parts
    rw [show eventsAll model ops lenient = _ from htrace] at parts
    exact parts.split calm
  · exact ⟨parting.parts.of_calm calm, parting.agree calm⟩

end Session

end Provenance
