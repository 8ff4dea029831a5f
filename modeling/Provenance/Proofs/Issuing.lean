import Provenance.Proofs.Sealing

/-!
Where operations are issued. A run issues its operations one after the other, those inside a
region of their own once that region is open. Such a region by itself changes no more than how
many regions are open, so all that happens in a run happens where some operation is issued.
-/
namespace Provenance.Session

variable {model : Model} {s s' t : Session}

/-- The session inside one more region. -/
def entered (s : Session) : Session := { s with region := s.region.enter }

mutual

/-- The operations that are issued when one is performed, each with the session it finds. -/
def issued (model : Model) : Operation → Session → List (Operation × Session)
  | .guarded body, s =>
    (.guarded body, s) :: if s.phase = .building then issuedAll model body s.entered else []
  | operation, s => [(operation, s)]

def issuedAll (model : Model) : List Operation → Session → List (Operation × Session)
  | [], _ => []
  | operation :: rest, s =>
    issued model operation s ++ issuedAll model rest (perform model operation s).2

end

theorem mem_issued_of_plain {op op' : Operation} (plain : ∀ body, op ≠ .guarded body) :
    (op', t) ∈ issued model op s ↔ op' = op ∧ t = s := by
  cases op with
  | guarded body => exact absurd rfl (plain body)
  | _ => simp [issued]

theorem mem_issued_guarded {op : Operation} {body : List Operation} :
    (op, t) ∈ issued model (.guarded body) s ↔
      op = .guarded body ∧ t = s ∨
        s.phase = .building ∧ (op, t) ∈ issuedAll model body s.entered := by
  by_cases hp : s.phase = .building <;> simp [issued, hp]

theorem mem_issuedAll_cons {op op' : Operation} {rest : List Operation} :
    (op', t) ∈ issuedAll model (op :: rest) s ↔
      (op', t) ∈ issued model op s ∨ (op', t) ∈ issuedAll model rest (perform model op s).2 := by
  rw [issuedAll, List.mem_append]

theorem openGuard_of_building (phase : s.phase = .building) :
    openGuard s = .ok s.entered.region.count s.entered :=
  bind_of_ok (gate_of_mem (by simp [phase]))

theorem openGuard_of_not_building (phase : s.phase ≠ .building) :
    ∃ e, openGuard s = .error e s :=
  ⟨_, bind_of_error (gate_of_not_mem (by simpa using phase))⟩

/-- All that a region of its own does is to count while its body runs. -/
theorem perform_guarded (model : Model) (body : List Operation) (s : Session) :
    (perform model (.guarded body) s).2 =
      if s.phase = .building then
        { (performAll model body s.entered).2 with region := s.region }
      else s := by
  by_cases hp : s.phase = .building
  · have hopen : openGuard s = .ok s.entered.region.count s.entered := openGuard_of_building hp
    obtain ⟨closing, heq⟩ : ∃ closing, perform model (.guarded body) s = _ :=
      perform_guarded_of_ok hopen
    have kept : s.entered.region.count - 1 = s.region.count := s.region.count_enter_sub_one
    rw [heq, leaves_closeGuard, if_pos hp, kept]
  · obtain ⟨e, he⟩ := openGuard_of_not_building hp
    rw [perform_guarded_of_error he, if_neg hp]

/-- Some moves lead from the one session to the other. -/
def Reaches (s s' : Session) : Prop := ∃ given, Moves (fun _ => True) given s s'

namespace Reaches

theorem refl (s : Session) : Reaches s s := ⟨[], Moves.refl s⟩

theorem trans (h : Reaches s s') (h' : Reaches s' t) : Reaches s t := by
  obtain ⟨given, moves⟩ := h
  obtain ⟨given', moves'⟩ := h'
  exact ⟨given ++ given', moves.trans moves'⟩

theorem region (s : Session) (region : Region) : Reaches s { s with region := region } :=
  ⟨[], (Move.region s region).moves⟩

theorem performAll (model : Model) (ops : List Operation) (s : Session) :
    Reaches s (performAll model ops s).2 :=
  ⟨_, performAll_moves model (fun _ _ => trivial) ops s fun _ _ _ _ => trivial⟩

theorem perform (model : Model) (op : Operation) (s : Session) :
    Reaches s (perform model op s).2 := performAll model [op] s

/-- What every move keeps holds wherever moves lead. -/
theorem keeps {I : Session → Prop}
    (step : ∀ {given s s'}, I s → Move (fun _ => True) given s s' → I s') (h : Reaches s s')
    (start : I s) : I s' := by
  obtain ⟨given, moves⟩ := h
  exact moves.keeps step start

mutual

theorem issued {op op' : Operation} {s : Session} (h : (op', t) ∈ issued model op s) :
    Reaches s t := by
  cases op with
  | guarded body =>
    rcases mem_issued_guarded.mp h with ⟨-, rfl⟩ | ⟨-, hbody⟩
    · exact refl t
    · exact (region s s.region.enter).trans (issuedAll hbody)
  | _ =>
    obtain ⟨-, rfl⟩ := (mem_issued_of_plain (by rintro _ ⟨⟩)).mp h
    exact refl t

theorem issuedAll {op' : Operation} {ops : List Operation} {s : Session}
    (h : (op', t) ∈ issuedAll model ops s) : Reaches s t := by
  cases ops with
  | nil => cases h
  | cons op rest =>
    rcases mem_issuedAll_cons.mp h with hfirst | hrest
    · exact issued hfirst
    · exact (perform model op s).trans (issuedAll hrest)

end

mutual

/-- What an operation leaves is gone on from. -/
theorem past_issued {op op' : Operation} {s : Session} (plain : ∀ body, op' ≠ .guarded body)
    (h : (op', t) ∈ Session.issued model op s) :
    Reaches (Session.perform model op' t).2 (Session.perform model op s).2 := by
  cases op with
  | guarded body =>
    rcases mem_issued_guarded.mp h with ⟨rfl, -⟩ | ⟨phase, hbody⟩
    · exact absurd rfl (plain body)
    · rw [perform_guarded, if_pos phase]
      exact (past_issuedAll plain hbody).trans (region _ s.region)
  | _ =>
    obtain ⟨rfl, rfl⟩ := (mem_issued_of_plain (by rintro _ ⟨⟩)).mp h
    exact refl _

theorem past_issuedAll {op' : Operation} {ops : List Operation} {s : Session}
    (plain : ∀ body, op' ≠ .guarded body) (h : (op', t) ∈ Session.issuedAll model ops s) :
    Reaches (Session.perform model op' t).2 (Session.performAll model ops s).2 := by
  cases ops with
  | nil => cases h
  | cons op rest =>
    rw [performAll_cons]
    rcases mem_issuedAll_cons.mp h with hfirst | hrest
    · exact (past_issued plain hfirst).trans (performAll model rest _)
    · exact past_issuedAll plain hrest

end

mutual

/-- What is issued later is issued on top of what earlier operations left. -/
theorem pairwise_issued (model : Model) (op : Operation) (s : Session) :
    (Session.issued model op s).Pairwise fun first later =>
      (∀ body, first.1 ≠ .guarded body) →
        Reaches (Session.perform model first.1 first.2).2 later.2 := by
  cases op with
  | guarded body =>
    rw [Session.issued]
    refine List.pairwise_cons.mpr ⟨fun later _ plain => absurd rfl (plain body), ?_⟩
    split
    · exact pairwise_issuedAll model body s.entered
    · exact List.Pairwise.nil
  | _ => exact List.pairwise_singleton _ _

theorem pairwise_issuedAll (model : Model) (ops : List Operation) (s : Session) :
    (Session.issuedAll model ops s).Pairwise fun first later =>
      (∀ body, first.1 ≠ .guarded body) →
        Reaches (Session.perform model first.1 first.2).2 later.2 := by
  cases ops with
  | nil => exact List.Pairwise.nil
  | cons op rest =>
    rw [Session.issuedAll]
    refine List.pairwise_append.mpr
      ⟨pairwise_issued model op s, pairwise_issuedAll model rest _, ?_⟩
    intro first hfirst later hlater plain
    exact (past_issued plain hfirst).trans (issuedAll hlater)

end

/-- What an operation of a trace finds is gone on to from what one before it has left. -/
theorem of_trace {op op' : Operation} {ops : List Operation} {s₀ u : Session}
    {before later : List (Operation × Session)}
    (trace : Session.issuedAll model ops s₀ = before ++ (op, t) :: later)
    (mem : (op', u) ∈ before) (plain : ∀ body, op' ≠ .guarded body) :
    Reaches (Session.perform model op' u).2 t := by
  have pairwise := pairwise_issuedAll model ops s₀
  rw [trace] at pairwise
  exact (List.pairwise_append.mp pairwise).2.2 _ mem _ List.mem_cons_self plain

end Reaches

/-- Every entry of a trace finds what is so after those before it. -/
def Along (so : List (Operation × Session) → Session → Prop) :
    (past trace : List (Operation × Session)) → Prop
  | _, [] => True
  | past, entry :: later => so past entry.2 ∧ Along so (past ++ [entry]) later

namespace Along

variable {so : List (Operation × Session) → Session → Prop}
  {past before first later : List (Operation × Session)}

theorem append (h : Along so past first) (h' : Along so (past ++ first) later) :
    Along so past (first ++ later) := by
  induction first generalizing past with
  | nil => simpa using h'
  | cons entry first ih => exact ⟨h.1, ih h.2 (by simpa using h')⟩

theorem found {op : Operation} (h : Along so past (before ++ (op, t) :: later)) :
    so (past ++ before) t := by
  induction before generalizing past with
  | nil => simpa using h.1
  | cons entry before ih => simpa using ih h.2

end Along

/-- What every operation keeps, given all that were issued before it. -/
structure History (model : Model) (so : List (Operation × Session) → Session → Prop) : Prop where
  plain : ∀ {past op s}, (∀ body, op ≠ .guarded body) → so past s →
    so (past ++ [(op, s)]) (perform model op s).2
  opened : ∀ {past body s}, so past s → so (past ++ [(.guarded body, s)]) s
  region : ∀ {past s}, so past s → ∀ region, so past { s with region := region }

namespace History

variable {so : List (Operation × Session) → Session → Prop}

mutual

theorem issued (h : History model so) (op : Operation) {past : List (Operation × Session)}
    {s : Session} (start : so past s) :
    Along so past (issued model op s) ∧
      so (past ++ Session.issued model op s) (perform model op s).2 := by
  cases op with
  | guarded body =>
    rw [Session.issued, perform_guarded]
    have opened : so (past ++ [(.guarded body, s)]) s := h.opened start
    by_cases phase : s.phase = .building
    · rw [if_pos phase, if_pos phase]
      have inside : so (past ++ [(.guarded body, s)]) s.entered := h.region opened s.region.enter
      obtain ⟨along, left⟩ := h.issuedAll body inside
      rw [List.append_assoc] at left
      exact ⟨⟨start, along⟩, h.region left s.region⟩
    · rw [if_neg phase, if_neg phase]
      exact ⟨⟨start, trivial⟩, opened⟩
  | _ => exact ⟨⟨start, trivial⟩, h.plain (by rintro _ ⟨⟩) start⟩

theorem issuedAll (h : History model so) (ops : List Operation)
    {past : List (Operation × Session)} {s : Session} (start : so past s) :
    Along so past (issuedAll model ops s) ∧
      so (past ++ Session.issuedAll model ops s) (performAll model ops s).2 := by
  cases ops with
  | nil => exact ⟨trivial, by simpa [Session.issuedAll, performAll] using start⟩
  | cons op rest =>
    rw [Session.issuedAll, performAll_cons, ← List.append_assoc]
    obtain ⟨first, left⟩ := h.issued op start
    obtain ⟨later, left'⟩ := h.issuedAll rest left
    exact ⟨first.append later, left'⟩

end

/-- What is kept given the history is so wherever an operation is issued. -/
theorem found (h : History model so) {ops : List Operation} {op : Operation} {s₀ : Session}
    {before later : List (Operation × Session)} (start : so [] s₀)
    (trace : Session.issuedAll model ops s₀ = before ++ (op, t) :: later) : so before t := by
  have along := (h.issuedAll ops start).1
  rw [trace] at along
  simpa using along.found

end History

end Provenance.Session
