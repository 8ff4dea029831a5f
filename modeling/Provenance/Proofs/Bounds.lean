import Provenance.Proofs.Anchoring
import Provenance.Proofs.Repeating
import Provenance.Proofs.Truncation

/-!
Lists that come from outside. Whatever bytes come in, a list that they decode to is replayed
without following a handle that leads out of the world, and where logic errors are given back
the replay gives every failure back.
-/
namespace Provenance.Session

variable {model : Model} {w : World} {s s' : Session}

/-- Where logic errors are given back, a replay gives all errors back. -/
theorem Replaying.replay_not_fatal {region : Region} {index : Nat}
    {records : List SealedRecord} {e : SessionError} (h : Replaying region s) :
    replay model index records s ≠ .error (.fatal e) s' := by
  induction records generalizing index s with
  | nil => rintro ⟨⟩
  | cons r rest ih =>
    rcases h.validate_cases r with ⟨between, hv, hb⟩ | ⟨between, hv, -⟩ | ⟨v, hv⟩
    · rw [replay_of_true hv]
      exact ih hb
    · rw [replay_of_false hv]
      rintro ⟨⟩
    · rw [replay_of_refused hv]
      rintro ⟨⟩

theorem validateRecords_not_fatal (lenient : s.config.assertionsAreFatal = false)
    (records : List SealedRecord) (e : SessionError) :
    validateRecords model records s ≠ .error (.fatal e) s' := by
  by_cases phase : s.phase = .loading
  · rw [validateRecords_of_loading phase]
    exact Replaying.replay_not_fatal ⟨phase, lenient, rfl⟩
  · have hrefused : validateRecords model records s =
        refuse (.wrongPhase .validateRecords s.phase) s :=
      bind_of_error (gate_of_not_mem (by simpa using phase))
    rw [hrefused, refuse, lenient]
    rintro ⟨⟩

/-- Whatever a lenient session that loads was asked before, with symbols the world has, and
whatever bytes come in: if they decode to a list, validating it with every handle tested is
validating it. No handle fails the test, be it one that the session asks about or one that is
followed on the way to the answer; the failure, if there is one, is given back; and afterwards
the session knows only what the world has. -/
theorem hostile_lists_stay_within_bounds {config : Config} {ops : List Operation}
    {outcomes : List Outcome} (built : w.Built) (lenient : config.strictness = .lenient)
    (run : performAll w.model ops (forLoad w.model config) = (outcomes, s))
    (existing : ∀ op ∈ ops, ∀ x ∈ op.brought, w.Has x) :
    ∀ bytes records, Artifact.decode bytes = .ok records →
      Checked.validateRecords w records s = Checked.act (validateRecords w.model records) s ∧
      (∀ x s', Checked.validateRecords w records s ≠ .error (.astray x) s') ∧
      (∀ e s', validateRecords w.model records s ≠ .error (.fatal e) s') ∧
      ∀ id x, (leaves (validateRecords w.model records) s).numbering.symbolOf? id = some x →
        w.Has x := by
  intro bytes records _
  have world := built.sound
  have anchored : Anchored w s := by
    have h := Anchored.loaded world.toWellFormed config existing
    rwa [run] at h
  have still : s.config.assertionsAreFatal = false := by
    have same := (Reaches.performAll w.model ops (forLoad w.model config)).config_eq
    rw [run] at same
    rw [same]
    simp [forLoad, start, Config.assertionsAreFatal, lenient]
  have hchecked := anchored.validateRecords_eq world records
  refine ⟨hchecked, fun x s' => ?_, fun e s' => validateRecords_not_fatal still records e,
    anchored.validateRecords world.toWellFormed records⟩
  rw [hchecked]
  exact Checked.act_ne_astray _ x s s'

/-- A list with an offset below zero, an index beyond every table, IDs of the wrong category or
of nothing, and a type that is found from itself. -/
theorem hostile_lists_stay_within_bounds_of_wild :
    let w := (World.fresh.defineProcedure ⟨⟨0⟩, "run", "()V", true, false, false, false⟩).2
    let ops : List Operation :=
      [.seed (.procedure ⟨0⟩), .validateSymbol ⟨9, by decide⟩ (some (.type ⟨1⟩))]
    let s := (performAll w.model ops (forLoad w.model default)).2
    let records : List SealedRecord :=
      [.procedure ⟨4, by decide⟩ (.virtualFromOffset ⟨1, by decide⟩ (-72) true),
        .type ⟨5, by decide⟩ (.fromEntry ⟨2, by decide⟩ 4294967295),
        .type ⟨6, by decide⟩ (.ownerOf ⟨1, by decide⟩),
        .type ⟨7, by decide⟩ (.superOf ⟨7, by decide⟩),
        .check (.skipFrames ⟨1, by decide⟩ ⟨65535, by decide⟩ true)]
    w.Built ∧ (default : Config).strictness = .lenient ∧
      (∀ op ∈ ops, ∀ x ∈ op.brought, w.Has x) ∧
      Artifact.decode (Artifact.encode records) = .ok records ∧
      Checked.validateRecords w records s = Checked.act (validateRecords w.model records) s ∧
      (∀ x s', Checked.validateRecords w records s ≠ .error (.astray x) s') ∧
      (∀ e s', validateRecords w.model records s ≠ .error (.fatal e) s') ∧
      ∀ id x, (leaves (validateRecords w.model records) s).numbering.symbolOf? id = some x →
        w.Has x := by
  intro w ops s records
  have built : w.Built := .defineProcedure _ .fresh (by decide)
  have existing : ∀ op ∈ ops, ∀ x ∈ op.brought, w.Has x := by decide
  have addressable : Addressable records := ⟨by decide, by decide⟩
  have hmagic : Artifact.magic <+: Artifact.payload records := List.isPrefixOf_iff_prefix.mp rfl
  have decoded : Artifact.decode (Artifact.encode records) = .ok records :=
    (Artifact.decodeWith_sealed hmagic).trans (Artifact.parsePayload_payload addressable)
  exact ⟨built, rfl, existing, decoded,
    hostile_lists_stay_within_bounds built rfl rfl existing _ _ decoded⟩

end Provenance.Session
