import Provenance.Proofs.Recording
import Provenance.Proofs.RoundTrip

/-!
Types keep their shape. Wherever a record is the first of a type, the chain of the type stands
right behind it, however the type came in and whatever failed on the way. A replay confirms
every record of the list under its final table, so the type it binds has the chain recorded.
-/
namespace Provenance

/-- Behind the first record of a type that is no array comes its chain. -/
def Chained (model : Model) : (known : List Symbol) → List LiveRecord → Prop
  | _, [] => True
  | known, r :: rest =>
    (∀ ty rule, r = .type ty rule → .type ty ∉ known → model.isArray ty = false →
      rest.head? = some (.check (.chain ty (model.chainDigest ty)))) ∧
    Chained model (r.learned known) rest

namespace Chained

variable {model : Model} {known last : List Symbol} {records more : List LiveRecord}

/-- No record of the list is the first of a type. -/
theorem of_known {r : LiveRecord} (h : ∀ x, r.defined = some x → x ∈ known) :
    Chained model known [r] := by
  refine ⟨fun ty rule hr new _ => ?_, trivial⟩
  rw [hr] at h
  exact absurd (h _ rfl) new

theorem of_procedure {p : ProcRef} {rule : ProcRule TypeRef ProcRef}
    (rest : Chained model (Record.learned (.procedure p rule) known) more) :
    Chained model known (.procedure p rule :: more) :=
  ⟨fun _ _ hr => (by cases hr), rest⟩

theorem of_type (ty : TypeRef) (rule : TypeRule TypeRef ProcRef) :
    Chained model known (.type ty rule :: Session.chainOf model ty) := by
  rw [Session.chainOf]
  by_cases ha : model.isArray ty
  · rw [if_pos ha]
    refine ⟨fun ty' rule' hr _ plain => ?_, trivial⟩
    cases hr
    rw [ha] at plain
    cases plain
  · rw [if_neg ha]
    refine ⟨fun ty' rule' hr _ _ => ?_, fun _ _ hr => (by cases hr), trivial⟩
    cases hr
    rfl

theorem append (h : Chained model known records) (derives : Derives known records last)
    (hmore : Chained model last more) : Chained model known (records ++ more) := by
  induction derives with
  | nil => exact hmore
  | cons _ _ ih =>
    rw [List.cons_append]
    refine ⟨fun ty rule hr new plain => ?_, ih h.2 hmore⟩
    rw [List.head?_append, h.1 ty rule hr new plain]
    rfl

/-- A type that is derived has a first record, and the record behind it is its chain. -/
theorem exists_first (h : Chained model known records) (derives : Derives known records last)
    {ty : TypeRef} (hlast : .type ty ∈ last) (hknown : .type ty ∉ known)
    (plain : model.isArray ty = false) :
    ∃ i r, records[i]? = some r ∧ r.defined = some (.type ty) ∧
      (∀ j r', j < i → records[j]? = some r' → r'.defined ≠ some (.type ty)) ∧
      records[i + 1]? = some (.check (.chain ty (model.chainDigest ty))) := by
  induction derives with
  | nil => exact absurd hlast hknown
  | @cons known last r rest _ _ ih =>
    by_cases hr : r.defined = some (.type ty)
    · refine ⟨0, r, rfl, hr, fun j r' hj => absurd hj (Nat.not_lt_zero j), ?_⟩
      cases r with
      | type ty' rule =>
        cases hr
        rw [← h.1 ty rule rfl hknown plain]
        cases rest <;> rfl
      | procedure | check => cases hr
    · have hlearned : .type ty ∉ r.learned known := by
        rw [Record.mem_learned]
        exact not_or.mpr ⟨hknown, hr⟩
      obtain ⟨i, r', hi, hdefined, hbefore, hchain⟩ := ih h.2 hlast hlearned
      refine ⟨i + 1, r', hi, hdefined, fun j r'' hj hr'' => ?_, hchain⟩
      cases j with
      | zero =>
        cases hr''
        exact hr
      | succ j => exact hbefore j r'' (Nat.lt_of_succ_lt_succ hj) hr''

end Chained

namespace Session

variable {model : Model} {seeds given : List Symbol} {s s' : Session}

/-- A session that records and has the chain of a type behind its first record. -/
structure Shaped (model : Model) (seeds : List Symbol) (s : Session) : Prop extends
    Recorded model (fun _ => True) seeds s where
  chained : Chained model (seededWith model seeds) s.ledger.records

namespace Shaped

theorem entry (h : Shaped model seeds s) (hentry : Entry model (fun _ => True) s s') :
    Shaped model seeds s' := by
  refine { h.toRecorded.entry (fun _ _ => trivial) hentry with chained := ?_ }
  obtain ⟨known, lists, derives⟩ := h.lists
  cases hentry with
  | @again r _ _ _ _ hknown =>
    rw [Ledger.records_insert]
    cases s.ledger.contains r with
    | true => exact h.chained
    | false =>
      exact h.chained.append derives (.of_known fun x hx => lists.mem_iff.mpr (hknown x hx))
  | @type ty rule id _ _ _ _ _ new _ =>
    rw [h.records_chained new]
    exact h.chained.append derives (.of_type ty rule)
  | procedure _ _ _ fresh =>
    rw [records_derived fresh]
    exact h.chained.append derives (.of_procedure trivial)
  | @owned p rule id ownerId ok phase closed fresh premises new next owner =>
    have hmove : Move (fun _ => True) [] s (s.derived (.procedure p rule) (.procedure p) id) :=
      .derive ok phase closed fresh premises rfl new next
    rw [(h.toRecorded.move hmove).records_chained owner.2.1, records_derived fresh,
      List.append_assoc]
    exact h.chained.append derives (.of_procedure (.of_type _ _))

theorem quiet (h : Shaped model seeds s) (hquiet : Quiet given s s') :
    Shaped model (seeds ++ given) s' := by
  have recorded := h.toRecorded.move (hquiet.mono fun _ _ => trivial)
  refine { recorded with chained := ?_ }
  cases hquiet with
  | reseed early | seed _ early =>
    have hempty : s.ledger.records = [] := records_of_early early
    show Chained model _ s.ledger.records
    rw [hempty]
    trivial
  | confirm ok | derive ok => cases ok
  | region | «sealed» | bind | validated | reject =>
    rw [List.append_nil]
    exact h.chained

/-- Any operations on a new session that compiles leave it so. -/
theorem of_run {config : Config} {ops : List Operation} {outcomes : List Outcome}
    (run : performAll model ops (Session.forCompile model config) = (outcomes, s)) :
    Shaped model (Operation.givenAll ops outcomes) s := by
  have invariant : Invariant model (fun _ => True) (Shaped model) := ⟨entry, quiet⟩
  have start : Shaped model [] (Session.forCompile model config) :=
    { Recorded.forCompile model _ config with chained := trivial }
  have h := invariant.performAll (fun _ _ => trivial) ops (fun _ _ _ _ => trivial) start
  rw [run] at h
  exact h

end Shaped

/-- Whatever was done to a new session, the sealed list has, right behind the first record of
a type that is neither a seed nor an array, the chain of that type; and in any session on any
program that replays the list to its end, the ID of the type stands for a type whose chain has
the digest it had. -/
theorem validated_types_keep_their_shape {config : Config} {ops : List Operation}
    {outcomes : List Outcome} {records : List SealedRecord} {ty : TypeRef} {id : SymbolId}
    (run : performAll model ops (forCompile model config) = (outcomes, s))
    (sealing : sealRecords s = .ok records s')
    (hid : s.numbering.id? (.type ty) = some id)
    (unseeded : .type ty ∉ seededWith model (Operation.givenAll ops outcomes))
    (plain : model.isArray ty = false) :
    (∃ i r, records[i]? = some r ∧ r.Defines id ∧
      (∀ j r', j < i → records[j]? = some r' → ¬ r'.Defines id) ∧
      records[i + 1]? = some (.check (.chain id (model.chainDigest ty)))) ∧
    ∀ (model' : Model) (t done : Session), validateRecords model' records t = .ok () done →
      ∃ ty', done.numbering.symbolOf? id = some (.type ty') ∧
        model'.chainDigest ty' = model.chainDigest ty := by
  have shaped := Shaped.of_run run
  obtain ⟨known, lists, derives⟩ := shaped.lists
  obtain ⟨phase, closed⟩ := of_sealRecords sealing
  rw [shaped.sealRecords_eq phase closed] at sealing
  cases sealing
  have hlast : .type ty ∈ known := lists.mem_iff.mpr (by rw [hid]; rfl)
  obtain ⟨i, r, hi, hdefined, hbefore, hchain⟩ :=
    shaped.chained.exists_first derives hlast unseeded plain
  have hsealed : (s.ledger.records.map s.numbering.sealed)[i + 1]? =
      some (.check (.chain id (model.chainDigest ty))) := by
    rw [List.getElem?_map, hchain, ← Numbering.idOf_of_id? hid]
    rfl
  refine ⟨⟨i, s.numbering.sealed r, ?_, ?_, fun j r' hj hr' => ?_, hsealed⟩, ?_⟩
  · rw [List.getElem?_map, hi]
    rfl
  · exact Numbering.defines_sealed.mpr ⟨.type ty, hdefined, Numbering.idOf_of_id? hid⟩
  · rw [List.getElem?_map] at hr'
    obtain ⟨live, hlive, rfl⟩ := Option.map_eq_some_iff.mp hr'
    intro hdefines
    obtain ⟨x, hx, hxid⟩ := Numbering.defines_sealed.mp hdefines
    have hmem : x ∈ known := derives.mem_of_mem_operands (List.mem_of_getElem? hlive) x
      (Record.mem_operands_iff.mpr (.inl hx))
    have hsame : x = .type ty :=
      lists.isBijection.eq_of_id? ((Numbering.idOf_eq_iff lists hmem).mp hxid) hid
    exact hbefore j live hj hlive (hsame ▸ hx)
  · intro model' t done replayed
    obtain ⟨c, hc, satisfied⟩ := Model.confirmed_check
      ((replayed_of_validateRecords replayed).confirmed _ (List.mem_of_getElem? hsealed))
    obtain ⟨ty', hty', hchain'⟩ := Option.bind_eq_some_iff.mp hc
    cases hchain'
    exact ⟨ty', Assignment.type_eq_some.mp hty', satisfied⟩

theorem validated_types_keep_their_shape_of_named :
    let model := Model.uniform ⟨0⟩ ⟨1⟩ (some ⟨2⟩) none ⟨List.replicate 32 0, rfl⟩
    let ops : List Operation := [.add (.named (some ⟨2⟩) .system)]
    let run := performAll model ops (forCompile model default)
    ∃ records s' id, sealRecords run.2 = .ok records s' ∧
      run.2.numbering.id? (.type ⟨2⟩) = some id ∧
      .type ⟨2⟩ ∉ seededWith model (Operation.givenAll ops run.1) ∧ model.isArray ⟨2⟩ = false ∧
      (∃ i r, records[i]? = some r ∧ r.Defines id ∧
        (∀ j r', j < i → records[j]? = some r' → ¬ r'.Defines id) ∧
        records[i + 1]? = some (.check (.chain id (model.chainDigest ⟨2⟩)))) ∧
      ∀ (model' : Model) (t done : Session), validateRecords model' records t = .ok () done →
        ∃ ty', done.numbering.symbolOf? id = some (.type ty') ∧
          model'.chainDigest ty' = model.chainDigest ⟨2⟩ := by
  intro model ops run
  have lists : (forCompile model default).numbering.Lists [.type ⟨0⟩, .type ⟨1⟩] :=
    lists_start model default .building
  obtain ⟨id, next, -⟩ := lists.exists_next (by decide)
  have hrun : run.2 = chained model ⟨2⟩ ((forCompile model default).derived
      (.type ⟨2⟩ (.systemByName "T")) (.type ⟨2⟩) id) := by
    show (perform model (.add (.named (some ⟨2⟩) .system)) _).2 = _
    rw [perform, settle_snd]
    refine
      (Recorded.forCompile model (fun _ => True) default).leaves_add_named rfl rfl rfl ?_ ?_ next
    · intro x hx
      cases hx
    · rw [← lists.not_mem_iff]
      decide
  have hid : run.2.numbering.id? (.type ⟨2⟩) = some id := by
    rw [hrun, numbering_chained, id?_derived_self]
  have shaped : Shaped model (Operation.givenAll ops run.1) run.2 := Shaped.of_run rfl
  have phase : run.2.phase = .building := by
    rw [hrun, phase_chained]
    rfl
  have closed : run.2.region.isOpen = false := by
    rw [hrun, region_chained]
    rfl
  have unseeded : .type ⟨2⟩ ∉ seededWith model (Operation.givenAll ops run.1) := by decide
  have sealing := shaped.sealRecords_eq phase closed
  exact ⟨_, _, id, sealing, hid, unseeded, rfl,
    validated_types_keep_their_shape rfl sealing hid unseeded rfl⟩

end Session

end Provenance
