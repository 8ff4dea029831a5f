import Provenance.Proofs.Derivation

/-!
What sealing returns. Once every symbol of the ledger has an ID, sealing succeeds and
replaces symbols by their IDs. As the numbering gives out IDs in the order in which the
ledger derives symbols, the sealed list is in canonical order: whoever reads it from the
front meets each ID only after the IDs it depends on, and new IDs in increasing order.
-/
namespace Provenance

/-- Whether an ID stands in a place for the category that it has among known IDs. The known
IDs are those from one on, and have the categories of the list. -/
def Names (known : List Category) (x : Operand SymbolId SymbolId) : Prop :=
  known[x.symbolId.toNat - 1]? = some x.category

/-- Sealed records that lead, from the categories of the IDs known before them, to those of
the IDs known after them. Each record depends on known IDs only, and either checks them, or
derives a known ID once more, or gives the ID that follows the known ones. -/
inductive Canonical : List Category → List SealedRecord → List Category → Prop where
  | nil (known : List Category) : Canonical known [] known
  | check {known last : List Category} {c : Check SymbolId SymbolId}
      {records : List SealedRecord} (premises : ∀ x ∈ (Record.check c).premises, Names known x)
      (rest : Canonical known records last) : Canonical known (.check c :: records) last
  | again {known last : List Category} {r : SealedRecord} {x : Operand SymbolId SymbolId}
      {records : List SealedRecord} (premises : ∀ y ∈ r.premises, Names known y)
      (defined : r.defined = some x) (old : Names known x)
      (rest : Canonical known records last) : Canonical known (r :: records) last
  | next {known last : List Category} {r : SealedRecord} {x : Operand SymbolId SymbolId}
      {records : List SealedRecord} (premises : ∀ y ∈ r.premises, Names known y)
      (defined : r.defined = some x) (new : x.symbolId.toNat = known.length + 1)
      (rest : Canonical (known ++ [x.category]) records last) :
      Canonical known (r :: records) last

namespace Numbering

variable {n : Numbering} {x : Symbol} {id : SymbolId} {known last : List Symbol}

/-- The ID of a symbol that has one. -/
def idOf (n : Numbering) (x : Symbol) : SymbolId := (n.id? x).getD .first

def typeId (n : Numbering) (t : TypeRef) : SymbolId := n.idOf (.type t)

def procedureId (n : Numbering) (p : ProcRef) : SymbolId := n.idOf (.procedure p)

/-- A record with every symbol replaced by its ID. -/
def sealed (n : Numbering) (r : LiveRecord) : SealedRecord := r.map n.typeId n.procedureId

theorem kind_sealed (n : Numbering) (r : LiveRecord) : (n.sealed r).kind = r.kind :=
  Record.kind_map n.typeId n.procedureId r

theorem idOf_of_id? (h : n.id? x = some id) : n.idOf x = id := by
  rw [idOf, h]
  rfl

theorem symbolId_map_idOf (n : Numbering) (x : Symbol) :
    (x.map n.typeId n.procedureId).symbolId = n.idOf x := by
  cases x <;> rfl

namespace Lists

theorem toNat_idOf_of_getElem? (h : n.Lists last) {i : Nat} (hi : last[i]? = some x) :
    (n.idOf x).toNat = i + 1 := by
  obtain ⟨id, hid, htoNat⟩ := h.id?_of_getElem? hi
  rw [idOf_of_id? hid, htoNat]

theorem names_of_mem (h : n.Lists last) (front : known <+: last) (hx : x ∈ known) :
    Names (known.map Operand.category) (x.map n.typeId n.procedureId) := by
  obtain ⟨i, hi⟩ := List.mem_iff_getElem?.mp hx
  have hid := h.toNat_idOf_of_getElem? (getElem?_of_front front hi)
  rw [Names, symbolId_map_idOf, hid, Operand.category_map, Nat.add_sub_cancel,
    List.getElem?_map, hi]
  rfl

/-- The first symbol that is not known has the ID after the known ones. -/
theorem toNat_idOf_of_front (h : n.Lists last) (front : known ++ [x] <+: last) :
    (n.idOf x).toNat = known.length + 1 := by
  refine h.toNat_idOf_of_getElem? ?_
  obtain ⟨more, rfl⟩ := front
  simp

theorem canonical (h : n.Lists last) {records : List LiveRecord}
    (derives : Derives known records last) :
    Canonical (known.map Operand.category) (records.map n.sealed)
      (last.map Operand.category) := by
  induction derives with
  | nil known => exact Canonical.nil _
  | @cons known last r records premises hrest ih =>
    have hknown : known <+: last := (r.prefix_learned known).trans hrest.isPrefix
    have hpremises : ∀ y ∈ (n.sealed r).premises, Names (known.map Operand.category) y := by
      intro y hy
      rw [sealed, Record.premises_map] at hy
      obtain ⟨x, hx, rfl⟩ := List.mem_map.mp hy
      exact h.names_of_mem hknown (premises x hx)
    have hdefined := Record.defined_map n.typeId n.procedureId r
    cases hr : r.defined with
    | none =>
      cases r with
      | type | procedure => cases hr
      | check c => exact Canonical.check hpremises (ih h)
    | some x =>
      rw [hr] at hdefined
      have hlearned : r.learned known = learn known x := by
        rw [Record.learned, hr]
      rw [hlearned] at ih hrest
      by_cases hx : x ∈ known
      · rw [learn_of_mem hx] at ih
        exact Canonical.again hpremises hdefined (h.names_of_mem hknown hx) (ih h)
      · rw [learn_of_not_mem hx] at ih hrest
        refine Canonical.next hpremises hdefined ?_ ?_
        · rw [symbolId_map_idOf, List.length_map]
          exact h.toNat_idOf_of_front hrest.isPrefix
        · rw [Operand.category_map]
          simpa using ih h

theorem categoryOf?_eq (h : n.Lists last) (id : SymbolId) :
    n.categoryOf? id = (last.map Operand.category)[id.toNat - 1]? := by
  rw [categoryOf?, h.symbolOf?_eq, List.getElem?_map]

end Lists

end Numbering

namespace Session

variable {s : Session}

theorem seal?_of_known {r : LiveRecord} (h : ∀ x ∈ r.operands, (s.numbering.id? x).isSome) :
    s.seal? r = some (s.numbering.sealed r) := by
  have hid : ∀ x ∈ r.operands, s.numbering.id? x = some (s.numbering.idOf x) := by
    intro x hx
    obtain ⟨id, hid⟩ := Option.isSome_iff_exists.mp (h x hx)
    rw [Numbering.idOf_of_id? hid, hid]
  exact Record.mapM_of_some (fun t ht => hid _ ht) fun p hp => hid _ hp

theorem mapM_seal?_of_known {records : List LiveRecord}
    (h : ∀ r ∈ records, ∀ x ∈ r.operands, (s.numbering.id? x).isSome) :
    records.mapM s.seal? = some (records.map s.numbering.sealed) := by
  induction records with
  | nil => rfl
  | cons r records ih =>
    rw [List.mapM_cons, seal?_of_known (h r List.mem_cons_self),
      ih fun r' hr' => h r' (List.mem_cons_of_mem r hr')]
    rfl

/-- A session that records seals all of its ledger. -/
theorem Records.sealRecords_eq {model : Model} {allowed : LiveRecord → Prop}
    {seeds : List Symbol} (h : Records model allowed seeds s) (phase : s.phase = .building)
    (closed : s.region.isOpen = false) :
    sealRecords s =
      .ok (s.ledger.records.map s.numbering.sealed) { s with phase := .sealed } := by
  obtain ⟨known, lists, derives⟩ := h.lists
  refine sealRecords_of_some phase closed (mapM_seal?_of_known ?_)
  intro r hr x hx
  exact lists.mem_iff.mp (derives.mem_of_mem_operands hr x hx)

/-- Whatever was done to a new session, if it may be sealed then sealing succeeds, and the
list is in canonical order. What is known at first are the seeds, with the first IDs in
their order; what is known in the end are all IDs given out. -/
theorem sealed_in_canonical_order {model : Model} {config : Config} {ops : List Operation}
    {outcomes : List Outcome}
    (run : performAll model ops (forCompile model config) = (outcomes, s))
    (phase : s.phase = .building) (closed : s.region.isOpen = false) :
    ∃ records last, sealRecords s = .ok records { s with phase := .sealed } ∧
      Canonical ((seededWith model (Operation.givenAll ops outcomes)).map Operand.category)
        records last ∧
      (∀ i x, (seededWith model (Operation.givenAll ops outcomes))[i]? = some x →
        ∃ id, s.numbering.id? x = some id ∧ id.toNat = i + 1) ∧
      ∀ id, s.numbering.categoryOf? id = last[id.toNat - 1]? := by
  have hrecords : Records model (fun _ => True) (Operation.givenAll ops outcomes) s :=
    Records.of_run (fun _ _ => trivial) (fun _ _ _ _ => trivial) run
  obtain ⟨known, lists, derives⟩ := hrecords.lists
  refine ⟨s.ledger.records.map s.numbering.sealed, known.map Operand.category,
    hrecords.sealRecords_eq phase closed, lists.canonical derives, ?_, lists.categoryOf?_eq⟩
  intro i x hi
  exact lists.id?_of_getElem? (getElem?_of_front derives.isPrefix hi)

theorem sealed_in_canonical_order_of_named :
    let model := Model.uniform ⟨0⟩ ⟨1⟩ (some ⟨2⟩) none ⟨List.replicate 32 0, rfl⟩
    let ops : List Operation := [.add (.named (some ⟨2⟩) (.seenBy ⟨0⟩)), .add (.named none .system)]
    let run := performAll model ops (forCompile model default)
    run.2.phase = .building ∧ run.2.region.isOpen = false ∧
      ∃ records last, sealRecords run.2 = .ok records { run.2 with phase := .sealed } ∧
        Canonical ((seededWith model (Operation.givenAll ops run.1)).map Operand.category)
          records last ∧
        (∀ i x, (seededWith model (Operation.givenAll ops run.1))[i]? = some x →
          ∃ id, run.2.numbering.id? x = some id ∧ id.toNat = i + 1) ∧
        ∀ id, run.2.numbering.categoryOf? id = last[id.toNat - 1]? := by
  intro model ops run
  have grows : Grows (fun _ => True) (forCompile model default) run.2 :=
    adds_grow model [.named (some ⟨2⟩) (.seenBy ⟨0⟩), .named none .system] _
  have phase : run.2.phase = .building := grows.phase
  have closed : run.2.region.isOpen = false := by
    rw [grows.region]
    rfl
  exact ⟨phase, closed, sealed_in_canonical_order rfl phase closed⟩

theorem performAll_cons (model : Model) (op : Operation) (ops : List Operation) (s : Session) :
    performAll model (op :: ops) s =
      ((perform model op s).1 :: (performAll model ops (perform model op s).2).1,
        (performAll model ops (perform model op s).2).2) := rfl

theorem performAll_append (model : Model) (ops more : List Operation) (s : Session) :
    performAll model (ops ++ more) s =
      ((performAll model ops s).1 ++ (performAll model more (performAll model ops s).2).1,
        (performAll model more (performAll model ops s).2).2) := by
  induction ops generalizing s with
  | nil => rfl
  | cons op ops ih =>
    rw [List.cons_append, performAll_cons, ih, performAll_cons]
    rfl

theorem region_of_seeds (model : Model) (given : List Symbol) (s : Session) :
    (performAll model (given.map .seed) s).2.region = s.region := by
  induction given generalizing s with
  | nil => rfl
  | cons x given ih =>
    have hfirst : (perform model (.seed x) s).2.region = s.region := by
      rw [perform, settle_snd]
      rcases leaves_seed_cases x s with heq | ⟨id, -, heq⟩ <;> rw [heq]
    exact (ih _).trans hfirst

theorem givenAll_of_seeds (given : List Symbol) (ids : Symbol → SymbolId)
    (discoveries : List Discovery) (outcomes : List Outcome) :
    Operation.givenAll (given.map .seed ++ discoveries.map .add)
      ((given.map fun x => .id (some (ids x))) ++ outcomes) = given := by
  induction given with
  | nil =>
    induction discoveries generalizing outcomes with
    | nil => cases outcomes <;> rfl
    | cons d discoveries ih =>
      cases outcomes with
      | nil => rfl
      | cons o outcomes => simpa [Operation.givenAll, Operation.given] using ih outcomes
  | cons x given ih => simpa [Operation.givenAll, Operation.given] using ih

/-- As long as there are IDs for the seeds, such a run can be sealed. -/
theorem seeded_and_reported (model : Model) (config : Config) (given : List Symbol)
    (discoveries : List Discovery) (room : (seededWith model given).length ≤ 65535) :
    let ops := given.map Operation.seed ++ discoveries.map .add
    let run := performAll model ops (forCompile model config)
    run.2.phase = .building ∧ run.2.region.isOpen = false ∧
      Operation.givenAll ops run.1 = given := by
  intro ops run
  have hfold : seededWith model given = given.foldl learn (seededWith model []) := by
    simp [seededWith]
  rw [hfold] at room
  obtain ⟨seeded, hseeds, hphase, seedable⟩ := seeds_of_seedable model given
    (seedable_start model config (by decide : Phase.building ∈ _)) room
  have hregion := region_of_seeds model given (forCompile model config)
  have hrun : run = _ := performAll_append model (given.map .seed) (discoveries.map .add) _
  rw [forCompile, hseeds] at hrun hregion
  have grows := adds_grow model discoveries seeded
  have hids : (given.map fun x => Outcome.id (seeded.numbering.id? x)) =
      given.map fun x => .id (some (seeded.numbering.idOf x)) := by
    refine List.map_congr_left fun x hx => ?_
    have hmem : x ∈ given.foldl learn (seededWith model []) := mem_foldl_learn.mpr (.inr hx)
    obtain ⟨id, hid⟩ := Option.isSome_iff_exists.mp (seedable.lists.mem_iff.mp hmem)
    rw [Numbering.idOf_of_id? hid, hid]
  rw [hrun]
  refine ⟨grows.phase.trans hphase, ?_, ?_⟩
  · rw [grows.region, hregion]
    rfl
  · rw [hids]
    exact givenAll_of_seeds given seeded.numbering.idOf discoveries _

end Session

end Provenance
