import Provenance.Proofs.Replaying
import Provenance.Proofs.Sealing

/-!
What one session recorded, another confirms. The two may run on different programs: all
that counts is that the second gives to every recorded question the answer of the first, up
to a renaming of symbols. The proof has two halves. A ledger is a derivation, so its sealed
form depends on known IDs only; and the sealed form, read under the renamed numbering, is
the renamed ledger. Together they say that the renamed numbering justifies the sealed list.
-/
namespace Provenance

/-- A renaming of the symbols of one program by those of another, without confusion. -/
structure Embedding (model model' : Model) where
  type : TypeRef → TypeRef
  procedure : ProcRef → ProcRef
  type_injective : Function.Injective type
  procedure_injective : Function.Injective procedure
  type_rootType : type model.rootType = model'.rootType
  type_metaType : type model.metaType = model'.metaType

namespace Embedding

variable {model model' : Model}

def symbol (φ : Embedding model model') : Symbol → Symbol := Operand.map φ.type φ.procedure

def record (φ : Embedding model model') : LiveRecord → LiveRecord :=
  Record.map φ.type φ.procedure

theorem symbol_injective (φ : Embedding model model') : Function.Injective φ.symbol :=
  Operand.map_injective φ.type_injective φ.procedure_injective

/-- Seeded with the renamed symbols, a session knows the renamed symbols in their order. -/
theorem seededWith_map (φ : Embedding model model') (given : List Symbol) :
    Session.seededWith model' (given.map φ.symbol) =
      (Session.seededWith model given).map φ.symbol := by
  have hseeds : Session.seeds model' = (Session.seeds model).map φ.symbol := by
    rw [Session.seeds, ← φ.type_rootType, ← φ.type_metaType]
    rfl
  rw [Session.seededWith, hseeds, ← List.map_append]
  exact foldl_learn_map [] (Session.seeds model ++ given) fun x _ y _ h => φ.symbol_injective h

end Embedding

namespace Numbering

variable {n : Numbering} {known last : List Symbol} {records : List LiveRecord}

theorem idOf_eq_iff (h : n.Lists last) {x : Symbol} (hx : x ∈ last) {id : SymbolId} :
    n.idOf x = id ↔ n.id? x = some id := by
  obtain ⟨other, hother⟩ := Option.isSome_iff_exists.mp (h.mem_iff.mp hx)
  rw [idOf_of_id? hother, hother, Option.some_inj]

theorem defines_sealed {r : LiveRecord} {id : SymbolId} :
    Record.Defines (n.sealed r) id ↔ ∃ x, r.defined = some x ∧ n.idOf x = id := by
  rw [Record.Defines, sealed, Record.defined_map]
  cases r.defined with
  | none => simp
  | some x => simp [symbolId_map_idOf]

/-- The sealed form of a derivation depends on the IDs of known symbols only. -/
theorem Lists.grounded (h : n.Lists last) (derives : Derives known records last) :
    Grounded (fun id => ∃ x ∈ known, n.id? x = some id) (records.map n.sealed) := by
  induction derives with
  | nil known => trivial
  | @cons known last r records premises hrest ih =>
    have hmem : ∀ x, x ∈ r.learned known → x ∈ last := fun x hx => hrest.isPrefix.subset hx
    refine ⟨?_, (Grounded.congr ?_).mp (ih h)⟩
    · intro y hy
      rw [sealed, Record.premises_map] at hy
      obtain ⟨x, hx, rfl⟩ := List.mem_map.mp hy
      have hlearned := (r.prefix_learned known).subset (premises x hx)
      refine ⟨x, premises x hx, (idOf_eq_iff h (hmem x hlearned)).mp ?_⟩
      rw [symbolId_map_idOf]
    · intro id
      rw [defines_sealed]
      constructor
      · rintro ⟨x, hx, hid⟩
        rcases Record.mem_learned.mp hx with hknown | hdefined
        · exact Or.inl ⟨x, hknown, hid⟩
        · exact Or.inr ⟨x, hdefined, idOf_of_id? hid⟩
      · rintro (⟨x, hx, hid⟩ | ⟨x, hx, hid⟩)
        · exact ⟨x, Record.mem_learned.mpr (.inl hx), hid⟩
        · have hlearned := Record.mem_learned.mpr (Or.inr hx : x ∈ known ∨ r.defined = some x)
          exact ⟨x, hlearned, (idOf_eq_iff h (hmem x hlearned)).mp hid⟩

end Numbering

namespace Record

variable {model model' : Model} {n : Numbering} {σ : Assignment}

/-- Read under an assignment that renames, a sealed record is the renamed record. -/
theorem under_sealed (φ : Embedding model model') {r : LiveRecord}
    (h : ∀ x ∈ r.operands, σ (n.idOf x) = some (φ.symbol x)) :
    (n.sealed r).under σ = some (φ.record r) := by
  have ht : ∀ t, .type t ∈ r.operands → σ.type (n.typeId t) = some (φ.type t) :=
    fun t ht => Assignment.type_eq_some.mpr (h _ ht)
  have hp : ∀ p, .procedure p ∈ r.operands →
      σ.procedure (n.procedureId p) = some (φ.procedure p) :=
    fun p hp => Assignment.procedure_eq_some.mpr (h _ hp)
  have hpremise : ∀ x ∈ r.premises, x ∈ r.operands := fun x hx => mem_operands_iff.mpr (.inr hx)
  cases r with
  | type t rule =>
    rw [premises_type] at hpremise
    have hrule := TypeRule.mapM_map_some (fun t h' => ht t (hpremise _ h')) fun p h' =>
      hp p (hpremise _ h')
    have hdefined := ht t (mem_operands_iff.mpr (.inl rfl))
    simp only [Numbering.sealed, Record.map, under, hdefined, hrule]
    rfl
  | procedure p rule =>
    rw [premises_procedure] at hpremise
    have hrule := ProcRule.mapM_map_some (fun t h' => ht t (hpremise _ h')) fun p h' =>
      hp p (hpremise _ h')
    have hdefined := hp p (mem_operands_iff.mpr (.inl rfl))
    simp only [Numbering.sealed, Record.map, under, hdefined, hrule]
    rfl
  | check c =>
    rw [premises_check] at hpremise
    have hc := Check.mapM_map_some (fun t h' => ht t (hpremise _ h')) fun p h' =>
      hp p (hpremise _ h')
    simp only [Numbering.sealed, Record.map, under, hc]
    rfl

end Record

namespace Numbering

variable {model model' : Model} {n n' : Numbering} {known last : List Symbol}
  {records : List LiveRecord} {id : SymbolId}

/-- The IDs of the first symbols are the first IDs. -/
theorem Lists.exists_mem_front_iff (h : n.Lists last) (front : known <+: last) :
    (∃ x ∈ known, n.id? x = some id) ↔ (known[id.toNat - 1]?).isSome := by
  constructor
  · rintro ⟨x, hx, hid⟩
    obtain ⟨i, hi⟩ := List.mem_iff_getElem?.mp hx
    obtain ⟨other, hother, htoNat⟩ := h.id?_of_getElem? (getElem?_of_front front hi)
    rw [hid] at hother
    cases hother
    rw [htoNat, Nat.add_sub_cancel, hi]
    rfl
  · intro hsome
    obtain ⟨x, hx⟩ := Option.isSome_iff_exists.mp hsome
    refine ⟨x, List.mem_of_getElem? hx, ?_⟩
    rw [h.isBijection x id, h.symbolOf?_eq]
    exact getElem?_of_front front hx

variable {φ : Embedding model model'}

/-- Where the table has the first symbols, renamed, the renamed list of all symbols keeps it. -/
theorem Lists.keeps_ofList (h' : n'.Lists (known.map φ.symbol)) (front : known <+: last) :
    (Assignment.ofList (last.map φ.symbol)).Extends n'.symbolOf? := by
  rw [h'.symbolOf?_eq_ofList]
  exact Assignment.ofList_extends (front.map φ.symbol)

theorem Lists.injective_ofList (h : n.Lists last) :
    (Assignment.ofList (last.map φ.symbol)).Injective := by
  apply Assignment.ofList_injective
  exact List.Pairwise.map _ (fun _ _ hne heq => hne (φ.symbol_injective heq)) h.nodup

theorem Lists.grounded_map (h : n.Lists last) (derives : Derives known records last)
    (h' : n'.Lists (known.map φ.symbol)) :
    Grounded (fun id => (n'.symbolOf? id).isSome) (records.map n.sealed) := by
  refine (Grounded.congr ?_).mp (h.grounded derives)
  intro id
  rw [h.exists_mem_front_iff derives.isPrefix, h'.symbolOf?_eq, List.getElem?_map,
    Option.isSome_map]

/-- Read under the renamed list, the sealed form of a record is the renamed record. -/
theorem Lists.under_ofList (h : n.Lists last) (derives : Derives known records last)
    {r : LiveRecord} (hr : r ∈ records) :
    (n.sealed r).under (Assignment.ofList (last.map φ.symbol)) = some (φ.record r) := by
  refine Record.under_sealed φ fun x hx => ?_
  have hmem := derives.mem_of_mem_operands hr x hx
  have hid := h.getElem?_of_id? ((idOf_eq_iff h hmem).mp rfl)
  rw [Assignment.ofList, List.getElem?_map, hid]
  rfl

theorem Lists.justifies (h : n.Lists last) (derives : Derives known records last)
    (h' : n'.Lists (known.map φ.symbol))
    (confirmed : ∀ r ∈ records, model'.Confirms (φ.record r)) :
    Justifies model' n'.symbolOf? (records.map n.sealed)
      (Assignment.ofList (last.map φ.symbol)) where
  injective := h.injective_ofList
  keeps := h'.keeps_ofList derives.isPrefix
  grounded := h.grounded_map derives h'
  confirmed := by
    intro r' hr'
    obtain ⟨r, hr, rfl⟩ := List.mem_map.mp hr'
    exact ⟨φ.record r, h.under_ofList derives hr, confirmed r hr⟩

/-- A derivation defines every ID that is not known from the start. -/
theorem Lists.covered (h : n.Lists last) (derives : Derives known records last)
    {σ : Assignment} (hσ : ∀ id x, known[id.toNat - 1]? = some x → (σ id).isSome)
    (hid : (last[id.toNat - 1]?).isSome) : Covered σ (records.map n.sealed) id := by
  obtain ⟨x, hx⟩ := Option.isSome_iff_exists.mp hid
  have hknown : n.id? x = some id := by
    rw [h.isBijection x id, h.symbolOf?_eq]
    exact hx
  rcases derives.mem_iff.mp (List.mem_of_getElem? hx) with hstart | ⟨r, hr, hdefined⟩
  · have hsome := (h.exists_mem_front_iff derives.isPrefix).mp ⟨x, hstart, hknown⟩
    obtain ⟨y, hy⟩ := Option.isSome_iff_exists.mp hsome
    exact Or.inl (hσ id y hy)
  · exact Or.inr ⟨n.sealed r, List.mem_map_of_mem hr,
      defines_sealed.mpr ⟨x, hdefined, idOf_of_id? hknown⟩⟩

end Numbering

namespace Session

variable {model model' : Model} {s t : Session}

/-- A replay that comes to its end, and never knew anything but the renamed list, knows all of
it in the end. -/
theorem symbolOf?_of_replay {φ : Embedding model model'} {n : Numbering}
    {known last : List Symbol} {records : List LiveRecord} {index : Nat} {done : Session}
    (lists : n.Lists last) (derives : Derives known records last) (phase : t.phase = .loading)
    (lists' : t.numbering.Lists (known.map φ.symbol))
    (replayed : replay model' index (records.map n.sealed) t = .ok () done)
    (keeps : (Assignment.ofList (last.map φ.symbol)).Extends done.numbering.symbolOf?) :
    done.numbering.symbolOf? = Assignment.ofList (last.map φ.symbol) := by
  obtain ⟨-, -, -, hcovered⟩ := justifies_of_replay phase lists'.isBijection replayed
  funext id
  by_cases hid : (done.numbering.symbolOf? id).isSome
  · exact keeps.eq_of_isSome hid
  · have hnone : last[id.toNat - 1]? = none := by
      rw [← Option.not_isSome_iff_eq_none]
      intro hsome
      rw [hcovered] at hid
      refine hid (lists.covered derives ?_ hsome)
      intro other x hx
      rw [lists'.symbolOf?_eq, List.getElem?_map, hx]
      rfl
    rw [Option.not_isSome_iff_eq_none.mp hid, Assignment.ofList, List.getElem?_map, hnone]
    rfl

/-- A session that knows the renamed seeds confirms a sealed derivation, and then knows what
the other session knew, renamed. -/
theorem replay_of_derives (φ : Embedding model model') {n : Numbering}
    {known last : List Symbol} {records : List LiveRecord} (lists : n.Lists last)
    (derives : Derives known records last)
    (confirmed : ∀ r ∈ records, model'.Confirms (φ.record r)) (phase : t.phase = .loading)
    (lists' : t.numbering.Lists (known.map φ.symbol)) :
    ∃ done, validateRecords model' (records.map n.sealed) t = .ok () done ∧
      done.phase = .validated ∧ done.numbering.IsBijection ∧
      done.numbering.symbolOf? = Assignment.ofList (last.map φ.symbol) := by
  have justifies := lists.justifies derives lists' confirmed
  obtain ⟨done, hreplay, keeps⟩ := replay_of_justifies phase lists'.isBijection justifies
  obtain ⟨_, bijection, heq, _⟩ := justifies_of_replay phase lists'.isBijection hreplay
  refine ⟨done, ?_, by rw [heq], bijection, ?_⟩
  · rw [validateRecords_of_loading phase]
    exact hreplay
  · exact symbolOf?_of_replay lists derives phase lists' hreplay keeps

/-- Seeded with the renamed symbols in the same order, a session that loads gives them the IDs
that the symbols have in the session that compiled. -/
theorem seeds_again (φ : Embedding model model') (config' : Config) {n : Numbering}
    {given last : List Symbol} (lists : n.Lists last) (front : seededWith model given <+: last) :
    ∃ seeded, performAll model' (given.map fun x => .seed (φ.symbol x)) (forLoad model' config') =
        (given.map fun x => .id (n.id? x), seeded) ∧
      seeded.phase = .loading ∧
      seeded.numbering.Lists ((seededWith model given).map φ.symbol) := by
  have hfold : (given.map φ.symbol).foldl learn (seededWith model' []) =
      (seededWith model given).map φ.symbol := by
    rw [← φ.seededWith_map]
    simp [seededWith]
  -- The second session can take the seeds, for the first one could.
  have room : ((given.map φ.symbol).foldl learn (seededWith model' [])).length ≤ 65535 := by
    rw [hfold, List.length_map]
    exact Nat.le_trans front.length_le lists.length_le
  have hstart : Seedable (forLoad model' config') (seededWith model' []) :=
    seedable_start model' config' (by decide)
  obtain ⟨seeded, hseeds, hphase, hseedable⟩ := seeds_of_seedable model' _ hstart room
  have lists' := hseedable.lists
  rw [hfold] at lists'
  refine ⟨seeded, ?_, hphase, lists'⟩
  rw [List.map_map, List.map_map] at hseeds
  refine hseeds.trans (congrArg (·, seeded) ?_)
  refine List.map_congr_left fun x hx => congrArg Outcome.id ?_
  have hmem : x ∈ seededWith model given := mem_foldl_learn.mpr (.inr (List.mem_append_right _ hx))
  obtain ⟨i, hi⟩ := List.mem_iff_getElem?.mp hmem
  exact lists.id?_map front lists' hi

/-- Whatever a session on one program records, if it was only told what the program answers,
a session on another program confirms, where that answers to the recorded questions the
renamed answers. Seeded with the renamed symbols in the same order it gives them the same
IDs, and after the replay it knows exactly the renamed symbols under the same IDs. -/
theorem recorded_is_confirmed (φ : Embedding model model') {config config' : Config}
    {ops : List Operation} {outcomes : List Outcome}
    (run : performAll model ops (forCompile model config) = (outcomes, s))
    (answered : ∀ d, .add d ∈ Operation.atomsAll ops →
      ∀ r, d.record? model = some r → model.Confirms r)
    (agrees : ∀ r ∈ s.ledger.records, model.Confirms r → model'.Confirms (φ.record r))
    (phase : s.phase = .building) (closed : s.region.isOpen = false) :
    ∃ records seeded done,
      sealRecords s = .ok records { s with phase := .sealed } ∧
      performAll model' ((Operation.givenAll ops outcomes).map fun x => .seed (φ.symbol x))
          (forLoad model' config') =
        ((Operation.givenAll ops outcomes).map fun x => .id (s.numbering.id? x), seeded) ∧
      validateRecords model' records seeded = .ok () done ∧ done.phase = .validated ∧
      (∀ id, done.numbering.symbolOf? id = (s.numbering.symbolOf? id).map φ.symbol) ∧
      ∀ y id, done.numbering.id? y = some id ↔
        ∃ x, φ.symbol x = y ∧ s.numbering.id? x = some id := by
  have hrecords := Records.of_run (fun _ h => h) answered run
  obtain ⟨last, lists, derives⟩ := hrecords.lists
  have front := derives.isPrefix
  have confirmed : ∀ r ∈ s.ledger.records, model'.Confirms (φ.record r) := by
    intro r hr
    exact agrees r hr (hrecords.allowed r hr)
  obtain ⟨seeded, hseeds, hphase, lists'⟩ := seeds_again φ config' lists front
  obtain ⟨done, hdone, hvalidated, bijection, htable⟩ :=
    replay_of_derives φ lists derives confirmed hphase lists'
  have hsymbol : ∀ id, done.numbering.symbolOf? id = (s.numbering.symbolOf? id).map φ.symbol := by
    intro id
    rw [htable, lists.symbolOf?_eq, Assignment.ofList, List.getElem?_map]
  refine ⟨_, seeded, done, hrecords.sealRecords_eq phase closed, hseeds, hdone, hvalidated,
    hsymbol, ?_⟩
  intro y id
  rw [bijection y id, hsymbol, Option.map_eq_some_iff]
  constructor
  · rintro ⟨x, hx, rfl⟩
    exact ⟨x, rfl, (lists.isBijection x id).mpr hx⟩
  · rintro ⟨x, rfl, hx⟩
    exact ⟨x, (lists.isBijection x id).mp hx, rfl⟩

/-- Two programs with one answer to everything agree if these answers do. -/
theorem uniform_agrees {top top' class_ class' : TypeRef} {t t' : Option TypeRef}
    {p p' : Option ProcRef} {digest : Digest}
    (φ : Embedding (Model.uniform top class_ t p digest) (Model.uniform top' class' t' p' digest))
    (ht : ∀ u, t = some u → t' = some (φ.type u))
    (hp : ∀ q, p = some q → p' = some (φ.procedure q)) {r : LiveRecord}
    (h : (Model.uniform top class_ t p digest).Confirms r) :
    (Model.uniform top' class' t' p' digest).Confirms (φ.record r) := by
  cases r with
  | type u rule =>
    cases rule with
    | componentOf | arrayOf => cases h
    | ownerOf =>
      cases h
      exact congrArg some φ.type_rootType.symm
    | metaOf =>
      cases h
      exact congrArg some φ.type_metaType.symm
    | _ => exact ht u h
  | procedure q rule => cases rule <;> exact hp q h
  | check c => cases c <;> exact h

theorem recorded_is_confirmed_elsewhere :
    let model := Model.uniform ⟨0⟩ ⟨1⟩ (some ⟨2⟩) (some ⟨0⟩) ⟨List.replicate 32 0, rfl⟩
    let model' := Model.uniform ⟨7⟩ ⟨8⟩ (some ⟨9⟩) (some ⟨4⟩) ⟨List.replicate 32 0, rfl⟩
    let ops : List Operation :=
      [.add (.named (some ⟨2⟩) (.seenBy ⟨0⟩)), .add (.signed (some ⟨0⟩) ⟨2⟩ ⟨0⟩)]
    let run := performAll model ops (forCompile model default)
    run.2.phase = .building ∧ run.2.region.isOpen = false ∧
      ∃ φ : Embedding model model', ∃ records seeded done,
        sealRecords run.2 = .ok records { run.2 with phase := .sealed } ∧
        performAll model' ((Operation.givenAll ops run.1).map fun x => .seed (φ.symbol x))
            (forLoad model' default) =
          ((Operation.givenAll ops run.1).map fun x => .id (run.2.numbering.id? x), seeded) ∧
        validateRecords model' records seeded = .ok () done ∧ done.phase = .validated ∧
        (∀ id, done.numbering.symbolOf? id = (run.2.numbering.symbolOf? id).map φ.symbol) ∧
        ∀ y id, done.numbering.id? y = some id ↔
          ∃ x, φ.symbol x = y ∧ run.2.numbering.id? x = some id := by
  intro model model' ops run
  have grows : Grows (fun _ => True) (forCompile model default) run.2 :=
    adds_grow model [.named (some ⟨2⟩) (.seenBy ⟨0⟩), .signed (some ⟨0⟩) ⟨2⟩ ⟨0⟩] _
  have phase : run.2.phase = .building := grows.phase
  have closed : run.2.region.isOpen = false := by
    rw [grows.region]
    rfl
  let φ : Embedding model model' :=
    { type := fun t => ⟨t.index + 7⟩
      procedure := fun p => ⟨p.index + 4⟩
      type_injective := fun t u h => by
        cases t
        cases u
        simpa using h
      procedure_injective := fun p q h => by
        cases p
        cases q
        simpa using h
      type_rootType := rfl
      type_metaType := rfl }
  refine ⟨phase, closed, φ, recorded_is_confirmed φ rfl ?_ ?_ phase closed⟩
  · intro d hd r hr
    have hcases : d = .named (some ⟨2⟩) (.seenBy ⟨0⟩) ∨ d = .signed (some ⟨0⟩) ⟨2⟩ ⟨0⟩ := by
      simpa [ops, Operation.atomsAll, Operation.atoms] using hd
    rcases hcases with rfl | rfl
    · have hbase : model.baseComponent ⟨2⟩ = (⟨2⟩, 0) := Model.baseComponent_of_none model rfl
      simp only [Discovery.record?, hbase] at hr
      cases hr
      rfl
    · cases hr
      rfl
  · intro r _ h
    refine uniform_agrees φ ?_ ?_ h
    · rintro u ⟨⟩
      rfl
    · rintro q ⟨⟩
      rfl

end Session

end Provenance
