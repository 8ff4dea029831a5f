import Provenance.Proofs.Drift
import Provenance.Proofs.RoundTrip
import Provenance.Proofs.Stability

/-!
Replaying on a world that has grown. A record that speculates on the whole hierarchy, or on
marks, may not hold any more; every other record holds as before. No ID comes to stand for
another symbol, however far the replay gets.
-/
namespace Provenance

namespace Kind

/-- The kinds of records that growth may refute. -/
def speculative : List Kind :=
  [concreteSubtypeFromType, procedureFromSingleImplementer,
    procedureFromSingleInterfaceImplementer, procedureFromSingleAbstractImplementer,
    stackWalkerMaySkipFrames, typeInitialization]

end Kind

/-- The second answer is the first one or is missing, if the first one was an answer. -/
def KeptOrLost {α : Type} (first second : Option α) : Prop :=
  ∀ a, first = some a → second = some a ∨ second = none

theorem KeptOrLost.none {α : Type} {second : Option α} : KeptOrLost none second :=
  fun _ ha => by cases ha

/-- What is asked on top of an answer that is kept. -/
theorem Kept.bind_orLost {α β : Type} {first second : Option α} {f g : α → Option β}
    (h : Kept first second) (hf : ∀ a, first = some a → KeptOrLost (f a) (g a)) :
    KeptOrLost (first.bind f) (second.bind g) := by
  intro b hb
  obtain ⟨a, ha, hfa⟩ := Option.bind_eq_some_iff.mp hb
  rw [h a ha]
  exact hf a ha b hfa

/-- Whether the model has no answer to the query that a record names, or the record states of
known symbols what does not hold. -/
def Model.Denies (model : Model) : LiveRecord → Prop
  | .type _ rule => model.typeOf rule = none
  | .procedure _ rule => model.procedureOf rule = none
  | .check c => ¬model.Satisfies c

namespace World

variable {w w' : World} {t s : TypeRef} {p q : ProcRef} {slot index : UInt32}

/-- Where more are asked, the answer that all gave is given again by all or by all no more. -/
theorem keptOrLost_unanimous {answers answers' : List (Option ProcRef)}
    (front : answers <+: answers') : KeptOrLost (unanimous answers) (unanimous answers') := by
  obtain ⟨more, rfl⟩ := front
  cases answers with
  | nil =>
    intro p hp
    cases hp
  | cons first rest =>
    intro p hp
    rw [unanimous] at hp
    rw [List.cons_append, unanimous]
    split at hp
    · split
      · exact .inl hp
      · exact .inr rfl
    · cases hp

namespace Extends

theorem typeRefs_isPrefix (e : w'.Extends w) : w.typeRefs <+: w'.typeRefs := by
  obtain ⟨more, hmore⟩ := Nat.exists_eq_add_of_le e.types
  rw [typeRefs, typeRefs, hmore, List.range_add]
  exact (List.prefix_append _ _).map _

/-- The concrete types below a type are still below it, and new ones come after them. -/
theorem concreteSubtypes_isPrefix (e : w'.Extends w) (h : w.WellFormed) (ht : w.Has (.type t)) :
    w.concreteSubtypes t <+: w'.concreteSubtypes t := by
  have hsame : w.concreteSubtypes t =
      w.typeRefs.filter fun s => (w'.typeDecl s).isConcrete && w'.isSubtype s t := by
    refine List.filter_congr fun s hs => ?_
    obtain ⟨i, hi, rfl⟩ := List.mem_map.mp hs
    have hhas : w.Has (.type ⟨i⟩) := List.mem_range.mp hi
    rw [e.isSubtype_eq h hhas ht, (e.typeDecl ⟨i⟩ hhas).eq]
    rfl
  rw [hsame]
  exact e.typeRefs_isPrefix.filter _

theorem keptOrLost_singleConcreteSubtype (e : w'.Extends w) (h : w.WellFormed)
    (ht : w.Has (.type t)) :
    KeptOrLost (w.singleConcreteSubtype t) (w'.singleConcreteSubtype t) := by
  intro s hs
  rw [singleConcreteSubtype] at hs
  split at hs
  · rename_i u hsubtypes
    cases hs
    obtain ⟨more, hmore⟩ := e.concreteSubtypes_isPrefix h ht
    rw [singleConcreteSubtype, ← hmore, hsubtypes]
    cases more with
    | nil => exact .inl rfl
    | cons => exact .inr rfl
  · cases hs

theorem keptOrLost_uniqueImplementation (e : w'.Extends w) (h : w.WellFormed)
    (ht : w.Has (.type t)) {lookup lookup' : TypeRef → Option ProcRef}
    (same : ∀ s, w.Has (.type s) → lookup' s = lookup s)
    (had : ∀ s p, lookup s = some p → w.Has (.procedure p)) :
    KeptOrLost (w.uniqueImplementation t lookup) (w'.uniqueImplementation t lookup') := by
  intro p hp
  obtain ⟨s, -, hs⟩ := WellFormed.lookup_of_uniqueImplementation hp
  obtain ⟨hunanimous, hconcrete⟩ := Option.filter_eq_some_iff.mp hp
  have hanswers : (w.concreteSubtypes t).map lookup = (w.concreteSubtypes t).map lookup' :=
    List.map_congr_left fun u hu => (same u (WellFormed.has_of_mem_concreteSubtypes hu)).symm
  have front : (w.concreteSubtypes t).map lookup <+: (w'.concreteSubtypes t).map lookup' := by
    rw [hanswers]
    exact (e.concreteSubtypes_isPrefix h ht).map lookup'
  rw [uniqueImplementation]
  rcases keptOrLost_unanimous front p hunanimous with hkept | hlost
  · refine .inl (Option.filter_eq_some_iff.mpr ⟨hkept, ?_⟩)
    rw [e.isAbstract_eq (had s p hs)]
    exact hconcrete
  · rw [hlost]
    exact .inr rfl

theorem keptOrLost_singleImplementer (e : w'.Extends w) (h : w.WellFormed)
    (ht : w.Has (.type t)) :
    KeptOrLost (w.singleImplementer t slot) (w'.singleImplementer t slot) :=
  e.keptOrLost_uniqueImplementation h ht (fun _ hs => e.slotOf_eq hs) fun s p hp =>
    (h.covers s).vtable p (List.mem_of_getElem? hp)

theorem keptOrLost_singleAbstractImplementer (e : w'.Extends w) (h : w.WellFormed)
    (ht : w.Has (.type t)) :
    KeptOrLost (w.singleAbstractImplementer t slot) (w'.singleAbstractImplementer t slot) := by
  rw [singleAbstractImplementer, singleAbstractImplementer, (e.typeDecl t ht).eq]
  split
  · exact .none
  · refine Kept.bind_orLost (.of_eq (e.slotOf_eq ht)) fun p hp => ?_
    rw [e.isAbstract_eq ((h.covers t).vtable p (List.mem_of_getElem? hp))]
    split
    · exact .none
    · exact e.keptOrLost_singleImplementer h ht

theorem keptOrLost_singleInterfaceImplementer (e : w'.Extends w) (h : w.WellFormed)
    (ht : w.Has (.type t)) (hq : w.Has (.procedure q)) :
    KeptOrLost (w.singleInterfaceImplementer t index q)
      (w'.singleInterfaceImplementer t index q) := by
  rw [singleInterfaceImplementer, singleInterfaceImplementer, (e.typeDecl t ht).eq,
    e.procDecl q hq]
  split
  · exact .none
  · refine (e.kept_entry (h.owner q)).bind_orLost fun entry _ => ?_
    split
    · exact e.keptOrLost_uniqueImplementation h ht
        (fun s hs => e.findProcedure_eq h hs _ fun _ _ => rfl) fun s p hp => h.has_findProcedure hp
    · exact .none

theorem typeOf_again (e : w'.Extends w) (h : w.WellFormed) {rule : TypeRule TypeRef ProcRef}
    (had : ∀ x ∈ rule.operands, w.Has x) (ht : w.model.typeOf rule = some t) :
    w'.model.typeOf rule = some t ∨
      rule.kind ∈ Kind.speculative ∧ w'.model.typeOf rule = none := by
  cases rule with
  | concreteSubtypeOf =>
    have hspeculative : Kind.concreteSubtypeFromType ∈ Kind.speculative := by decide
    exact (e.keptOrLost_singleConcreteSubtype h (had _ List.mem_cons_self) t ht).imp id
      (And.intro hspeculative)
  | byName => exact .inl (e.kept_typeByName h (had _ List.mem_cons_self) t ht)
  | profiled => exact .inl (e.kept_typeByChain h t ht)
  | systemByName => exact .inl (e.kept_systemTypeByName h t ht)
  | fromEntry => exact .inl (e.kept_entryType h (had _ List.mem_cons_self) t ht)
  | definingFromEntry => exact .inl (e.kept_entryDefiningType h (had _ List.mem_cons_self) t ht)
  | staticFromEntry => exact .inl (e.kept_entryStaticType h (had _ List.mem_cons_self) t ht)
  | fromDispatchEntry => exact .inl (e.kept_entryDispatchType h (had _ List.mem_cons_self) t ht)
  | declaringField => exact .inl (e.kept_entryDeclaringType h (had _ List.mem_cons_self) t ht)
  | ownerOf p => exact .inl ((congrArg some (e.owner_eq (had _ List.mem_cons_self))).trans ht)
  | componentOf => exact .inl ((e.component_eq (had _ List.mem_cons_self)).trans ht)
  | superOf => exact .inl ((e.superType_eq (had _ List.mem_cons_self)).trans ht)
  | arrayOf u => exact .inl ((e.typeDecl u (had _ List.mem_cons_self)).array t ht)
  | metaOf => exact .inl ht

theorem procedureOf_again (e : w'.Extends w) (h : w.WellFormed)
    {rule : ProcRule TypeRef ProcRef} (had : ∀ x ∈ rule.operands, w.Has x)
    (hp : w.model.procedureOf rule = some p) :
    w'.model.procedureOf rule = some p ∨
      rule.kind ∈ Kind.speculative ∧ w'.model.procedureOf rule = none := by
  cases rule with
  | singleImplementer =>
    have hspeculative : Kind.procedureFromSingleImplementer ∈ Kind.speculative := by decide
    exact (e.keptOrLost_singleImplementer h (had _ List.mem_cons_self) p hp).imp id
      (And.intro hspeculative)
  | singleInterfaceImplementer =>
    have hspeculative : Kind.procedureFromSingleInterfaceImplementer ∈ Kind.speculative := by
      decide
    exact (e.keptOrLost_singleInterfaceImplementer h (had _ List.mem_cons_self)
      (had _ (List.mem_cons_of_mem _ List.mem_cons_self)) p hp).imp id (And.intro hspeculative)
  | singleAbstractImplementer =>
    have hspeculative : Kind.procedureFromSingleAbstractImplementer ∈ Kind.speculative := by
      decide
    exact (e.keptOrLost_singleAbstractImplementer h (had _ List.mem_cons_self) p hp).imp id
      (And.intro hspeculative)
  | declaredBy => exact .inl ((e.procedureAt_eq (had _ List.mem_cons_self)).trans hp)
  | staticFromEntry | specialFromEntry | virtualFromEntry =>
    exact .inl (e.kept_entryProcedure h (had _ List.mem_cons_self) p hp)
  | virtualFromOffset =>
    exact .inl ((e.virtualProcedureAt_eq h (had _ List.mem_cons_self)).trans hp)
  | interfaceFromEntry =>
    exact .inl (e.kept_entryInterfaceProcedure h (had _ List.mem_cons_self)
      (had _ (List.mem_cons_of_mem _ List.mem_cons_self)) p hp)
  | improperFromEntry =>
    exact .inl (e.kept_entryImproperProcedure h (had _ List.mem_cons_self) p hp)
  | bySignature =>
    exact .inl ((e.findProcedure_eq h (had _ List.mem_cons_self) _ fun _ _ => rfl).trans hp)

theorem satisfies_again (e : w'.Extends w) (h : w.WellFormed) {c : Check TypeRef ProcRef}
    (had : ∀ x ∈ c.operands, w.Has x) (hc : w.model.Satisfies c) :
    w'.model.Satisfies c ∨ c.kind ∈ Kind.speculative ∧ ¬w'.model.Satisfies c := by
  cases c with
  | instanceOf t s fixed _ isInstance =>
    exact .inl ((e.isInstanceOf_eq h (had _ List.mem_cons_self)
      (had _ (List.mem_cons_of_mem _ List.mem_cons_self)) fixed).trans hc)
  | chain t digest => exact .inl ((e.chainDigest_eq h (had _ List.mem_cons_self)).trans hc)
  | skipFrames =>
    have hspeculative : Kind.stackWalkerMaySkipFrames ∈ Kind.speculative := by decide
    exact (Classical.em _).imp id (And.intro hspeculative)
  | initialized =>
    have hspeculative : Kind.typeInitialization ∈ Kind.speculative := by decide
    exact (Classical.em _).imp id (And.intro hspeculative)

end Extends

/-- What a record says of things a world has, and the world confirms, is confirmed by a world
that extends it, or denied if the record speculates. -/
theorem Extends.confirms_again (e : w'.Extends w) (h : w.WellFormed) {r : LiveRecord}
    (had : ∀ x ∈ r.premises, w.Has x) (confirms : w.model.Confirms r) :
    w'.model.Confirms r ∨ r.kind ∈ Kind.speculative ∧ w'.model.Denies r := by
  cases r with
  | type t rule =>
    rw [Record.premises_type] at had
    exact e.typeOf_again h had confirms
  | procedure p rule =>
    rw [Record.premises_procedure] at had
    exact e.procedureOf_again h had confirms
  | check c =>
    rw [Record.premises_check] at had
    exact e.satisfies_again h had confirms

/-- Two worlds that number things alike, as models. -/
def alike (w w' : World) : Embedding w.model w'.model where
  type := id
  procedure := id
  type_injective := Function.injective_id
  procedure_injective := Function.injective_id
  type_rootType := rfl
  type_metaType := rfl

theorem symbol_alike (w w' : World) : (alike w w').symbol = id := by
  funext x
  cases x <;> rfl

theorem record_alike (w w' : World) (r : LiveRecord) : (alike w w').record r = r := by
  cases r with
  | type t rule => cases rule <;> rfl
  | procedure p rule => cases rule <;> rfl
  | check c => cases c <;> rfl

/-- A derivation from things the world has, by its own answers, reaches such things only. -/
theorem WellFormed.has_of_derives (h : w.WellFormed) {known last : List Symbol}
    {records : List LiveRecord} (derives : Derives known records last)
    (start : ∀ x ∈ known, w.Has x) (answered : ∀ r ∈ records, w.model.Confirms r) :
    ∀ x ∈ last, w.Has x := by
  intro x hx
  rcases derives.mem_iff.mp hx with hknown | ⟨r, hr, hdefined⟩
  · exact start x hknown
  · have confirms := answered r hr
    cases r with
    | type t rule =>
      cases hdefined
      exact h.has_typeOf confirms
    | procedure p rule =>
      cases hdefined
      exact h.has_procedureOf confirms
    | check c => cases hdefined

theorem WellFormed.has_seededWith (h : w.WellFormed) {given : List Symbol}
    (existing : ∀ x ∈ given, w.Has x) : ∀ x ∈ Session.seededWith w.model given, w.Has x := by
  intro x hx
  have hmem := (mem_foldl_learn.mp hx).resolve_left List.not_mem_nil
  rcases List.mem_append.mp hmem with hseed | hgiven
  · have hcases : x = .type World.rootType ∨ x = .type World.metaType := by
      simpa [Session.seeds, model] using hseed
    rcases hcases with rfl | rfl
    · exact h.rootType
    · exact h.metaType
  · exact existing x hgiven

end World

/-- An assignment that makes sense of a list of records, on top of what is known, apart from
records that speculate in vain. -/
structure Accounts (model : Model) (known : Assignment) (records : List SealedRecord)
    (σ : Assignment) : Prop where
  injective : σ.Injective
  keeps : σ.Extends known
  grounded : Grounded (fun id => (known id).isSome) records
  again : ∀ r ∈ records, ∃ live, r.under σ = some live ∧
    (model.Confirms live ∨ r.kind ∈ Kind.speculative ∧ model.Denies live)

section Accounts

variable {model : Model} {σ known : Assignment} {r : SealedRecord} {records : List SealedRecord}
  {live : LiveRecord} {s : Session}

theorem Accounts.take (h : Accounts model known records σ) (n : Nat) :
    Accounts model known (records.take n) σ where
  injective := h.injective
  keeps := h.keeps
  grounded := h.grounded.take n
  again r hr := h.again r (List.mem_of_mem_take hr)

theorem Model.find_of_denied (hunder : r.under σ = some live) (denied : model.Denies live) :
    ∃ finding, model.find σ r = some finding ∧
      ∀ s, Session.conclude finding s = .ok false s := by
  cases r with
  | type id rule =>
    obtain ⟨t, -, hrest⟩ := Option.bind_eq_some_iff.mp hunder
    obtain ⟨rule', hrule, hlive⟩ := Option.bind_eq_some_iff.mp hrest
    cases hlive
    have hnone : model.typeOf rule' = none := denied
    refine ⟨.derives id none, ?_, fun _ => rfl⟩
    simp [Model.find, hrule, hnone]
  | procedure id rule =>
    obtain ⟨p, -, hrest⟩ := Option.bind_eq_some_iff.mp hunder
    obtain ⟨rule', hrule, hlive⟩ := Option.bind_eq_some_iff.mp hrest
    cases hlive
    have hnone : model.procedureOf rule' = none := denied
    refine ⟨.derives id none, ?_, fun _ => rfl⟩
    simp [Model.find, hrule, hnone]
  | check c =>
    obtain ⟨c', hc, hlive⟩ := Option.bind_eq_some_iff.mp hunder
    cases hlive
    have hfails : model.holds c' = false := by
      rw [← Bool.not_eq_true, model.holds_iff]
      exact denied
    refine ⟨.states false, ?_, fun _ => rfl⟩
    simp [Model.find, hc, hfails]

namespace Session

theorem validate_of_denied (phase : s.phase = .loading)
    (keeps : σ.Extends s.numbering.symbolOf?)
    (bound : ∀ x ∈ r.premises, (s.numbering.symbolOf? x.symbolId).isSome)
    (hunder : r.under σ = some live) (denied : model.Denies live) :
    validate model r s = .ok false s := by
  obtain ⟨finding, hfind, hconclude⟩ := Model.find_of_denied hunder denied
  rw [← Model.find_congr fun x hx => keeps.eq_of_isSome (bound x hx)] at hfind
  rw [validate_of_find phase hfind]
  exact hconclude s

/-- Such a list is replayed to its end or to a record that speculated in vain. -/
theorem replay_of_accounts (index : Nat) (phase : s.phase = .loading)
    (bijection : s.numbering.IsBijection)
    (h : Accounts model s.numbering.symbolOf? records σ) :
    (∃ done, replay model index records s = .ok () done ∧
      σ.Extends done.numbering.symbolOf?) ∨
    ∃ i r after, records[i]? = some r ∧ r.kind ∈ Kind.speculative ∧
      replay model index records s = .error (.refused (.rejected (index + i) r.kind)) after := by
  induction records generalizing index s with
  | nil => exact .inl ⟨_, rfl, h.keeps⟩
  | cons r rest ih =>
    obtain ⟨bound, hgrounded⟩ := h.grounded
    obtain ⟨live, hunder, confirms | ⟨speculative, denied⟩⟩ := h.again r List.mem_cons_self
    · obtain ⟨s₁, hv, keeps⟩ := validate_of_confirmed phase bijection h.injective h.keeps bound
        ⟨live, hunder, confirms⟩
      obtain ⟨finding, hfind, accepts⟩ := accepts_of_validate phase hv
      have accounts : Accounts model s₁.numbering.symbolOf? rest σ := by
        refine ⟨h.injective, keeps, (Grounded.congr ?_).mp hgrounded, ?_⟩
        · intro id
          rw [accepts.bound, Model.defines_iff hfind]
        · exact fun r' hr' => h.again r' (List.mem_cons_of_mem r hr')
      rw [replay_of_true hv]
      rcases ih (index + 1) (by rw [accepts.eq, ← phase]) (accepts.isBijection bijection)
        accounts with
        hdone | ⟨i, r', after, hi, hkind, hreplay⟩
      · exact .inl hdone
      · refine .inr ⟨i + 1, r', after, hi, hkind, ?_⟩
        rw [hreplay, Nat.add_right_comm, Nat.add_assoc]
    · refine .inr ⟨0, r, s.reject, rfl, speculative, ?_⟩
      exact replay_of_false (validate_of_denied phase h.keeps bound hunder denied)

/-- What a session recorded, by the answers of a world, is replayed on every world that the
first one may grow into: either to its end, and then the table is that of the session that
recorded, or to a record that speculates. However many of the records are replayed, no ID has
come to stand for another symbol. -/
theorem growth_only_defeats_speculation {w w' : World} {config config' : Config}
    {ops : List Operation} {outcomes : List Outcome} {s' : Session} (built : w.Built)
    (grown : w.Grown w')
    (run : performAll w.model ops (forCompile w.model config) = (outcomes, s))
    (answered : ∀ d, .add d ∈ Operation.atomsAll ops →
      ∀ r, d.record? w.model = some r → w.model.Confirms r)
    (existing : ∀ x ∈ Operation.givenAll ops outcomes, w.Has x)
    (sealing : sealRecords s = .ok records s') :
    ∃ seeded,
      performAll w'.model ((Operation.givenAll ops outcomes).map .seed)
          (forLoad w'.model config') =
        ((Operation.givenAll ops outcomes).map fun x => .id (s.numbering.id? x), seeded) ∧
      ((∃ done, validateRecords w'.model records seeded = .ok () done ∧
          (∀ id, done.numbering.symbolOf? id = s.numbering.symbolOf? id) ∧
          ∀ x, done.numbering.id? x = s.numbering.id? x) ∨
        ∃ i r after, records[i]? = some r ∧ r.kind ∈ Kind.speculative ∧
          validateRecords w'.model records seeded =
            .error (.refused (.rejected i r.kind)) after) ∧
      ∀ n before, validateRecords w'.model (records.take n) seeded = .ok () before →
        ∀ id x, before.numbering.symbolOf? id = some x → s.numbering.symbolOf? id = some x := by
  have hrecords := Records.of_run (fun _ h => h) answered run
  obtain ⟨last, lists, derives⟩ := hrecords.lists
  obtain ⟨phase, closed⟩ := of_sealRecords sealing
  rw [hrecords.sealRecords_eq phase closed] at sealing
  cases sealing
  have wellFormed := built.wellFormed
  have outgrown := grown.extends wellFormed
  have had : ∀ x ∈ last, w.Has x :=
    wellFormed.has_of_derives derives (wellFormed.has_seededWith existing) hrecords.allowed
  obtain ⟨seeded, hseeds, hphase, lists'⟩ :=
    seeds_again (World.alike w w') config' lists derives.isPrefix
  have htable : Assignment.ofList (last.map (World.alike w w').symbol) = s.numbering.symbolOf? := by
    rw [World.symbol_alike, List.map_id, lists.symbolOf?_eq_ofList]
  have accounts : Accounts w'.model seeded.numbering.symbolOf?
      (s.ledger.records.map s.numbering.sealed) s.numbering.symbolOf? := by
    rw [← htable]
    refine ⟨lists.injective_ofList, lists'.keeps_ofList derives.isPrefix,
      lists.grounded_map derives lists', ?_⟩
    intro r' hr'
    obtain ⟨r, hr, rfl⟩ := List.mem_map.mp hr'
    have hpremises : ∀ x ∈ r.premises, w.Has x := fun x hx =>
      had x (derives.mem_of_mem_operands hr x (Record.mem_operands_iff.mpr (.inr hx)))
    refine ⟨r, ?_, ?_⟩
    · rw [lists.under_ofList derives hr, World.record_alike]
    · rw [Numbering.kind_sealed]
      exact outgrown.confirms_again wellFormed hpremises (hrecords.allowed r hr)
  refine ⟨seeded, ?_, ?_, ?_⟩
  · rw [World.symbol_alike] at hseeds
    exact hseeds
  · rw [validateRecords_of_loading hphase]
    rcases replay_of_accounts 0 hphase lists'.isBijection accounts with
      ⟨done, hreplay, keeps⟩ | ⟨i, r, after, hi, hkind, hreplay⟩
    · obtain ⟨-, bijection, -, -⟩ := justifies_of_replay hphase lists'.isBijection hreplay
      rw [← htable] at keeps
      have hsymbol := symbolOf?_of_replay lists derives hphase lists' hreplay keeps
      rw [htable] at hsymbol
      refine .inl ⟨done, hreplay, congrFun hsymbol, fun x => Option.ext fun id => ?_⟩
      rw [bijection x id, lists.isBijection x id, hsymbol]
    · rw [Nat.zero_add] at hreplay
      exact .inr ⟨i, r, after, hi, hkind, hreplay⟩
  · intro n before hbefore
    rw [validateRecords_of_loading hphase] at hbefore
    rcases replay_of_accounts 0 hphase lists'.isBijection (accounts.take n) with
      ⟨done, hreplay, keeps⟩ | ⟨i, r, after, -, -, hreplay⟩
    · rw [hbefore] at hreplay
      cases hreplay
      exact keeps
    · rw [hbefore] at hreplay
      cases hreplay

/-- The type of types is its own only concrete subtype, until another type extends it. -/
theorem growth_only_defeats_speculation_of_second_subtype :
    let w := World.fresh
    let w' := (w.defineType ⟨"Enum", .system, false, false, true, some ⟨1⟩, [], [], []⟩).2
    let ops := [.type ⟨1⟩].map Operation.seed ++
      [Discovery.type (some ⟨1⟩) (.concreteSubtypeOf ⟨1⟩) rfl].map .add
    let run := performAll w.model ops (forCompile w.model default)
    w.Built ∧ w.Grown w' ∧ ∃ records s' seeded,
      sealRecords run.2 = .ok records s' ∧
      performAll w'.model ((Operation.givenAll ops run.1).map .seed) (forLoad w'.model default) =
        ((Operation.givenAll ops run.1).map fun x => .id (run.2.numbering.id? x), seeded) ∧
      ((∃ done, validateRecords w'.model records seeded = .ok () done ∧
          (∀ id, done.numbering.symbolOf? id = run.2.numbering.symbolOf? id) ∧
          ∀ x, done.numbering.id? x = run.2.numbering.id? x) ∨
        ∃ i r after, records[i]? = some r ∧ r.kind ∈ Kind.speculative ∧
          validateRecords w'.model records seeded =
            .error (.refused (.rejected i r.kind)) after) ∧
      ∀ n before, validateRecords w'.model (records.take n) seeded = .ok () before →
        ∀ id x, before.numbering.symbolOf? id = some x →
          run.2.numbering.symbolOf? id = some x := by
  intro w w' ops run
  have lacks : w.Lacks "Enum" := by
    rintro ⟨_ | _ | i⟩ hi
    · decide
    · decide
    · exact absurd hi (Nat.not_lt.mpr (Nat.le_add_left 2 i))
  have grown : w.Grown w' := by
    refine .defineType _ .refl ?_ ?_ lacks
    · rintro _ ⟨⟩
      decide
    · rintro _ ⟨⟩
  obtain ⟨phase, closed, hgiven⟩ := seeded_and_reported w.model default [.type ⟨1⟩]
    [.type (some ⟨1⟩) (.concreteSubtypeOf ⟨1⟩) rfl] (by decide)
  have hrecords : Records w.model (fun _ => True) (Operation.givenAll ops run.1) run.2 :=
    Records.of_run (fun _ _ => trivial) (fun _ _ _ _ => trivial) rfl
  have sealing := hrecords.sealRecords_eq phase closed
  have hroot : w.superChain ⟨0⟩ = [⟨0⟩] := World.superChain_of_none rfl
  have hmeta : w.superChain ⟨1⟩ = [⟨1⟩, ⟨0⟩] := by
    rw [World.superChain_of_some (s := ⟨0⟩) rfl, hroot]
  have hsubtypes : w.concreteSubtypes ⟨1⟩ = [⟨1⟩] := by
    have htypes : w.typeRefs = [⟨0⟩, ⟨1⟩] := rfl
    have hplain : (w.component ⟨0⟩ = none ∧ w.interfaces ⟨0⟩ = []) ∧
        (w.component ⟨1⟩ = none ∧ w.interfaces ⟨1⟩ = []) := ⟨⟨rfl, rfl⟩, rfl, rfl⟩
    simp [World.concreteSubtypes, htypes, World.isSubtype_of_chain, hplain, hroot, hmeta]
    rfl
  have answered : ∀ d, .add d ∈ Operation.atomsAll ops →
      ∀ r, d.record? w.model = some r → w.model.Confirms r := by
    intro d hd r hr
    have hd' : d = .type (some ⟨1⟩) (.concreteSubtypeOf ⟨1⟩) rfl := by
      simpa [ops, Operation.atomsAll, Operation.atoms] using hd
    subst hd'
    cases hr
    show w.singleConcreteSubtype ⟨1⟩ = some ⟨1⟩
    rw [World.singleConcreteSubtype, hsubtypes]
  have existing : ∀ x ∈ Operation.givenAll ops run.1, w.Has x := by
    intro x hx
    rw [hgiven, List.mem_singleton] at hx
    subst hx
    decide
  obtain ⟨seeded, hseeds, hrest⟩ :=
    growth_only_defeats_speculation .fresh grown rfl answered existing sealing
  exact ⟨.fresh, grown, _, _, seeded, sealing, hseeds, hrest⟩

end Session

end Accounts

end Provenance
