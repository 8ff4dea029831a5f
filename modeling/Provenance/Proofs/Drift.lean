import Provenance.Proofs.Anchoring
import Provenance.Proofs.Sealing

/-!
Replaying a sealed list on a program that has drifted away from the one it was recorded on.
Every record of the list finds its operands bound, each to a symbol of the right category,
whatever the symbols are: those known before were seeded, and the others were bound by records
before it. So all that can happen to a record is that it does not hold.
-/
namespace Provenance

variable {model : Model} {σ : Assignment} {r : SealedRecord}

/-- A record derives symbols of one category, whatever the program answers. -/
theorem Model.category_of_find {id : SymbolId} {y : Symbol} {x : Operand SymbolId SymbolId}
    (h : model.find σ r = some (.derives id (some y))) (defined : r.defined = some x) :
    id = x.symbolId ∧ y.category = x.category := by
  rcases Model.derives_of_find h with ⟨rule, -, t, rfl, -, -, rfl⟩ | ⟨rule, -, p, rfl, -, -, rfl⟩
  · cases defined
    exact ⟨rfl, rfl⟩
  · cases defined
    exact ⟨rfl, rfl⟩

namespace Session

variable {s s' : Session} {known last : List Category} {records : List SealedRecord}

/-- Every known ID stands for a symbol of its category. -/
def Knows (s : Session) (known : List Category) : Prop :=
  ∀ id c, known[id.toNat - 1]? = some c → s.numbering.categoryOf? id = some c

theorem Knows.mono (h : Knows s known)
    (keeps : Assignment.Extends s'.numbering.symbolOf? s.numbering.symbolOf?) : Knows s' known := by
  intro id c hc
  obtain ⟨x, hx, hcategory⟩ := Option.map_eq_some_iff.mp (h id c hc)
  exact Option.map_eq_some_iff.mpr ⟨x, keeps id x hx, hcategory⟩

/-- A record whose premises are known can be asked. -/
theorem Knows.find (h : Knows s known) (premises : ∀ x ∈ r.premises, Names known x) :
    ∃ finding, model.find s.numbering.symbolOf? r = some finding := by
  refine Option.isSome_iff_exists.mp (Model.find_of_premises ?_)
  intro x hx
  exact Option.map_eq_some_iff.mp (h x.symbolId x.category (premises x hx))

/-- Once the next ID is derived, it is known as well. -/
theorem Knows.derived {finding : Finding} {x : Operand SymbolId SymbolId} (h : Knows s known)
    (hfind : model.find s.numbering.symbolOf? r = some finding) (defined : r.defined = some x)
    (new : x.symbolId.toNat = known.length + 1) (accepts : Accepts s s' finding) :
    Knows s' (known ++ [x.category]) := by
  intro id c hc
  have hpos := id.toNat_pos
  by_cases hold : id.toNat - 1 < known.length
  · rw [List.getElem?_append_left hold] at hc
    exact h.mono accepts.keeps id c hc
  · rw [List.getElem?_append_right (Nat.not_lt.mp hold)] at hc
    obtain ⟨hlast, rfl⟩ := List.getElem?_eq_some_iff.mp hc
    rw [List.length_singleton] at hlast
    have hid : id = x.symbolId := SymbolId.toNat_inj.mp (by omega)
    have hconcerns := (Model.defines_iff hfind x.symbolId).mp ⟨x, defined, rfl⟩
    cases finding with
    | states holds => cases hconcerns
    | derives other y =>
      obtain ⟨hsome, hother⟩ := accepts.fits
      obtain ⟨y, rfl⟩ := Option.isSome_iff_exists.mp hsome
      obtain ⟨rfl, hcategory⟩ := Model.category_of_find hfind defined
      subst hid
      exact Option.map_eq_some_iff.mpr ⟨y, hother, by simpa using hcategory⟩

/-- A finding is accepted or it is not: concluding is no error. -/
theorem conclude_ok (finding : Finding) (s : Session) :
    ∃ holds s', conclude finding s = .ok holds s' := by
  rcases finding with ⟨id, _ | x⟩ | holds
  · exact ⟨_, _, rfl⟩
  · exact ⟨_, _, rfl⟩
  · exact ⟨_, _, rfl⟩

/-- The two ways in which a replay may end that blame no caller. -/
def Settled (result : EStateM.Result Failure Session Unit) : Prop :=
  (∃ done, result = .ok () done) ∨
    ∃ index kind after, result = .error (.refused (.rejected index kind)) after

/-- A record whose premises are known settles the replay, or is accepted and leaves that to
the records after it. -/
theorem settled_cons {index : Nat} (knows : Knows s known)
    (premises : ∀ x ∈ r.premises, Names known x) (phase : s.phase = .loading)
    (rest : ∀ finding s', model.find s.numbering.symbolOf? r = some finding →
      Accepts s s' finding → Settled (replay model (index + 1) records s')) :
    Settled (replay model index (r :: records) s) := by
  obtain ⟨finding, hfind⟩ : ∃ finding, model.find s.numbering.symbolOf? r = some finding :=
    knows.find premises
  obtain ⟨holds, s', hconclude⟩ := conclude_ok finding s
  have hvalidate := (validate_of_find phase hfind).trans hconclude
  cases holds with
  | true =>
    rw [replay_of_true hvalidate]
    exact rest finding s' hfind (accepts_of_conclude hconclude)
  | false =>
    rw [replay_of_false hvalidate]
    exact .inr ⟨_, _, _, rfl⟩

/-- A list in canonical order is replayed to its end or to a record that does not hold. -/
theorem settled_of_canonical {index : Nat} (canonical : Canonical known records last)
    (knows : Knows s known) (phase : s.phase = .loading) (bijection : s.numbering.IsBijection) :
    Settled (replay model index records s) := by
  induction canonical generalizing index s with
  | nil known => exact .inl ⟨_, rfl⟩
  | check premises _ ih | again premises _ _ _ ih =>
    refine settled_cons knows premises phase ?_
    intro finding s' _ accepts
    exact ih (knows.mono accepts.keeps) (by rw [accepts.eq, ← phase])
      (accepts.isBijection bijection)
  | next premises defined new _ ih =>
    refine settled_cons knows premises phase ?_
    intro finding s' hfind accepts
    exact ih (knows.derived hfind defined new accepts) (by rw [accepts.eq, ← phase])
      (accepts.isBijection bijection)

/-- A seed is learned, or all IDs are given out and nothing happens. -/
theorem leaves_seed {known : List Symbol} (h : Seedable s known) (x : Symbol) :
    ∃ known', known <+: known' ∧ Seedable (leaves (seed x) s) known' ∧
      (leaves (seed x) s).phase = s.phase := by
  by_cases room : (learn known x).length ≤ 65535
  · obtain ⟨id, s', hseed, -, hphase, hs'⟩ := seed_of_seedable h room
    rw [leaves_of_ok hseed]
    exact ⟨learn known x, prefix_learn known x, hs', hphase⟩
  · have hnew : x ∉ known := by
      intro hx
      rw [learn_of_mem hx] at room
      exact room h.lists.length_le
    have hid := h.lists.not_mem_iff.mp hnew
    rw [learn_of_not_mem hnew, List.length_append, List.length_singleton] at room
    have hnext : s.numbering.next = none := by
      cases hnext : s.numbering.next with
      | none => rfl
      | some id =>
        have htoNat := h.lists.next_some id hnext
        have hlt := id.toNat_lt
        omega
    have hseed := seed_eq x s
    rw [if_pos h.phase, h.isLate_eq_false, hid, hnext] at hseed
    have hleaves : leaves (seed x) s = s := leaves_of_error hseed
    rw [hleaves]
    exact ⟨known, List.prefix_refl known, h, rfl⟩

theorem performAll_seeds {known : List Symbol} (model : Model) (extra : List Symbol)
    (h : Seedable s known) :
    ∃ known', known <+: known' ∧ Seedable (performAll model (extra.map .seed) s).2 known' ∧
      (performAll model (extra.map .seed) s).2.phase = s.phase := by
  induction extra generalizing s known with
  | nil => exact ⟨known, List.prefix_refl known, h, rfl⟩
  | cons x extra ih =>
    obtain ⟨known₁, hfront, h₁, hphase⟩ := leaves_seed h x
    obtain ⟨known', hfront', h', hphase'⟩ := ih h₁
    have hrun : (performAll model ((x :: extra).map .seed) s).2 =
        (performAll model (extra.map .seed) (leaves (seed x) s)).2 := by
      rw [← settle_snd _ fun id => .id (some id)]
      rfl
    rw [hrun]
    exact ⟨known', hfront.trans hfront', h', hphase'.trans hphase⟩

/-- The seeds of a session that compiles are known in one that loads, if it answers to their
IDs. The root type and the meta type are so without being asked for. -/
theorem knows_seeds {w w' : World} {n : Numbering} {given known known' : List Symbol}
    {loaded : Session} (lists : n.Lists known) (front : seededWith w.model given <+: known)
    (lists' : loaded.numbering.Lists known') (front' : seededWith w'.model [] <+: known')
    (same : ∀ x ∈ given, ∀ id, n.id? x = some id →
      loaded.numbering.categoryOf? id = some x.category) :
    Knows loaded ((seededWith w.model given).map Operand.category) := by
  intro id c hc
  rw [List.getElem?_map] at hc
  obtain ⟨x, hx, rfl⟩ := Option.map_eq_some_iff.mp hc
  have hid : n.id? x = some id := by
    rw [lists.isBijection x id, lists.symbolOf?_eq]
    exact getElem?_of_front front hx
  rcases List.mem_append.mp ((mem_foldl_learn.mp (List.mem_of_getElem? hx)).resolve_left
    List.not_mem_nil) with hseed | hgiven
  · have hbegin : x ∈ seededWith w.model [] := mem_foldl_learn.mpr (.inr (by simpa using hseed))
    obtain ⟨i, hi⟩ := List.mem_iff_getElem?.mp hbegin
    obtain ⟨id', hid', htoNat⟩ :=
      lists.id?_of_getElem? (getElem?_of_front ((front_seededWith _ _).trans front) hi)
    rw [hid] at hid'
    cases hid'
    -- Both worlds have the root type and the meta type in the same places.
    have hi' : known'[i]? = some x := getElem?_of_front front' hi
    rw [lists'.categoryOf?_eq, htoNat, Nat.add_sub_cancel, List.getElem?_map, hi']
    rfl
  · exact same x hgiven id hid

/-- What a session on one program sealed, after whatever was done to it, is replayed on any
other program to its end or to a record that does not hold there, if the seeds have there the
IDs they had, each with a symbol of its category that the other program has. No handle is
followed that leads out of that program, and the replay never comes to an error that blames the
caller, so it does not stop where such errors are fatal either. -/
theorem drift_only_rejects (w : World) {w' : World} (built : w'.Built) {config config' : Config}
    {ops : List Operation} {outcomes outcomes' : List Outcome} {s' loaded : Session}
    {extra : List Symbol}
    (run : performAll w.model ops (forCompile w.model config) = (outcomes, s))
    (sealing : sealRecords s = .ok records s')
    (seeding : performAll w'.model (extra.map .seed) (forLoad w'.model config') =
      (outcomes', loaded))
    (existing : ∀ x ∈ extra, w'.Has x)
    (same : ∀ x ∈ Operation.givenAll ops outcomes, ∀ id, s.numbering.id? x = some id →
      loaded.numbering.categoryOf? id = some x.category) :
    Checked.validateRecords w' records loaded =
        Checked.act (validateRecords w'.model records) loaded ∧
      ((∃ done, validateRecords w'.model records loaded = .ok () done) ∨
        ∃ index kind after, validateRecords w'.model records loaded =
          .error (.refused (.rejected index kind)) after) := by
  have hrecords : Records w.model (fun _ => True) (Operation.givenAll ops outcomes) s :=
    Records.of_run (fun _ _ => trivial) (fun _ _ _ _ => trivial) run
  obtain ⟨phase, closed⟩ := of_sealRecords sealing
  rw [hrecords.sealRecords_eq phase closed] at sealing
  cases sealing
  obtain ⟨known, lists, derives⟩ := hrecords.lists
  have hstart : Seedable (forLoad w'.model config') (seededWith w'.model []) :=
    seedable_start w'.model config' (by decide)
  obtain ⟨known', front', seedable, hphase⟩ := performAll_seeds w'.model extra hstart
  have brought : ∀ op ∈ extra.map Operation.seed, ∀ x ∈ op.brought, w'.Has x := by
    simpa [Operation.brought] using existing
  have anchored := Anchored.loaded built.wellFormed config' brought
  rw [seeding] at anchored seedable hphase
  have knows : Knows loaded _ :=
    knows_seeds lists derives.isPrefix seedable.lists front' same
  refine ⟨anchored.validateRecords_eq built.sound _, ?_⟩
  rw [validateRecords_of_loading hphase]
  exact settled_of_canonical (lists.canonical derives) knows hphase seedable.lists.isBijection

/-- A type that the second program lacks, in a session that stops at logic errors. The second
program has the seed in another place. -/
theorem drift_only_rejects_missing_type :
    let run : ProcSpec := ⟨⟨0⟩, "run", "()V", true, false, false, false⟩
    let w := ((World.fresh.defineProcedure run).2.defineType
      ⟨"List", .system, false, false, true, none, [], [], []⟩).2
    let w' := ((World.fresh.defineProcedure ⟨⟨0⟩, "halt", "()V", true, false, false, false⟩).2
      |>.defineProcedure run).2
    let ops := [.procedure ⟨0⟩].map Operation.seed ++
      [Discovery.named (some ⟨2⟩) (.seenBy ⟨0⟩)].map .add
    let s := (performAll w.model ops (forCompile w.model default)).2
    let loaded := (performAll w'.model ([.procedure ⟨1⟩].map .seed)
      (forLoad w'.model Config.strict)).2
    w'.Built ∧ w'.Has (.procedure ⟨1⟩) ∧ ∃ records s', sealRecords s = .ok records s' ∧
      Checked.validateRecords w' records loaded =
        Checked.act (validateRecords w'.model records) loaded ∧
      ((∃ done, validateRecords w'.model records loaded = .ok () done) ∨
        ∃ index kind after, validateRecords w'.model records loaded =
          .error (.refused (.rejected index kind)) after) := by
  intro run w w' ops s loaded
  have built : w'.Built := .defineProcedure _ (.defineProcedure _ .fresh (by decide)) (by decide)
  have has : w'.Has (.procedure ⟨1⟩) := by decide
  obtain ⟨phase, closed, hgiven⟩ := seeded_and_reported w.model default [.procedure ⟨0⟩]
    [.named (some ⟨2⟩) (.seenBy ⟨0⟩)] (by decide)
  have hrecords : Records w.model (fun _ => True)
      (Operation.givenAll ops (performAll w.model ops (forCompile w.model default)).1) s :=
    Records.of_run (fun _ _ => trivial) (fun _ _ _ _ => trivial) rfl
  rw [hgiven] at hrecords
  obtain ⟨known, lists, derives⟩ := hrecords.lists
  have sealing := hrecords.sealRecords_eq phase closed
  obtain ⟨t, hload, -, seedable⟩ := seeds_of_seedable w'.model [.procedure ⟨1⟩]
    (seedable_start w'.model Config.strict (by decide : Phase.loading ∈ _)) (by decide)
  have hloaded : loaded = t := congrArg Prod.snd hload
  refine ⟨built, has, _, _, sealing, drift_only_rejects w built rfl sealing rfl
    (by simpa using has) ?_⟩
  intro x hx id hid
  rw [hgiven, List.mem_singleton] at hx
  subst hx
  -- The seed is the third symbol of either session.
  have hthird : known[2]? = some (.procedure ⟨0⟩) := getElem?_of_front derives.isPrefix rfl
  obtain ⟨id', hid', htoNat⟩ := lists.id?_of_getElem? hthird
  rw [hid] at hid'
  cases hid'
  show loaded.numbering.categoryOf? id = _
  rw [hloaded, seedable.lists.categoryOf?_eq, htoNat]
  rfl

end Session

end Provenance
