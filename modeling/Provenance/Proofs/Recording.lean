import Provenance.Proofs.Derivation

/-!
The ledger as it is searched and as it is listed. Both agree in a session that records, so
a record of a symbol that is not known yet is not there; and the first record of a type
stands at the end of the ledger, with only its chain behind it.
-/
namespace Provenance

namespace Ledger

theorem contains_insert {l : Ledger} {r r' : LiveRecord} :
    (l.insert r).2.contains r' = true ↔ r' = r ∨ l.contains r' = true := by
  cases hc : l.contains r with
  | true =>
    rw [insert_of_contains hc]
    constructor
    · exact .inr
    · rintro (rfl | h)
      · exact hc
      · exact h
  | false =>
    have hset : (l.insert r).2.contains r' = (compare r r' == .eq || l.contains r') := by
      rw [Ledger.insert, hc]
      exact Std.TreeSet.contains_insert
    rw [hset, Bool.or_eq_true, beq_iff_eq, Std.LawfulEqOrd.compare_eq_iff_eq, eq_comm]

/-- The set of a ledger has what its list has. -/
def Faithful (l : Ledger) : Prop := ∀ r, l.contains r = true ↔ r ∈ l.records

theorem faithful_empty : Ledger.empty.Faithful := by
  intro r
  simp [empty, contains, records]

theorem Faithful.insert {l : Ledger} (h : l.Faithful) (r : LiveRecord) :
    (l.insert r).2.Faithful := by
  intro r'
  rw [contains_insert, records_insert, h r']
  cases hc : l.contains r with
  | true =>
    rw [if_pos rfl, or_iff_right_of_imp]
    rintro rfl
    exact (h r').mp hc
  | false => simp [or_comm]

end Ledger

namespace Session

variable {model : Model} {allowed : LiveRecord → Prop} {seeds given : List Symbol}
  {s s' : Session}

/-- A session that records, whose ledger is searched as it is listed. -/
structure Recorded (model : Model) (allowed : LiveRecord → Prop) (seeds : List Symbol)
    (s : Session) : Prop extends Records model allowed seeds s where
  faithful : s.ledger.Faithful

namespace Recorded

theorem forCompile (model : Model) (allowed : LiveRecord → Prop) (config : Config) :
    Recorded model allowed [] (forCompile model config) :=
  { Records.forCompile model allowed config with faithful := Ledger.faithful_empty }

theorem move (h : Recorded model allowed seeds s) (hmove : Move allowed given s s') :
    Recorded model allowed (seeds ++ given) s' := by
  refine { h.toRecords.move hmove with faithful := ?_ }
  cases hmove with
  | confirm | derive => exact h.faithful.insert _
  | region | reseed | seed | «sealed» | bind | validated | reject => exact h.faithful

theorem moves (h : Recorded model allowed seeds s) (hmoves : Moves allowed given s s') :
    Recorded model allowed (seeds ++ given) s' :=
  hmoves.invariant (fun h hmove => h.move hmove) h

theorem entry (confirmed : ∀ r, model.Confirms r → allowed r)
    (h : Recorded model allowed seeds s) (entry : Entry model allowed s s') :
    Recorded model allowed seeds s' := by
  simpa using h.moves (entry.moves confirmed)

/-- What speaks of a symbol that is not known is not on record. -/
theorem not_contains (h : Recorded model allowed seeds s) {x : Symbol} {r : LiveRecord}
    (unknown : s.numbering.id? x = none) (hx : x ∈ r.operands) : s.ledger.contains r = false := by
  obtain ⟨known, lists, derives⟩ := h.lists
  cases hc : s.ledger.contains r with
  | false => rfl
  | true =>
    have hmem := derives.mem_of_mem_operands ((h.faithful r).mp hc) x hx
    rw [lists.mem_iff, unknown] at hmem
    cases hmem

theorem fresh (h : Recorded model allowed seeds s) {x : Symbol} {r : LiveRecord}
    (defined : r.defined = some x) (new : s.numbering.id? x = none) :
    s.ledger.contains r = false :=
  h.not_contains new (Record.mem_operands_iff.mpr (.inl defined))

end Recorded

/-- The chain that is due with a type. -/
def chainOf (model : Model) (ty : TypeRef) : List LiveRecord :=
  if model.isArray ty then [] else [.check (.chain ty (model.chainDigest ty))]

theorem records_derived {r : LiveRecord} (fresh : s.ledger.contains r = false) (x : Symbol)
    (id : SymbolId) : (s.derived r x id).ledger.records = s.ledger.records ++ [r] :=
  records_insert_of_fresh fresh

/-- The first record of a type ends the ledger, but for its chain. -/
theorem Recorded.records_chained (h : Recorded model allowed seeds s) {ty : TypeRef}
    {rule : TypeRule TypeRef ProcRef} (new : s.numbering.id? (.type ty) = none) (id : SymbolId) :
    (chained model ty (s.derived (.type ty rule) (.type ty) id)).ledger.records =
      s.ledger.records ++ .type ty rule :: chainOf model ty := by
  have hrule : s.ledger.contains (.type ty rule) = false := h.fresh rfl new
  have hchain : s.ledger.contains (.check (.chain ty (model.chainDigest ty))) = false :=
    h.not_contains new (Record.mem_operands_iff.mpr (.inr List.mem_cons_self))
  unfold chained chainOf
  by_cases ha : model.isArray ty
  · rw [if_pos ha, if_pos ha, records_derived hrule]
  · have fresh : (s.derived (.type ty rule) (.type ty) id).ledger.contains
        (.check (.chain ty (model.chainDigest ty))) = false := by
      have hset := (h.faithful.insert (.type ty rule)) (.check (.chain ty (model.chainDigest ty)))
      rw [records_insert_of_fresh hrule, List.mem_append, ← h.faithful, hchain] at hset
      simpa [derived] using hset
    rw [if_neg ha, if_neg ha, records_insert_of_fresh fresh, records_derived hrule]
    simp

namespace Recorded

variable (h : Recorded model allowed seeds s) (phase : s.phase = .building)
  (closed : s.region.isOpen = false)
include h phase closed

theorem leaves_add_named {ty : TypeRef} {naming : Naming} {id : SymbolId}
    (plain : model.componentType ty = none)
    (premises : ∀ x ∈ (Record.type ty (naming.rule model ty)).premises, (s.numbering.id? x).isSome)
    (new : s.numbering.id? (.type ty) = none) (next : s.numbering.next = some id) :
    leaves (add model (.named (some ty) naming)) s =
      chained model ty (s.derived (.type ty (naming.rule model ty)) (.type ty) id) := by
  rw [add, leaves, bind_of_ok (gate_of_mem (by simp [phase])), get_bind, closed,
    if_neg Bool.false_ne_true, ← leaves]
  show leaves (addNamed model ty naming >>= fun _ => pure true) s = _
  rw [leaves_map, addNamed, Model.baseComponent_of_none model plain]
  simp only [leaves_get_bind, Nat.not_lt_zero, if_false]
  show leaves (addType model ty (naming.rule model ty) >>= fun _ => pure ()) s = _
  rw [leaves_map]
  rcases addType_of_new model closed premises new with ⟨id', -, next', heq⟩ | ⟨hwhy, -⟩
  · rw [next] at next'
    cases next'
    exact heq
  · have fresh : s.ledger.contains (.type ty (naming.rule model ty)) = false := h.fresh rfl new
    simp [fresh, next] at hwhy

/-- Where its owner is known a procedure is recorded alone. -/
theorem leaves_add_procedure {p : ProcRef} {rule : ProcRule TypeRef ProcRef}
    {unsigned : rule.isBySignature = false} {id : SymbolId}
    (premises : ∀ x ∈ (Record.procedure p rule).premises, (s.numbering.id? x).isSome)
    (new : s.numbering.id? (.procedure p) = none) (next : s.numbering.next = some id)
    (owned : (s.numbering.id? (.type (model.ownerOf p))).isSome) :
    leaves (add model (.procedure (some p) rule unsigned)) s =
      s.derived (.procedure p rule) (.procedure p) id := by
  rw [add, leaves, bind_of_ok (gate_of_mem (by simp [phase])), get_bind, closed,
    if_neg Bool.false_ne_true, ← leaves]
  show leaves (addProcedure model p rule >>= fun _ => pure true) s = _
  rw [leaves_map, addProcedure, leaves, bind_of_ok (requirePremises_of_known closed premises),
    get_bind, isValidated_of_closed closed, new, if_neg (by simp)]
  have known : (s.derived (.procedure p rule) (.procedure p) id).isValidated
      (.type (model.ownerOf p)) = true := by
    rw [isValidated_of_closed (show (s.derived _ _ id).region.isOpen = false from closed), derived,
      Numbering.id?_issue, Numbering.id?_assign, if_neg (by simp)]
    exact owned
  rcases append_of_new (r := .procedure p rule) rfl new with ⟨id', -, next', hok⟩ | ⟨e, hwhy, -⟩
  · rw [next] at next'
    cases next'
    rw [bind_of_ok hok, get_bind, known, if_pos rfl]
    rfl
  · have fresh : s.ledger.contains (.procedure p rule) = false := h.fresh rfl new
    simp [fresh, next] at hwhy

end Recorded

end Session

end Provenance
