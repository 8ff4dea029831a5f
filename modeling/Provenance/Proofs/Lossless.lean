import Mathlib.Data.List.Nodup
import Provenance.Proofs.Refusing

/-!
What sealing keeps. A record is its kind, its symbols and its data. Sealing replaces the symbols
by IDs, in their places, and the numbering has an ID for each of them and no ID twice, so the
records come back when the IDs are replaced again. As no record is listed twice in a ledger, none
is listed twice in its sealed form.
-/
namespace Provenance

variable {T P T' P' : Type}

/-- What a field holds that holds no symbol. -/
inductive Datum where
  | text (value : String)
  | digest (value : Digest)
  | index (value : UInt32)
  | offset (value : Int32)
  | flag (value : Bool)
deriving DecidableEq

/-- The values that are no symbols, in the order of the fields. -/
def Values.data : (fs : List FieldSpec) → Values T P fs → List Datum
  | [], _ => []
  | ⟨_, .type⟩ :: fs, (_, vs) | ⟨_, .procedure⟩ :: fs, (_, vs) => data fs vs
  | ⟨_, .text⟩ :: fs, (v, vs) => .text v :: data fs vs
  | ⟨_, .digest⟩ :: fs, (v, vs) => .digest v :: data fs vs
  | ⟨_, .index⟩ :: fs, (v, vs) => .index v :: data fs vs
  | ⟨_, .offset⟩ :: fs, (v, vs) => .offset v :: data fs vs
  | ⟨_, .flag⟩ :: fs, (v, vs) => .flag v :: data fs vs

theorem Values.eq_of_parts : (fs : List FieldSpec) → (vs vs' : Values T P fs) →
    operands fs vs = operands fs vs' → data fs vs = data fs vs' → vs = vs'
  | [], _, _, _, _ => rfl
  | ⟨_, .type⟩ :: fs, (_, vs), (_, vs'), operands, data
  | ⟨_, .procedure⟩ :: fs, (_, vs), (_, vs'), operands, data => by
    obtain ⟨first, rest⟩ := List.cons.inj operands
    cases first
    rw [eq_of_parts fs vs vs' rest data]
  | ⟨_, .text⟩ :: fs, (_, vs), (_, vs'), operands, data
  | ⟨_, .digest⟩ :: fs, (_, vs), (_, vs'), operands, data
  | ⟨_, .index⟩ :: fs, (_, vs), (_, vs'), operands, data
  | ⟨_, .offset⟩ :: fs, (_, vs), (_, vs'), operands, data
  | ⟨_, .flag⟩ :: fs, (_, vs), (_, vs'), operands, data => by
    obtain ⟨first, rest⟩ := List.cons.inj data
    cases first
    rw [eq_of_parts fs vs vs' operands rest]

namespace Record

def data (r : Record T P) : List Datum := Values.data _ r.values

theorem operands_ofValues (k : Kind) (vs : Values T P k.fields) :
    (ofValues k vs).operands = Values.operands k.fields vs := by
  cases k <;> rfl

theorem data_ofValues (k : Kind) (vs : Values T P k.fields) :
    (ofValues k vs).data = Values.data k.fields vs := by
  cases k <;> rfl

/-- There is nothing to a record but its kind, its symbols and its data. -/
theorem eq_of_parts {r r' : Record T P} (kind : r.kind = r'.kind)
    (operands : r.operands = r'.operands) (data : r.data = r'.data) : r = r' := by
  obtain ⟨k, vs, rfl⟩ : ∃ k vs, r = ofValues k vs := ⟨_, _, (ofValues_values r).symm⟩
  obtain ⟨k', vs', rfl⟩ : ∃ k vs, r' = ofValues k vs := ⟨_, _, (ofValues_values r').symm⟩
  rw [kind_ofValues, kind_ofValues] at kind
  subst kind
  rw [operands_ofValues, operands_ofValues] at operands
  rw [data_ofValues, data_ofValues] at data
  rw [Values.eq_of_parts _ vs vs' operands data]

theorem data_map (f : T → T') (g : P → P') (r : Record T P) : (r.map f g).data = r.data := by
  cases r with
  | type _ rule => cases rule <;> rfl
  | procedure _ rule => cases rule <;> rfl
  | check c => cases c <;> rfl

/-- To replace symbols by functions and then once more is to replace them once. -/
theorem mapM_map {T₀ P₀ : Type} {m : Type → Type} [Monad m] (f : T → m T') (g : P → m P')
    (f₀ : T₀ → T) (g₀ : P₀ → P) (r : Record T₀ P₀) :
    (r.map f₀ g₀).mapM f g = r.mapM (fun t => f (f₀ t)) fun p => g (g₀ p) := by
  cases r with
  | type _ rule => cases rule <;> rfl
  | procedure _ rule => cases rule <;> rfl
  | check c => cases c <;> rfl

end Record

/-- The record that a sealed one was made of, if every ID names a symbol of the category of its
place. -/
def Numbering.unsealed? (n : Numbering) (r : SealedRecord) : Option LiveRecord :=
  r.mapM (Assignment.type n.symbolOf?) (Assignment.procedure n.symbolOf?)

theorem Numbering.Lists.unsealed?_sealed {n : Numbering} {known : List Symbol}
    (h : n.Lists known) {r : LiveRecord} (hr : ∀ x ∈ r.operands, x ∈ known) :
    n.unsealed? (n.sealed r) = some r := by
  have recovered : ∀ x ∈ r.operands, n.symbolOf? (n.idOf x) = some x := by
    intro x hx
    obtain ⟨id, hid⟩ := Option.isSome_iff_exists.mp (h.mem_iff.mp (hr x hx))
    rw [Numbering.idOf_of_id? hid]
    exact (h.isBijection x id).mp hid
  have types : ∀ t, .type t ∈ r.operands →
      Assignment.type n.symbolOf? (n.typeId t) = some (id t) :=
    fun t ht => Assignment.type_eq_some.mpr (recovered _ ht)
  have procedures : ∀ p, .procedure p ∈ r.operands →
      Assignment.procedure n.symbolOf? (n.procedureId p) = some (id p) :=
    fun p hp => Assignment.procedure_eq_some.mpr (recovered _ hp)
  rw [Numbering.unsealed?, Numbering.sealed, Record.mapM_map, Record.mapM_of_some types procedures,
    Record.map_id]

theorem mapM_map_of_inverse {α β : Type} {f : α → β} {g : β → Option α} {xs : List α}
    (h : ∀ x ∈ xs, g (f x) = some x) : (xs.map f).mapM g = some xs := by
  induction xs with
  | nil => rfl
  | cons x xs ih =>
    rw [List.map_cons, List.mapM_cons, h x List.mem_cons_self,
      ih fun y hy => h y (List.mem_cons_of_mem x hy)]
    rfl

/-- A ledger that is searched as it is listed, and lists nothing twice. -/
structure Ledger.Distinct (l : Ledger) : Prop where
  faithful : l.Faithful
  nodup : l.records.Nodup

theorem Ledger.Distinct.empty : Ledger.empty.Distinct := ⟨Ledger.faithful_empty, List.nodup_nil⟩

theorem Ledger.Distinct.insert {l : Ledger} (h : l.Distinct) (r : LiveRecord) :
    (l.insert r).2.Distinct := by
  refine ⟨h.faithful.insert r, ?_⟩
  rw [Ledger.records_insert]
  cases hc : l.contains r with
  | true =>
    rw [if_pos rfl]
    exact h.nodup
  | false =>
    have new : r ∉ l.records := by
      rw [← h.faithful r, hc]
      exact Bool.false_ne_true
    rw [if_neg Bool.false_ne_true, ← List.concat_eq_append]
    exact h.nodup.concat new

namespace Session

variable {model : Model} {config : Config} {ops : List Operation} {s s₀ t : Session}

theorem Reaches.distinct (h : Reaches s₀ t)
    (new : s₀ = forCompile model config ∨ s₀ = forLoad model config) : t.ledger.Distinct := by
  refine h.keeps (I := fun s => s.ledger.Distinct) ?_ ?_
  · intro given s s' distinct move
    cases move with
    | confirm | derive => exact distinct.insert _
    | region | reseed | seed | «sealed» | bind | validated | reject => exact distinct
  · rcases new with rfl | rfl <;> exact Ledger.Distinct.empty

theorem Recording.unsealed?_sealed (h : Recording model t) :
    ∀ r ∈ t.ledger.records, t.numbering.unsealed? (t.numbering.sealed r) = some r := by
  obtain ⟨seeds, recorded⟩ := h.recorded
  obtain ⟨known, lists, derives⟩ := recorded.lists
  exact fun r hr => lists.unsealed?_sealed (derives.mem_of_mem_operands hr)

/-- Wherever operations have led, what a session seals are its records, as many and in their
order, of the same kinds and with the same data, and no two alike; and its own numbering leads
back from the sealed records to those it lists. -/
theorem sealing_loses_nothing
    (new : s₀ = forCompile model config ∨ s₀ = forLoad model config)
    (issued : (.sealRecords, t) ∈ issuedAll model ops s₀)
    (building : t.phase = .building) (closed : t.region.isOpen = false) :
    ∃ records sealed, (perform model .records t).1 = .records records ∧
      perform model .sealRecords t = (.sealed sealed, { t with phase := .sealed }) ∧
      sealed.length = records.length ∧ sealed.Nodup ∧
      (∀ (i : Nat) r r', records[i]? = some r → sealed[i]? = some r' →
        r'.kind = r.kind ∧ r'.data = r.data) ∧
      sealed.mapM t.numbering.unsealed? = some records := by
  have reaches := Reaches.issuedAll issued
  have recording := reaches.recording new building closed
  obtain ⟨seeds, recorded⟩ := recording.recorded
  refine ⟨t.ledger.records, t.ledger.records.map t.numbering.sealed, rfl, ?_, List.length_map _,
    ?_, ?_, mapM_map_of_inverse recording.unsealed?_sealed⟩
  · rw [perform, settle, recorded.sealRecords_eq building closed]
  · -- Records that are sealed alike are read back alike.
    refine (reaches.distinct new).nodup.map_on ?_
    intro r hr r' hr' same
    have read := recording.unsealed?_sealed r hr
    rw [same, recording.unsealed?_sealed r' hr'] at read
    exact (Option.some.inj read).symm
  · intro i r r' hr hr'
    rw [List.getElem?_map, hr] at hr'
    cases hr'
    exact ⟨Numbering.kind_sealed _ r, Record.data_map _ _ r⟩

theorem sealing_loses_nothing_of_named :
    let model := Model.uniform ⟨0⟩ ⟨1⟩ (some ⟨2⟩) none ⟨List.replicate 32 0, rfl⟩
    let s₀ := forCompile model default
    let ops : List Operation := [.add (.named (some ⟨2⟩) (.seenBy ⟨0⟩)), .add (.named none .system)]
    let t := (performAll model ops s₀).2
    (.sealRecords, t) ∈ issuedAll model (ops ++ [.sealRecords]) s₀ ∧
      t.phase = .building ∧ t.region.isOpen = false ∧
      ∃ records sealed, (perform model .records t).1 = .records records ∧
        perform model .sealRecords t = (.sealed sealed, { t with phase := .sealed }) ∧
        sealed.length = records.length ∧ sealed.Nodup ∧
        (∀ (i : Nat) r r', records[i]? = some r → sealed[i]? = some r' →
          r'.kind = r.kind ∧ r'.data = r.data) ∧
        sealed.mapM t.numbering.unsealed? = some records := by
  intro model s₀ ops t
  have grows : Grows (fun _ => True) s₀ t :=
    adds_grow model [.named (some ⟨2⟩) (.seenBy ⟨0⟩), .named none .system] _
  have building : t.phase = .building := grows.phase
  have closed : t.region.isOpen = false := by
    rw [grows.region]
    rfl
  have issued : (.sealRecords, t) ∈ issuedAll model (ops ++ [.sealRecords]) s₀ :=
    mem_issuedAll_last .sealRecords ops s₀
  exact ⟨issued, building, closed,
    sealing_loses_nothing (.inl rfl) issued building closed⟩

end Session

end Provenance
