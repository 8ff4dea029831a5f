import Mathlib.Data.List.Nodup
import Provenance.Proofs.Refusing

/-!
What a report of a name records of an array. Walking inward, a type is an array of a component,
that may be an array again, and so on; the report walks outward from the innermost component and
asks for one array after the other. In a world that was built both walks meet the same types, so
every layer of the type is recorded, as the array of the layer below, and nothing that was on
record is recorded again.
-/
namespace Provenance

namespace Ledger

/-- Adds those records of a list that are not there. -/
def insertAll (l : Ledger) (records : List LiveRecord) : Ledger :=
  records.foldl (fun l r => (l.insert r).2) l

@[simp] theorem insertAll_nil (l : Ledger) : l.insertAll [] = l := rfl

@[simp] theorem insertAll_cons (l : Ledger) (r : LiveRecord) (records : List LiveRecord) :
    l.insertAll (r :: records) = (l.insert r).2.insertAll records := rfl

theorem insertAll_append (l : Ledger) (records more : List LiveRecord) :
    l.insertAll (records ++ more) = (l.insertAll records).insertAll more := List.foldl_append

/-- Of records that are all different, those are appended that were not there before. -/
theorem records_insertAll {l : Ledger} {records : List LiveRecord} (nodup : records.Nodup) :
    (l.insertAll records).records =
      l.records ++ records.filter fun r => !l.contains r := by
  induction records generalizing l with
  | nil => simp
  | cons r records ih =>
    obtain ⟨other, nodup⟩ := List.nodup_cons.mp nodup
    rw [insertAll_cons, ih nodup]
    cases hc : l.contains r with
    | true => simp [insert_of_contains hc, hc]
    | false =>
      have same : records.filter (fun r' => !(l.insert r).2.contains r') =
          records.filter fun r' => !l.contains r' := by
        refine List.filter_congr fun r' hr' => congrArg _ (Bool.eq_iff_iff.mpr ?_)
        rw [contains_insert, or_iff_right]
        rintro rfl
        exact other hr'
      rw [same, Session.records_insert_of_fresh hc]
      simp [hc]

end Ledger

/-- One more at the end makes one more pair of neighbours. -/
theorem zip_tail_append {α : Type} {xs : List α} {x y : α} (last : xs.getLast? = some x) :
    (xs ++ [y]).zip (xs ++ [y]).tail = xs.zip xs.tail ++ [(x, y)] := by
  induction xs with
  | nil => cases last
  | cons first xs ih =>
    cases xs with
    | nil =>
      cases last
      rfl
    | cons second xs =>
      have rest := ih (by simpa using last)
      simpa using rest

namespace Model

variable (m : Model)

/-- A type after everything it is an array of, the innermost component first. -/
def layers (t : TypeRef) : List TypeRef :=
  match _h : m.componentType t with
  | none => [t]
  | some component => layers component ++ [t]
termination_by m.finiteNesting.wrap t
decreasing_by assumption

/-- The records that each layer is the array of the one below. -/
def layerRecords (t : TypeRef) : List LiveRecord :=
  ((m.layers t).zip (m.layers t).tail).map fun (component, array) => .type array (.arrayOf component)

variable {m} {t component : TypeRef}

theorem layers_of_none (h : m.componentType t = none) : m.layers t = [t] := by
  rw [layers]
  split
  · rfl
  · simp_all

theorem layers_of_some (h : m.componentType t = some component) :
    m.layers t = m.layers component ++ [t] := by
  rw [layers]
  split
  · simp_all
  · simp_all

theorem getLast?_layers (m : Model) (t : TypeRef) : (m.layers t).getLast? = some t := by
  cases h : m.componentType t with
  | none => rw [layers_of_none h, List.getLast?_singleton]
  | some component => rw [layers_of_some h, List.getLast?_concat]

theorem head?_layers (m : Model) (t : TypeRef) :
    (m.layers t).head? = some (m.baseComponent t).1 := by
  induction t using m.finiteNesting.induction with
  | _ t ih =>
    cases h : m.componentType t with
    | none => rw [layers_of_none h, m.baseComponent_of_none h, List.head?_singleton]
    | some component =>
      rw [layers_of_some h, m.baseComponent_of_some h, List.head?_append, ih component h,
        Option.some_or]

/-- There is a layer for each dimension, and the innermost component. -/
theorem length_layers (m : Model) (t : TypeRef) :
    (m.layers t).length = (m.baseComponent t).2 + 1 := by
  induction t using m.finiteNesting.induction with
  | _ t ih =>
    cases h : m.componentType t with
    | none => rw [layers_of_none h, m.baseComponent_of_none h, List.length_singleton]
    | some component =>
      rw [layers_of_some h, m.baseComponent_of_some h, List.length_append, ih component h,
        List.length_singleton]

theorem layerRecords_of_none (h : m.componentType t = none) : m.layerRecords t = [] := by
  rw [layerRecords, layers_of_none h]
  rfl

theorem layerRecords_of_some (h : m.componentType t = some component) :
    m.layerRecords t = m.layerRecords component ++ [.type t (.arrayOf component)] := by
  rw [layerRecords, layers_of_some h, zip_tail_append (m.getLast?_layers component),
    List.map_append]
  rfl

/-- A layer has no more dimensions than the whole. -/
theorem dims_le_of_mem_layers {u : TypeRef} (hu : u ∈ m.layers t) :
    (m.baseComponent u).2 ≤ (m.baseComponent t).2 := by
  induction t using m.finiteNesting.induction with
  | _ t ih =>
    cases h : m.componentType t with
    | none =>
      rw [layers_of_none h, List.mem_singleton] at hu
      rw [hu]
    | some component =>
      rw [layers_of_some h, List.mem_append, List.mem_singleton] at hu
      rcases hu with hu | rfl
      · have below := ih component h hu
        rw [m.baseComponent_of_some h]
        omega
      · exact Nat.le_refl _

/-- A layer is the innermost component, or it is recorded as the array of another layer. -/
theorem mem_layers_iff {u : TypeRef} :
    u ∈ m.layers t ↔ u = (m.baseComponent t).1 ∨
      ∃ component, .type u (.arrayOf component) ∈ m.layerRecords t := by
  induction t using m.finiteNesting.induction with
  | _ t ih =>
    cases h : m.componentType t with
    | none =>
      rw [layers_of_none h, m.baseComponent_of_none h, layerRecords_of_none h]
      simp
    | some component =>
      rw [layers_of_some h, m.baseComponent_of_some h, layerRecords_of_some h, List.mem_append,
        ih component h, List.mem_singleton]
      constructor
      · rintro ((base | ⟨below, mem⟩) | rfl)
        · exact .inl base
        · exact .inr ⟨below, List.mem_append_left _ mem⟩
        · exact .inr ⟨component, List.mem_append_right _ (List.mem_singleton.mpr rfl)⟩
      · rintro (base | ⟨below, mem⟩)
        · exact .inl (.inl base)
        · rcases List.mem_append.mp mem with mem | last
          · exact .inl (.inr ⟨below, mem⟩)
          · cases List.mem_singleton.mp last
            exact .inr rfl

theorem exists_of_mem_layerRecords {r : LiveRecord} (hr : r ∈ m.layerRecords t) :
    ∃ u component, r = .type u (.arrayOf component) := by
  obtain ⟨⟨component, u⟩, -, rfl⟩ := List.mem_map.mp hr
  exact ⟨u, component, rfl⟩

theorem nodup_layerRecords (m : Model) (t : TypeRef) : (m.layerRecords t).Nodup := by
  induction t using m.finiteNesting.induction with
  | _ t ih =>
    cases h : m.componentType t with
    | none =>
      rw [layerRecords_of_none h]
      exact List.nodup_nil
    | some component =>
      rw [layerRecords_of_some h, ← List.concat_eq_append]
      refine (ih component h).concat fun mem => ?_
      -- Were it recorded below, the type would be a layer of its own component.
      have layer : t ∈ m.layers component := mem_layers_iff.mpr (.inr ⟨component, mem⟩)
      have deep := dims_le_of_mem_layers layer
      rw [m.baseComponent_of_some h] at deep
      omega

theorem isArray_baseComponent (m : Model) (t : TypeRef) :
    m.isArray (m.baseComponent t).1 = false := by
  induction t using m.finiteNesting.induction with
  | _ t ih =>
    cases h : m.componentType t with
    | none => rw [m.baseComponent_of_none h, isArray, h, Option.isSome_none]
    | some component =>
      rw [m.baseComponent_of_some h]
      exact ih component h

/-- One dimension more is one array more, at the end. -/
theorem arrayRecords?_succ {dims : Nat} {base top array : TypeRef} {records : List LiveRecord}
    (below : m.arrayOn dims base = some top) (asks : arrayRecords? m dims base = some records)
    (next : m.arrayType top = some array) :
    arrayRecords? m (dims + 1) base = some (records ++ [.type array (.arrayOf top)]) := by
  induction dims generalizing base records with
  | zero =>
    cases below
    cases asks
    simp [arrayRecords?, next]
  | succ dims ih =>
    obtain ⟨first, hfirst, below⟩ := Option.bind_eq_some_iff.mp below
    simp only [arrayRecords?, hfirst, Option.map_eq_some_iff] at asks
    obtain ⟨records, asks, rfl⟩ := asks
    rw [arrayRecords?, hfirst]
    simp only [ih below asks, Option.map_some, List.cons_append]

/-- The walk outward from the innermost component asks for the layers that the walk inward
finds. -/
theorem Linked.arrayRecords?_layers (linked : m.Linked) (t : TypeRef) :
    arrayRecords? m (m.baseComponent t).2 (m.baseComponent t).1 = some (m.layerRecords t) := by
  induction t using m.finiteNesting.induction with
  | _ t ih =>
    cases h : m.componentType t with
    | none =>
      rw [m.baseComponent_of_none h, layerRecords_of_none h]
      rfl
    | some component =>
      rw [m.baseComponent_of_some h, layerRecords_of_some h]
      exact arrayRecords?_succ (linked.arrayOn_baseComponent component) (ih component h)
        ((linked component t).mpr h)

end Model

namespace Session

variable {model : Model} {config : Config} {s s' s₀ t : Session} {ty component : TypeRef}
  {rule : TypeRule TypeRef ProcRef} {naming : Naming} {records : List LiveRecord} {dims : Nat}
  {d : Discovery}

namespace Recording

/-- A type is recorded, and with its first record the chain that is due. -/
theorem ledger_of_addType (h : Recording model s)
    (done : Session.addType model ty rule s = .ok () s') :
    Recording model s' ∧ s'.ledger = s.ledger.insertAll (.type ty rule ::
      if (s.numbering.id? (.type ty)).isSome then [] else chainOf model ty) := by
  have premises : ∀ x ∈ (Record.type ty rule).premises, (s.numbering.id? x).isSome := by
    rcases requirePremises_cases (.type ty rule) h.closed with ⟨premises, -⟩ | ⟨e, he⟩
    · exact premises
    · rw [Session.addType, bind_of_error he] at done
      cases done
  have proceeds := h.addType premises
  rw [done] at proceeds
  obtain ⟨recording, -⟩ : Recording model s' ∧ _ := by
    cases proceeds with
    | does so => exact so
  refine ⟨recording, ?_⟩
  cases hid : s.numbering.id? (.type ty) with
  | some id =>
    rw [addType_of_known h.closed premises (by rw [hid]; rfl)] at done
    cases done
    rfl
  | none =>
    cases hn : s.numbering.next with
    | none =>
      rw [h.addType_of_no_next premises hid hn] at done
      cases done
    | some id =>
      obtain ⟨seeds, recorded⟩ := h.recorded
      rw [addType_of_fresh h.closed premises hid (recorded.fresh rfl hid) hn] at done
      cases done
      unfold chained chainOf
      by_cases array : model.isArray ty = true
      · simp [array, Session.derived]
      · simp [array, Session.derived]

/-- Arrays have no chain, so they are recorded one by one and nothing else. -/
theorem ledger_of_addArrays (h : Recording model s) (linked : model.Linked)
    (asks : arrayRecords? model dims component = some records)
    (done : Session.addArrays model ty dims component s = .ok () s') :
    s'.ledger = s.ledger.insertAll records := by
  induction dims generalizing component records s with
  | zero =>
    cases asks
    cases done
    rfl
  | succ dims ih =>
    cases harray : model.arrayType component with
    | none => simp [arrayRecords?, harray] at asks
    | some array =>
      simp only [arrayRecords?, harray, Option.map_eq_some_iff] at asks
      obtain ⟨records, asks, rfl⟩ := asks
      rw [Session.addArrays, harray] at done
      obtain ⟨_, s₁, first, rest⟩ := bind_eq_ok done
      have isArray : model.isArray array = true := by
        rw [Model.isArray, (linked component array).mp harray]
        rfl
      obtain ⟨recording, first⟩ := h.ledger_of_addType first
      rw [chainOf, if_pos isArray, ite_self] at first
      rw [ih recording asks rest, first]
      rfl

/-- The records that are due with a report of a name: that of the innermost component, its chain
if it had no ID, and that of each array on top of it. -/
theorem ledger_of_addNamed (h : Recording model s) (linked : model.Linked)
    (done : addNamed model ty naming s = .ok () s') :
    s'.ledger = s.ledger.insertAll
      (.type (model.baseComponent ty).1 (naming.rule model (model.baseComponent ty).1) ::
        (if (s.numbering.id? (.type (model.baseComponent ty).1)).isSome then []
          else chainOf model (model.baseComponent ty).1) ++ model.layerRecords ty) := by
  have asks := linked.arrayRecords?_layers ty
  rw [addNamed] at done
  generalize model.baseComponent ty = nested at *
  obtain ⟨component, dims⟩ := nested
  simp only [get_bind] at done
  by_cases deep : s.config.maxArrayDimensions.toNat < dims
  · rw [if_pos deep] at done
    cases done
  · rw [if_neg deep] at done
    obtain ⟨_, s₁, first, rest⟩ := bind_eq_ok done
    obtain ⟨recording, first⟩ := h.ledger_of_addType first
    rw [recording.ledger_of_addArrays linked asks rest, first, List.cons_append,
      Ledger.insertAll_cons, Ledger.insertAll_cons, Ledger.insertAll_append]

end Recording

/-- A report is answered yes only while the session is building, outside of all regions. -/
theorem recording_of_told (told : (perform model (.add d) t).1 = .flag true) :
    t.phase = .building ∧ t.region.isOpen = false ∧
      add model d t = .ok true (perform model (.add d) t).2 := by
  have building : t.phase = .building := by
    by_contra other
    have refused : add model d t = .error _ t :=
      bind_of_error (gate_of_not_mem (by simpa using other))
    rw [perform, settle, refused] at told
    cases told
  have closed : t.region.isOpen = false := by
    cases inside : t.region.isOpen with
    | false => rfl
    | true =>
      rw [perform_add_of_open model d building inside] at told
      cases told
  refine ⟨building, closed, ?_⟩
  rw [perform, settle] at told ⊢
  cases done : add model d t with
  | ok answer s' =>
    rw [done] at told
    cases told
    rfl
  | error failure s' =>
    rw [done] at told
    cases told

theorem addNamed_of_told (told : (perform model (.add (.named (some ty) naming)) t).1 = .flag true) :
    addNamed model ty naming t =
      .ok () (perform model (.add (.named (some ty) naming)) t).2 := by
  obtain ⟨building, closed, done⟩ := recording_of_told told
  generalize (perform model (.add (.named (some ty) naming)) t).2 = s' at done ⊢
  rw [add, bind_of_ok (gate_of_mem (by simp [building])), get_bind, closed,
    if_neg Bool.false_ne_true] at done
  have done : (addNamed model ty naming >>= fun _ => pure true) t = .ok true s' := done
  obtain ⟨_, s₁, named, answer⟩ := bind_eq_ok done
  cases answer
  exact named

/-- The records that are due with a report of a name are all different. -/
theorem nodup_due (naming : Naming) {base : TypeRef} {first : List LiveRecord}
    (chain : first = [] ∨ first = [.check (.chain base (model.chainDigest base))]) :
    (.type base (naming.rule model base) :: first ++ model.layerRecords ty).Nodup := by
  have named : .type base (naming.rule model base) ∉ model.layerRecords ty := by
    intro mem
    obtain ⟨u, component, same⟩ := Model.exists_of_mem_layerRecords mem
    cases naming <;> cases same
  have checked : .check (.chain base (model.chainDigest base)) ∉ model.layerRecords ty := by
    intro mem
    obtain ⟨u, component, ⟨⟩⟩ := Model.exists_of_mem_layerRecords mem
  rcases chain with rfl | rfl
  · exact List.nodup_cons.mpr ⟨named, model.nodup_layerRecords ty⟩
  · refine List.nodup_cons.mpr ⟨?_, List.nodup_cons.mpr ⟨checked, model.nodup_layerRecords ty⟩⟩
    simpa using named

section Universe

variable {w : World} {ops : List Operation}

/-- If a type is reported to be found by its name, and the answer is yes, then every layer of it,
from the innermost component to the type itself, has an ID, and the innermost component is on
record under its name and each other layer as the array of the one below. What is appended is, in
this order, the record of the name, the chain of the innermost component if that had no ID, and the
records of the layers from the innermost one out, as far as they were not there. -/
theorem unrolling_is_complete_and_exact (built : w.Built)
    (new : s₀ = forCompile w.model config ∨ s₀ = forLoad w.model config)
    (issued : (.add (.named (some ty) naming), t) ∈ issuedAll w.model ops s₀)
    (told : (perform w.model (.add (.named (some ty) naming)) t).1 = .flag true) :
    let base := (w.model.baseComponent ty).1
    let dims := (w.model.baseComponent ty).2
    let layers := w.model.layers ty
    let named := Record.type base (naming.rule w.model base)
    let first := if (t.numbering.id? (.type base)).isSome then []
      else [Record.check (.chain base (w.model.chainDigest base))]
    let s' := (perform w.model (.add (.named (some ty) naming)) t).2
    (layers.head? = some base ∧ layers.getLast? = some ty ∧ layers.length = dims + 1) ∧
    (∀ u ∈ layers, (s'.numbering.id? (.type u)).isSome) ∧
    (∀ r ∈ named :: w.model.layerRecords ty, s'.ledger.contains r = true) ∧
    s'.ledger.records = t.ledger.records ++
      (named :: first ++ w.model.layerRecords ty).filter fun r => !t.ledger.contains r := by
  intro base dims layers named first s'
  have linked := built.model_linked
  obtain ⟨building, closed, -⟩ := recording_of_told told
  have recording := (Reaches.issuedAll issued).recording new building closed
  have stand : ∀ r ∈ named :: w.model.layerRecords ty, Stands r s' := by
    obtain ⟨records, asks, stand⟩ := (reported_of_flag told).named
    cases (linked.arrayRecords?_layers ty).symm.trans asks
    exact stand
  refine ⟨⟨w.model.head?_layers ty, w.model.getLast?_layers ty, w.model.length_layers ty⟩, ?_,
    fun r hr => (stand r hr).recorded, ?_⟩
  · intro u hu
    rcases Model.mem_layers_iff.mp hu with rfl | ⟨component, mem⟩
    · exact (stand named List.mem_cons_self).known _ (Record.mem_operands_iff.mpr (.inl rfl))
    · exact (stand _ (List.mem_cons_of_mem _ mem)).known _ (Record.mem_operands_iff.mpr (.inl rfl))
  · have plain : w.model.isArray base = false := w.model.isArray_baseComponent ty
    have ledger := recording.ledger_of_addNamed linked (addNamed_of_told told)
    rw [chainOf, plain, if_neg Bool.false_ne_true] at ledger
    have chain : first = [] ∨ first = [.check (.chain base (w.model.chainDigest base))] := by
      by_cases known : (t.numbering.id? (.type base)).isSome
      · exact .inl (if_pos known)
      · exact .inr (if_neg known)
    rw [← Ledger.records_insertAll (nodup_due naming chain)]
    exact congrArg Ledger.records ledger

theorem unrolling_is_complete_and_exact_of_array :
    let w := World.shadowed
    let report := Operation.add (.named (some ⟨3⟩) (.seenBy ⟨0⟩))
    let s₀ := forCompile w.model default
    w.Built ∧ w.model.layers ⟨3⟩ = [⟨2⟩, ⟨3⟩] ∧
      ∃ t, (report, t) ∈ issuedAll w.model [report] s₀ ∧
        (perform w.model report t).1 = .flag true ∧
        let s' := (perform w.model report t).2
        (s'.numbering.id? (.type ⟨2⟩)).isSome ∧ (s'.numbering.id? (.type ⟨3⟩)).isSome ∧
        s'.ledger.contains (.type ⟨3⟩ (.arrayOf ⟨2⟩)) = true := by
  intro w report s₀
  have layers : w.model.layers ⟨3⟩ = [⟨2⟩, ⟨3⟩] := by
    have array : w.model.componentType ⟨3⟩ = some ⟨2⟩ := rfl
    have plain : w.model.componentType ⟨2⟩ = none := rfl
    rw [Model.layers_of_some array, Model.layers_of_none plain]
    rfl
  obtain ⟨⟨t, issued, told⟩, -⟩ :=
    reported_after_seeds (.seenBy ⟨0⟩) default [] World.built_shadowed.model_linked
      World.baseComponent_shadowed_array (by decide) (by decide) (by decide)
  obtain ⟨-, known, made, -⟩ :=
    unrolling_is_complete_and_exact World.built_shadowed (.inl rfl) issued told
  rw [layers] at known
  have record : .type ⟨3⟩ (.arrayOf ⟨2⟩) ∈ w.model.layerRecords ⟨3⟩ := by
    rw [Model.layerRecords, layers]
    exact List.mem_singleton.mpr rfl
  exact ⟨World.built_shadowed, layers, t, issued, told, known ⟨2⟩ (by simp), known ⟨3⟩ (by simp),
    made _ (List.mem_cons_of_mem _ record)⟩

end Universe

end Session

end Provenance
