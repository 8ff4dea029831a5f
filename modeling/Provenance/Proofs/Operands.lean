import Provenance.Record.Fields

/-!
Replacing the operands of records. A rule or a check reads its own operands and nothing
else, and the premises of a record are exactly these, also where the symbol it derives
occurs among them. Replacement by plain functions is the case that no other one differs
from where the operands are concerned.
-/
namespace Provenance

variable {T P T' P' T'' P'' : Type}

def TypeRule.operands : TypeRule T P → List (Operand T P)
  | .byName t _ | .fromEntry t _ | .definingFromEntry t _ _ | .staticFromEntry t _
  | .fromDispatchEntry t _ | .declaringField t _ | .componentOf t | .arrayOf t | .superOf t
  | .metaOf t | .concreteSubtypeOf t => [.type t]
  | .ownerOf p => [.procedure p]
  | .profiled .. | .systemByName .. => []

def ProcRule.operands : ProcRule T P → List (Operand T P)
  | .declaredBy t _ | .staticFromEntry t _ | .specialFromEntry t _ | .virtualFromEntry t _
  | .virtualFromOffset t _ _ | .improperFromEntry t _ => [.type t]
  | .interfaceFromEntry t u _ | .bySignature t u _ _ => [.type t, .type u]
  | .singleImplementer t p _ | .singleInterfaceImplementer t p _
  | .singleAbstractImplementer t p _ => [.type t, .procedure p]

def Check.operands : Check T P → List (Operand T P)
  | .instanceOf t u _ _ _ => [.type t, .type u]
  | .chain t _ | .initialized t _ => [.type t]
  | .skipFrames t p _ => [.type t, .procedure p]

def Operand.map (f : T → T') (g : P → P') : Operand T P → Operand T' P'
  | .type t => .type (f t)
  | .procedure p => .procedure (g p)

def TypeRule.map (f : T → T') (g : P → P') (rule : TypeRule T P) : TypeRule T' P' :=
  Id.run (rule.mapM (fun t => pure (f t)) fun p => pure (g p))

def ProcRule.map (f : T → T') (g : P → P') (rule : ProcRule T P) : ProcRule T' P' :=
  Id.run (rule.mapM (fun t => pure (f t)) fun p => pure (g p))

def Check.map (f : T → T') (g : P → P') (c : Check T P) : Check T' P' :=
  Id.run (c.mapM (fun t => pure (f t)) fun p => pure (g p))

def Record.map (f : T → T') (g : P → P') : Record T P → Record T' P'
  | .type t rule => .type (f t) (rule.map f g)
  | .procedure p rule => .procedure (g p) (rule.map f g)
  | .check c => .check (c.map f g)

@[simp] theorem Operand.category_map (f : T → T') (g : P → P') (x : Operand T P) :
    (x.map f g).category = x.category := by
  cases x <;> rfl

theorem Operand.map_injective {f : T → T'} {g : P → P'} (hf : Function.Injective f)
    (hg : Function.Injective g) : Function.Injective (Operand.map f g) := by
  intro x y h
  cases x with
  | type t =>
    cases y with
    | type u => rw [hf (Operand.type.inj h)]
    | procedure _ => cases h
  | procedure p =>
    cases y with
    | type _ => cases h
    | procedure q => rw [hg (Operand.procedure.inj h)]

theorem Record.defined_map (f : T → T') (g : P → P') (r : Record T P) :
    (r.map f g).defined = r.defined.map (Operand.map f g) := by
  cases r <;> rfl

theorem TypeRule.operands_map (f : T → T') (g : P → P') (rule : TypeRule T P) :
    (rule.map f g).operands = rule.operands.map (Operand.map f g) := by
  cases rule <;> rfl

theorem ProcRule.operands_map (f : T → T') (g : P → P') (rule : ProcRule T P) :
    (rule.map f g).operands = rule.operands.map (Operand.map f g) := by
  cases rule <;> rfl

theorem Check.operands_map (f : T → T') (g : P → P') (c : Check T P) :
    (c.map f g).operands = c.operands.map (Operand.map f g) := by
  cases c <;> rfl

theorem Record.kind_map (f : T → T') (g : P → P') (r : Record T P) :
    (r.map f g).kind = r.kind := by
  cases r with
  | type _ rule => cases rule <;> rfl
  | procedure _ rule => cases rule <;> rfl
  | check c => cases c <;> rfl

theorem Record.map_id (r : Record T P) : r.map id id = r := by
  cases r with
  | type _ rule => cases rule <;> rfl
  | procedure _ rule => cases rule <;> rfl
  | check c => cases c <;> rfl

theorem Record.map_map (f : T → T') (g : P → P') (f' : T' → T'') (g' : P' → P'')
    (r : Record T P) : (r.map f g).map f' g' = r.map (f' ∘ f) (g' ∘ g) := by
  cases r with
  | type _ rule => cases rule <;> rfl
  | procedure _ rule => cases rule <;> rfl
  | check c => cases c <;> rfl

section Premises

variable [DecidableEq T] [DecidableEq P]

theorem Record.premises_type (t : T) (rule : TypeRule T P) :
    (Record.type t rule).premises = rule.operands := by
  cases rule <;> exact List.erase_cons_head (α := Operand T P) _ _

/-- The procedure a record derives comes after its types, and before any other procedure. -/
theorem Record.premises_procedure (p : P) (rule : ProcRule T P) :
    (Record.procedure p rule).premises = rule.operands := by
  cases rule <;> simp [Record.premises, Record.defined, Record.operands, Record.values,
    ProcRule.values, Record.kind, ProcRule.kind, Kind.fields, Kind.row, Values.operands,
    ProcRule.operands]

theorem Record.premises_check (c : Check T P) : (Record.check c).premises = c.operands := by
  cases c <;> rfl

theorem Record.premises_map [DecidableEq T'] [DecidableEq P'] (f : T → T') (g : P → P')
    (r : Record T P) : (r.map f g).premises = r.premises.map (Operand.map f g) := by
  cases r with
  | type t rule =>
    rw [Record.premises_type, ← TypeRule.operands_map, Record.map, Record.premises_type]
  | procedure p rule =>
    rw [Record.premises_procedure, ← ProcRule.operands_map, Record.map,
      Record.premises_procedure]
  | check c => rw [Record.premises_check, ← Check.operands_map, Record.map, Record.premises_check]

/-- What a record speaks of is the symbol it derives and its premises. -/
theorem Record.mem_operands_iff {r : Record T P} {x : Operand T P} :
    x ∈ r.operands ↔ r.defined = some x ∨ x ∈ r.premises := by
  cases hd : r.defined with
  | none => simp [Record.premises, hd]
  | some y =>
    have hperm := List.perm_cons_erase (Record.defined_mem_operands hd)
    rw [hperm.mem_iff]
    simp only [Record.premises, hd, List.mem_cons, Option.some.injEq, eq_comm]

theorem Record.mem_operands_map [DecidableEq T'] [DecidableEq P'] {f : T → T'} {g : P → P'}
    {r : Record T P} {y : Operand T' P'} :
    y ∈ (r.map f g).operands ↔ ∃ x ∈ r.operands, x.map f g = y := by
  simp only [mem_operands_iff, defined_map, premises_map, Option.map_eq_some_iff, List.mem_map,
    or_and_right, exists_or]

end Premises

section Replacing

variable {m : Type → Type} [Monad m] {f f' : T → m T'} {g g' : P → m P'}

theorem TypeRule.mapM_congr {rule : TypeRule T P}
    (hf : ∀ t, .type t ∈ rule.operands → f t = f' t)
    (hg : ∀ p, .procedure p ∈ rule.operands → g p = g' p) :
    rule.mapM f g = rule.mapM f' g' := by
  cases rule <;> simp_all [TypeRule.operands, TypeRule.mapM]

theorem ProcRule.mapM_congr {rule : ProcRule T P}
    (hf : ∀ t, .type t ∈ rule.operands → f t = f' t)
    (hg : ∀ p, .procedure p ∈ rule.operands → g p = g' p) :
    rule.mapM f g = rule.mapM f' g' := by
  cases rule <;> simp_all [ProcRule.operands, ProcRule.mapM]

theorem Check.mapM_congr {c : Check T P}
    (hf : ∀ t, .type t ∈ c.operands → f t = f' t)
    (hg : ∀ p, .procedure p ∈ c.operands → g p = g' p) :
    c.mapM f g = c.mapM f' g' := by
  cases c <;> simp_all [Check.operands, Check.mapM]

theorem TypeRule.mapM_map {T₀ P₀ : Type} (f₀ : T₀ → T) (g₀ : P₀ → P) (rule : TypeRule T₀ P₀) :
    (rule.map f₀ g₀).mapM f g = rule.mapM (fun t => f (f₀ t)) fun p => g (g₀ p) := by
  cases rule <;> rfl

theorem ProcRule.mapM_map {T₀ P₀ : Type} (f₀ : T₀ → T) (g₀ : P₀ → P) (rule : ProcRule T₀ P₀) :
    (rule.map f₀ g₀).mapM f g = rule.mapM (fun t => f (f₀ t)) fun p => g (g₀ p) := by
  cases rule <;> rfl

theorem Check.mapM_map {T₀ P₀ : Type} (f₀ : T₀ → T) (g₀ : P₀ → P) (c : Check T₀ P₀) :
    (c.map f₀ g₀).mapM f g = c.mapM (fun t => f (f₀ t)) fun p => g (g₀ p) := by
  cases c <;> rfl

end Replacing

section Partial

variable {f : T → Option T'} {g : P → Option P'}

theorem TypeRule.mapM_some (f : T → T') (g : P → P') (rule : TypeRule T P) :
    rule.mapM (fun t => some (f t)) (fun p => some (g p)) = some (rule.map f g) := by
  cases rule <;> rfl

theorem TypeRule.mapM_map_some {T₀ P₀ : Type} {f₀ : T₀ → T} {g₀ : P₀ → P} {f' : T₀ → T'}
    {g' : P₀ → P'} {rule : TypeRule T₀ P₀}
    (hf : ∀ t, .type t ∈ rule.operands → f (f₀ t) = some (f' t))
    (hg : ∀ p, .procedure p ∈ rule.operands → g (g₀ p) = some (g' p)) :
    (rule.map f₀ g₀).mapM f g = some (rule.map f' g') := by
  rw [TypeRule.mapM_map, ← TypeRule.mapM_some]
  exact TypeRule.mapM_congr hf hg

theorem ProcRule.mapM_some (f : T → T') (g : P → P') (rule : ProcRule T P) :
    rule.mapM (fun t => some (f t)) (fun p => some (g p)) = some (rule.map f g) := by
  cases rule <;> rfl

theorem ProcRule.mapM_map_some {T₀ P₀ : Type} {f₀ : T₀ → T} {g₀ : P₀ → P} {f' : T₀ → T'}
    {g' : P₀ → P'} {rule : ProcRule T₀ P₀}
    (hf : ∀ t, .type t ∈ rule.operands → f (f₀ t) = some (f' t))
    (hg : ∀ p, .procedure p ∈ rule.operands → g (g₀ p) = some (g' p)) :
    (rule.map f₀ g₀).mapM f g = some (rule.map f' g') := by
  rw [ProcRule.mapM_map, ← ProcRule.mapM_some]
  exact ProcRule.mapM_congr hf hg

theorem Check.mapM_some (f : T → T') (g : P → P') (c : Check T P) :
    c.mapM (fun t => some (f t)) (fun p => some (g p)) = some (c.map f g) := by
  cases c <;> rfl

theorem Check.mapM_map_some {T₀ P₀ : Type} {f₀ : T₀ → T} {g₀ : P₀ → P} {f' : T₀ → T'}
    {g' : P₀ → P'} {c : Check T₀ P₀}
    (hf : ∀ t, .type t ∈ c.operands → f (f₀ t) = some (f' t))
    (hg : ∀ p, .procedure p ∈ c.operands → g (g₀ p) = some (g' p)) :
    (c.map f₀ g₀).mapM f g = some (c.map f' g') := by
  rw [Check.mapM_map, ← Check.mapM_some]
  exact Check.mapM_congr hf hg

theorem TypeRule.isSome_of_mapM {rule : TypeRule T P} (h : (rule.mapM f g).isSome) :
    (∀ t, .type t ∈ rule.operands → (f t).isSome) ∧
      ∀ p, .procedure p ∈ rule.operands → (g p).isSome := by
  cases rule <;> simp_all [TypeRule.operands, TypeRule.mapM, Option.isSome_bind]

theorem ProcRule.isSome_of_mapM {rule : ProcRule T P} (h : (rule.mapM f g).isSome) :
    (∀ t, .type t ∈ rule.operands → (f t).isSome) ∧
      ∀ p, .procedure p ∈ rule.operands → (g p).isSome := by
  cases rule <;> simp_all [ProcRule.operands, ProcRule.mapM, Option.isSome_bind,
    Option.any_eq_true, Option.isSome_iff_exists]

theorem Check.isSome_of_mapM {c : Check T P} (h : (c.mapM f g).isSome) :
    (∀ t, .type t ∈ c.operands → (f t).isSome) ∧
      ∀ p, .procedure p ∈ c.operands → (g p).isSome := by
  cases c <;> simp_all [Check.operands, Check.mapM, Option.isSome_bind, Option.any_eq_true,
    Option.isSome_iff_exists]

theorem TypeRule.isSome_mapM {rule : TypeRule T P}
    (hf : ∀ t, .type t ∈ rule.operands → (f t).isSome)
    (hg : ∀ p, .procedure p ∈ rule.operands → (g p).isSome) : (rule.mapM f g).isSome := by
  cases rule <;> simp_all [TypeRule.operands, TypeRule.mapM, Option.isSome_bind]

theorem ProcRule.isSome_mapM {rule : ProcRule T P}
    (hf : ∀ t, .type t ∈ rule.operands → (f t).isSome)
    (hg : ∀ p, .procedure p ∈ rule.operands → (g p).isSome) : (rule.mapM f g).isSome := by
  cases rule <;> simp_all [ProcRule.operands, ProcRule.mapM, Option.isSome_bind,
    Option.any_eq_true, Option.isSome_iff_exists]

theorem Check.isSome_mapM {c : Check T P}
    (hf : ∀ t, .type t ∈ c.operands → (f t).isSome)
    (hg : ∀ p, .procedure p ∈ c.operands → (g p).isSome) : (c.mapM f g).isSome := by
  cases c <;> simp_all [Check.operands, Check.mapM, Option.isSome_bind, Option.any_eq_true,
    Option.isSome_iff_exists]

theorem TypeRule.replaced_of_mapM {rule : TypeRule T P} {rule' : TypeRule T' P'}
    (h : rule.mapM f g = some rule') :
    (∀ t, .type t ∈ rule'.operands → ∃ u, f u = some t) ∧
      ∀ p, .procedure p ∈ rule'.operands → ∃ q, g q = some p := by
  cases rule with
  | profiled | systemByName =>
    cases h
    simp [TypeRule.operands]
  | ownerOf q =>
    obtain ⟨p, hp, hrule⟩ := Option.bind_eq_some_iff.mp h
    cases hrule
    simpa [TypeRule.operands] using ⟨q, hp⟩
  | byName u | fromEntry u | definingFromEntry u | staticFromEntry u | componentOf u | arrayOf u
  | superOf u | fromDispatchEntry u | declaringField u | metaOf u | concreteSubtypeOf u =>
    obtain ⟨t, ht, hrule⟩ := Option.bind_eq_some_iff.mp h
    cases hrule
    simpa [TypeRule.operands] using ⟨u, ht⟩

theorem ProcRule.replaced_of_mapM {rule : ProcRule T P} {rule' : ProcRule T' P'}
    (h : rule.mapM f g = some rule') :
    (∀ t, .type t ∈ rule'.operands → ∃ u, f u = some t) ∧
      ∀ p, .procedure p ∈ rule'.operands → ∃ q, g q = some p := by
  cases rule with
  | declaredBy u | staticFromEntry u | specialFromEntry u | virtualFromEntry u
  | virtualFromOffset u | improperFromEntry u =>
    obtain ⟨t, ht, hrule⟩ := Option.bind_eq_some_iff.mp h
    cases hrule
    simpa [ProcRule.operands] using ⟨u, ht⟩
  | interfaceFromEntry u v | bySignature u v =>
    obtain ⟨t, ht, hrest⟩ := Option.bind_eq_some_iff.mp h
    obtain ⟨s, hs, hrule⟩ := Option.bind_eq_some_iff.mp hrest
    cases hrule
    simpa [ProcRule.operands] using And.intro ⟨u, ht⟩ ⟨v, hs⟩
  | singleImplementer u q | singleInterfaceImplementer u q | singleAbstractImplementer u q =>
    obtain ⟨t, ht, hrest⟩ := Option.bind_eq_some_iff.mp h
    obtain ⟨p, hp, hrule⟩ := Option.bind_eq_some_iff.mp hrest
    cases hrule
    simpa [ProcRule.operands] using And.intro ⟨u, ht⟩ ⟨q, hp⟩

theorem Check.replaced_of_mapM {c : Check T P} {c' : Check T' P'} (h : c.mapM f g = some c') :
    (∀ t, .type t ∈ c'.operands → ∃ u, f u = some t) ∧
      ∀ p, .procedure p ∈ c'.operands → ∃ q, g q = some p := by
  cases c with
  | chain u | initialized u =>
    obtain ⟨t, ht, hc⟩ := Option.bind_eq_some_iff.mp h
    cases hc
    simpa [Check.operands] using ⟨u, ht⟩
  | instanceOf u v =>
    obtain ⟨t, ht, hrest⟩ := Option.bind_eq_some_iff.mp h
    obtain ⟨s, hs, hc⟩ := Option.bind_eq_some_iff.mp hrest
    cases hc
    simpa [Check.operands] using And.intro ⟨u, ht⟩ ⟨v, hs⟩
  | skipFrames u q =>
    obtain ⟨p, hp, hrest⟩ := Option.bind_eq_some_iff.mp h
    obtain ⟨t, ht, hc⟩ := Option.bind_eq_some_iff.mp hrest
    cases hc
    simpa [Check.operands] using And.intro ⟨u, ht⟩ ⟨q, hp⟩

end Partial

end Provenance
