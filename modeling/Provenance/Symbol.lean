/-!
Handles of live types and procedures, and the symbols they form.
A handle is an index into one running program, and equality of handles is
identity of the things they stand for.
-/
namespace Provenance

structure TypeRef where
  index : Nat
deriving DecidableEq, Hashable, Inhabited, Repr

structure ProcRef where
  index : Nat
deriving DecidableEq, Hashable, Inhabited, Repr

inductive Category where
  | type
  | procedure
deriving DecidableEq, Hashable, Repr

/-- A place for a symbol of either category. Records hold handles in it while they
are made and symbol IDs once they are sealed. -/
inductive Operand (T P : Type) where
  | type (t : T)
  | procedure (p : P)
deriving DecidableEq, Hashable, Repr

abbrev Symbol := Operand TypeRef ProcRef

namespace Operand

variable {T P : Type}

def category : Operand T P → Category
  | .type _ => .type
  | .procedure _ => .procedure

def asType : Operand T P → Option T
  | .type t => some t
  | .procedure _ => none

def asProcedure : Operand T P → Option P
  | .type _ => none
  | .procedure p => some p

theorem asType_eq_some {x : Operand T P} {t : T} : x.asType = some t ↔ x = .type t := by
  cases x <;> simp [asType]

theorem asProcedure_eq_some {x : Operand T P} {p : P} :
    x.asProcedure = some p ↔ x = .procedure p := by
  cases x <;> simp [asProcedure]

end Operand

instance : ToString TypeRef := ⟨fun t => s!"type@{t.index}"⟩

instance : ToString ProcRef := ⟨fun p => s!"proc@{p.index}"⟩

instance {T P : Type} [ToString T] [ToString P] : ToString (Operand T P) where
  toString
    | .type t => toString t
    | .procedure p => toString p

instance : ToString Category where
  toString
    | .type => "Type"
    | .procedure => "Procedure"

/-- Handles are kept in 32 bits, and the largest value is never handed out. -/
def handleLimit : Nat := 4294967295

/-- The index asked for does not fit a handle of the category. -/
structure HandleOverflow where
  category : Category
deriving DecidableEq, Repr

def HandleOverflow.message (e : HandleOverflow) : String :=
  match e.category with
  | .type => "TypeRef index exceeded u32::MAX range"
  | .procedure => "ProcRef index exceeded u32::MAX range"

def Symbol.ofIndex (c : Category) (n : Nat) : Except HandleOverflow Symbol :=
  if n < handleLimit then
    match c with
    | .type => .ok (.type ⟨n⟩)
    | .procedure => .ok (.procedure ⟨n⟩)
  else .error ⟨c⟩

theorem Symbol.category_of_ofIndex {c : Category} {n : Nat} {s : Symbol}
    (h : Symbol.ofIndex c n = .ok s) : s.category = c := by
  unfold Symbol.ofIndex at h
  split at h
  · cases c <;> cases h <;> rfl
  · cases h

/-- Handles are ordered by their index. -/
instance : Ord TypeRef := ⟨fun a b => compare a.index b.index⟩

instance : Ord ProcRef := ⟨fun a b => compare a.index b.index⟩

instance : Std.TransOrd TypeRef where
  eq_swap := Std.OrientedOrd.eq_swap (α := Nat)
  isLE_trans := Std.TransOrd.isLE_trans (α := Nat)

instance : Std.TransOrd ProcRef where
  eq_swap := Std.OrientedOrd.eq_swap (α := Nat)
  isLE_trans := Std.TransOrd.isLE_trans (α := Nat)

instance : Std.LawfulEqOrd TypeRef where
  compare_self := Std.ReflOrd.compare_self (α := Nat)
  eq_of_compare {a b} h := by
    cases a; cases b; exact congrArg TypeRef.mk (Std.LawfulEqOrd.eq_of_compare h)

instance : Std.LawfulEqOrd ProcRef where
  compare_self := Std.ReflOrd.compare_self (α := Nat)
  eq_of_compare {a b} h := by
    cases a; cases b; exact congrArg ProcRef.mk (Std.LawfulEqOrd.eq_of_compare h)

end Provenance
