import Provenance.Symbol
import Provenance.SymbolId
import Std.Data.HashMap

/-!
The numbering of symbols in one session: which ID a symbol has, which symbol an ID
names, and which ID comes next. IDs are handed out in increasing order; binding an ID
that a record brings along takes none from the supply.
-/
namespace Provenance

structure Numbering where
  ids : Std.HashMap Symbol SymbolId
  symbols : Std.HashMap SymbolId Symbol
  next : Option SymbolId

/-- How an ID and the symbol it is claimed for fit what is known already. -/
inductive Binding where
  | bound
  | confirmed
  | conflict
deriving DecidableEq, Repr

namespace Numbering

def empty : Numbering := ⟨∅, ∅, some .first⟩

def id? (n : Numbering) (s : Symbol) : Option SymbolId := n.ids[s]?

def symbolOf? (n : Numbering) (id : SymbolId) : Option Symbol := n.symbols[id]?

def categoryOf? (n : Numbering) (id : SymbolId) : Option Category :=
  (n.symbolOf? id).map Operand.category

/-- The number of symbols that have an ID. -/
def size (n : Numbering) : Nat := n.ids.size

def isEmpty (n : Numbering) : Bool := n.ids.isEmpty

/-- Takes the next ID off the supply; none is left after the last. -/
def fresh (n : Numbering) : Option (SymbolId × Numbering) :=
  match n.next with
  | none => none
  | some id => some (id, { n with next := id.next? })

/-- Makes an ID and a symbol name each other, whatever they named before. -/
def assign (n : Numbering) (s : Symbol) (id : SymbolId) : Numbering :=
  { n with ids := n.ids.insert s id, symbols := n.symbols.insert id s }

/-- Takes an ID that is next off the supply for a symbol. -/
def issue (n : Numbering) (s : Symbol) (id : SymbolId) : Numbering :=
  { n.assign s id with next := id.next? }

/-- The ID of a symbol, the next one if it has none. -/
def enrol (n : Numbering) (s : Symbol) : Option (SymbolId × Numbering) :=
  match n.id? s with
  | some id => some (id, n)
  | none => n.next.map fun id => (id, n.issue s id)

/-- Accepts an ID for a symbol only if neither is known or both name each other. -/
def bind (n : Numbering) (id : SymbolId) (s : Symbol) : Binding × Numbering :=
  match n.symbolOf? id with
  | some known => (if known = s then .confirmed else .conflict, n)
  | none => if (n.id? s).isSome then (.conflict, n) else (.bound, n.assign s id)

/-- Forgets every symbol and keeps the supply. -/
def clear (n : Numbering) : Numbering := { n with ids := ∅, symbols := ∅ }

@[simp] theorem id?_empty (s : Symbol) : empty.id? s = none := by simp [empty, id?]

@[simp] theorem symbolOf?_empty (id : SymbolId) : empty.symbolOf? id = none := by
  simp [empty, symbolOf?]

theorem id?_assign (n : Numbering) (s t : Symbol) (id : SymbolId) :
    (n.assign s id).id? t = if s = t then some id else n.id? t := by
  simp only [id?, assign, Std.HashMap.getElem?_insert, beq_iff_eq]

theorem symbolOf?_assign (n : Numbering) (s : Symbol) (id other : SymbolId) :
    (n.assign s id).symbolOf? other = if id = other then some s else n.symbolOf? other := by
  simp only [symbolOf?, assign, Std.HashMap.getElem?_insert, beq_iff_eq]

@[simp] theorem next_assign (n : Numbering) (s : Symbol) (id : SymbolId) :
    (n.assign s id).next = n.next := rfl

@[simp] theorem id?_clear (n : Numbering) (s : Symbol) : n.clear.id? s = none := by
  simp [clear, id?]

@[simp] theorem symbolOf?_clear (n : Numbering) (id : SymbolId) : n.clear.symbolOf? id = none := by
  simp [clear, symbolOf?]

theorem size_assign (n : Numbering) (s : Symbol) (id : SymbolId) (h : n.id? s = none) :
    (n.assign s id).size = n.size + 1 := by
  have hmem : s ∉ n.ids := fun hs => by
    simp [Std.HashMap.mem_iff_isSome_getElem?, show n.ids[s]? = none from h] at hs
  simp only [size, assign, Std.HashMap.size_insert, if_neg hmem]

end Numbering

end Provenance
