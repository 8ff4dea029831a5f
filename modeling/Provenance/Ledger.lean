import Provenance.Record.Order
import Std.Data.TreeSet

/-!
The ledger of a session: the records made so far, each once, in the order they were
made. A set under the order of records answers whether a record is there.
-/
namespace Provenance

structure Ledger where
  members : Std.TreeSet LiveRecord
  entries : Array LiveRecord

namespace Ledger

def empty : Ledger := ⟨∅, #[]⟩

def records (l : Ledger) : List LiveRecord := l.entries.toList

def contains (l : Ledger) (r : LiveRecord) : Bool := l.members.contains r

def size (l : Ledger) : Nat := l.entries.size

def isEmpty (l : Ledger) : Bool := l.entries.isEmpty

/-- Adds a record at the end unless it is there, and says whether it was added. -/
def insert (l : Ledger) (r : LiveRecord) : Bool × Ledger :=
  if l.contains r then (false, l) else (true, ⟨l.members.insert r, l.entries.push r⟩)

theorem insert_of_contains {l : Ledger} {r : LiveRecord} (h : l.contains r = true) :
    l.insert r = (false, l) := if_pos h

theorem records_insert (l : Ledger) (r : LiveRecord) :
    (l.insert r).2.records = if l.contains r then l.records else l.records ++ [r] := by
  unfold insert records
  split <;> simp

end Ledger

end Provenance
