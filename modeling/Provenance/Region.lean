/-!
Heuristic regions: stretches of an analysis that may ask anything and must leave no
records behind. Regions nest, so all that matters is how many are open. They are counted in
32 bits and nothing looks for room before one more is entered: past the greatest count it
starts over, and no region is open.
-/
namespace Provenance

structure Region where
  count : UInt32
deriving DecidableEq, Repr

namespace Region

def closed : Region := ⟨0⟩

def depth (r : Region) : Nat := r.count.toNat

def isOpen (r : Region) : Bool := 0 < r.count

def enter (r : Region) : Region := ⟨r.count + 1⟩

/-- Leaves the innermost region, if there is one. -/
def exit? (r : Region) : Option Region :=
  if r.isOpen then some ⟨r.count - 1⟩ else none

theorem isOpen_iff {r : Region} : r.isOpen = true ↔ 0 < r.depth := by
  rw [isOpen, decide_eq_true_eq, UInt32.lt_iff_toNat_lt]
  rfl

theorem depth_lt (r : Region) : r.depth < UInt32.size := r.count.toNat_lt

theorem depth_enter (r : Region) : r.enter.depth = (r.depth + 1) % UInt32.size :=
  UInt32.toNat_add r.count 1

/-- A region is open once it is entered, unless the count has started over. -/
theorem isOpen_enter (r : Region) : r.enter.isOpen = true ↔ r.depth + 1 < UInt32.size := by
  have hlt := r.depth_lt
  rw [isOpen_iff, depth_enter]
  by_cases room : r.depth + 1 < UInt32.size
  · rw [Nat.mod_eq_of_lt room]
    exact iff_of_true (Nat.succ_pos _) room
  · have full : r.depth + 1 = UInt32.size := by omega
    rw [full, Nat.mod_self]
    exact iff_of_false (Nat.lt_irrefl _) (Nat.lt_irrefl _)

theorem depth_enter_of_lt {r : Region} (room : r.depth + 1 < UInt32.size) :
    r.enter.depth = r.depth + 1 := by
  rw [depth_enter, Nat.mod_eq_of_lt room]

/-- Entering and leaving cancel out, past the greatest count as well. -/
@[simp] theorem count_enter_sub_one (r : Region) : r.enter.count - 1 = r.count :=
  UInt32.add_sub_cancel ..

theorem exit?_of_isOpen {r : Region} (inside : r.isOpen = true) :
    r.exit? = some ⟨r.count - 1⟩ := if_pos inside

theorem depth_pred {r : Region} (inside : r.isOpen = true) :
    depth ⟨r.count - 1⟩ = r.depth - 1 := by
  refine UInt32.toNat_sub_of_le r.count 1 ?_
  rw [UInt32.le_iff_toNat_le]
  exact isOpen_iff.mp inside

theorem exit?_enter {r : Region} (entered : r.enter.isOpen = true) : r.enter.exit? = some r := by
  rw [exit?_of_isOpen entered, count_enter_sub_one]

theorem exit?_eq_none {r : Region} : r.exit? = none ↔ r.isOpen = false := by
  simp [exit?]

end Region

end Provenance
