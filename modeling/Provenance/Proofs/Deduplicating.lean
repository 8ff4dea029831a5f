import Mathlib
import Provenance.Proofs.Lossless
import Provenance.Proofs.Unrolling

/-!
What a ledger holds after any insertions: each record once, where it was first inserted. The set
that is searched and the list that is kept are the same records all along, since the order of
records ties no two that are different.
-/
namespace Provenance

namespace Ledger

theorem Distinct.insertAll {l : Ledger} (h : l.Distinct) (records : List LiveRecord) :
    (l.insertAll records).Distinct := by
  induction records generalizing l with
  | nil => exact h
  | cons r records ih => exact ih (h.insert r)

theorem insertAll_concat (l : Ledger) (records : List LiveRecord) (r : LiveRecord) :
    l.insertAll (records ++ [r]) = ((l.insertAll records).insert r).2 :=
  insertAll_append l records [r]

theorem insert_eq_true_iff (l : Ledger) (r : LiveRecord) :
    (l.insert r).1 = true ↔ l.contains r = false := by
  cases h : l.contains r with
  | true => simp [insert_of_contains h]
  | false => simp [insert, h]

/-- Every record is kept where it was first inserted, and later ones are dropped. -/
theorem records_insertAll_empty (inserted : List LiveRecord) :
    (empty.insertAll inserted).records = inserted.eraseDups := by
  induction inserted using List.reverseRecOn with
  | nil => simp [records, empty]
  | append_singleton inserted r ih =>
    have faithful := (Distinct.empty.insertAll inserted).faithful r
    rw [ih, List.mem_eraseDups] at faithful
    rw [insertAll_concat, records_insert, ih, List.eraseDups_append]
    by_cases old : r ∈ inserted
    · rw [if_pos (faithful.mpr old)]
      simp [List.removeAll, old]
    · rw [if_neg (mt faithful.mp old)]
      simp [List.removeAll, List.eraseDups_cons, old]

theorem members_perm {l : Ledger} (h : l.Distinct) : l.members.toList.Perm l.records := by
  have nodup : l.members.toList.Nodup := by
    refine Std.TreeSet.distinct_toList.imp fun {r r'} other => ?_
    rintro rfl
    exact other Std.ReflCmp.compare_self
  refine (List.perm_ext_iff_of_nodup nodup h.nodup).mpr fun r => ?_
  rw [Std.TreeSet.mem_toList, ← h.faithful r]
  exact Std.TreeSet.mem_iff_contains

/-- After any insertions the records are those inserted, each once and in the order in which they
first came; the set that is searched has just these. An insertion says that it added a record if the
record was not there. -/
theorem ledger_keeps_what_came_first (inserted : List LiveRecord) :
    let l := empty.insertAll inserted
    l.records = inserted.eraseDups ∧ l.records.Nodup ∧
    (∀ r, l.contains r = true ↔ r ∈ l.records) ∧
    (∀ r, (l.insert r).1 = true ↔ r ∉ inserted) ∧
    l.size = inserted.toFinset.card ∧
    l.members.toList.Perm l.records := by
  intro l
  have distinct : l.Distinct := Distinct.empty.insertAll inserted
  have kept : l.records = inserted.eraseDups := records_insertAll_empty inserted
  refine ⟨kept, distinct.nodup, distinct.faithful, fun r => ?_, ?_, members_perm distinct⟩
  · rw [insert_eq_true_iff, ← Bool.not_eq_true, distinct.faithful r, kept, List.mem_eraseDups]
  · have same : inserted.toFinset = l.records.toFinset := by
      ext r
      rw [List.mem_toFinset, List.mem_toFinset, kept, List.mem_eraseDups]
    rw [same, List.toFinset_card_of_nodup distinct.nodup]
    rfl

end Ledger

end Provenance
