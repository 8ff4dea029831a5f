import Mathlib.Data.List.Nodup
import Provenance.World.Define

/-!
Tables in which a new item takes the place of the one with its key, or a place of its own behind the
others. Whatever is put in, a key keeps its place, no two places have the same key, and the item in
a place is the last that was put in under its key.
-/
namespace Provenance

variable {α κ : Type} [DecidableEq κ] {key key' : α → κ} {table : List α} {a b : α} {k : κ}

/-- Puts an item in the place of the first with its key, or behind all others. -/
def override (key : α → κ) (table : List α) (a : α) : List α :=
  match table with
  | [] => [a]
  | b :: table => if key b = key a then a :: table else b :: override key table a

/-- Puts items in, one after the other. -/
def overrideAll (key : α → κ) (table items : List α) : List α := items.foldl (override key) table

theorem mem_override (h : b ∈ override key table a) : b ∈ table ∨ b = a := by
  induction table with
  | nil => exact .inr (List.mem_singleton.mp h)
  | cons c table ih =>
    rw [override] at h
    split at h
    · rcases List.mem_cons.mp h with rfl | hmem
      · exact .inr rfl
      · exact .inl (List.mem_cons_of_mem c hmem)
    · rcases List.mem_cons.mp h with rfl | hmem
      · exact .inl List.mem_cons_self
      · exact (ih hmem).imp_left (List.mem_cons_of_mem c)

/-- Keys keep their places, and a new key comes last. -/
theorem keys_override (key : α → κ) (table : List α) (a : α) :
    (override key table a).map key =
      if key a ∈ table.map key then table.map key else table.map key ++ [key a] := by
  induction table with
  | nil => rfl
  | cons b table ih =>
    rw [override]
    by_cases hb : key b = key a
    · rw [if_pos hb, List.map_cons, List.map_cons, hb, if_pos List.mem_cons_self]
    · rw [if_neg hb, List.map_cons, List.map_cons, ih]
      simp only [List.mem_cons, Ne.symm hb, false_or]
      split <;> rfl

theorem nodup_override (h : (table.map key).Nodup) : ((override key table a).map key).Nodup := by
  rw [keys_override]
  split
  · exact h
  · rename_i hnew
    rw [← List.concat_eq_append]
    exact h.concat hnew

theorem keys_override_isPrefix (key : α → κ) (table : List α) (a : α) :
    table.map key <+: (override key table a).map key := by
  rw [keys_override]
  split
  · exact List.prefix_refl _
  · exact List.prefix_append _ _

theorem find?_override (key : α → κ) (table : List α) (a : α) (k : κ) :
    (override key table a).find? (key · = k) =
      if key a = k then some a else table.find? (key · = k) := by
  induction table with
  | nil =>
    rw [override, List.find?_singleton]
    simp only [decide_eq_true_eq, List.find?_nil]
  | cons b table ih =>
    rw [override]
    by_cases hb : key b = key a
    · rw [if_pos hb, List.find?_cons, List.find?_cons, hb]
      by_cases ha : key a = k <;> simp [ha]
    · rw [if_neg hb, List.find?_cons, List.find?_cons, ih]
      by_cases ha : key a = k
      · have hbk : key b ≠ k := fun hbk => hb (hbk.trans ha.symm)
        simp [ha, hbk]
      · simp only [if_neg ha]

/-- Where an item goes. -/
theorem findIdx?_override (key : α → κ) (table : List α) (a : α) :
    (override key table a).findIdx? (key · = key a) =
      some ((table.findIdx? (key · = key a)).getD table.length) := by
  induction table with
  | nil => simp [override]
  | cons b table ih =>
    rw [override]
    by_cases hb : key b = key a
    · simp [hb, List.findIdx?_cons]
    · rw [if_neg hb, List.findIdx?_cons, List.findIdx?_cons, ih]
      simp only [hb, decide_false, Bool.false_eq_true, if_false]
      cases table.findIdx? (key · = key a) <;> rfl

/-- A table is written where the key of the item is, or else right after its end. -/
theorem place_findIdx? {key : ProcRef → κ} (table : List ProcRef) (p : ProcRef) :
    World.place table ((table.findIdx? (key · = key p)).getD table.length) p =
      override key table p := by
  induction table with
  | nil => rfl
  | cons q table ih =>
    rw [override, ← ih, List.findIdx?_cons]
    by_cases hq : key q = key p
    · simp [World.place, hq]
    · simp only [hq, decide_false, Bool.false_eq_true, if_false]
      cases table.findIdx? (key · = key p) with
      | none => simp [World.place]
      | some i => simp only [World.place, Option.map_some, Option.getD_some, List.length_cons,
          Nat.add_lt_add_iff_right, List.set_cons_succ, List.cons_append, apply_ite (List.cons q)]

theorem override_congr (same : ∀ b ∈ table, key' b = key b) (ha : key' a = key a) :
    override key' table a = override key table a := by
  induction table with
  | nil => rfl
  | cons b table ih =>
    rw [override, override, same b List.mem_cons_self, ha,
      ih fun c hc => same c (List.mem_cons_of_mem b hc)]

theorem overrideAll_cons (key : α → κ) (table : List α) (a : α) (items : List α) :
    overrideAll key table (a :: items) = overrideAll key (override key table a) items := rfl

theorem overrideAll_concat (key : α → κ) (table items : List α) (a : α) :
    overrideAll key table (items ++ [a]) = override key (overrideAll key table items) a := by
  rw [overrideAll, List.foldl_append]
  rfl

theorem nodup_overrideAll {items : List α} (h : (table.map key).Nodup) :
    ((overrideAll key table items).map key).Nodup := by
  induction items generalizing table with
  | nil => exact h
  | cons a items ih => exact ih (nodup_override h)

theorem keys_overrideAll_isPrefix (key : α → κ) (table items : List α) :
    table.map key <+: (overrideAll key table items).map key := by
  induction items generalizing table with
  | nil => exact List.prefix_refl _
  | cons a items ih => exact (keys_override_isPrefix key table a).trans (ih _)

/-- Under a key is the last item that was put in under it, or what was there before. -/
theorem find?_overrideAll (key : α → κ) (table items : List α) (k : κ) :
    (overrideAll key table items).find? (key · = k) =
      ((items.filter (key · = k)).getLast?).or (table.find? (key · = k)) := by
  induction items generalizing table with
  | nil => rfl
  | cons a items ih =>
    rw [overrideAll_cons, ih, find?_override]
    by_cases ha : key a = k
    · rw [if_pos ha, List.filter_cons_of_pos (by simpa using ha), List.getLast?_cons]
      cases (items.filter (key · = k)).getLast? <;> rfl
    · rw [if_neg ha, List.filter_cons_of_neg (by simpa using ha)]

theorem overrideAll_congr {items : List α} (same : ∀ b ∈ table, key' b = key b)
    (hitems : ∀ b ∈ items, key' b = key b) :
    overrideAll key' table items = overrideAll key table items := by
  induction items generalizing table with
  | nil => rfl
  | cons a items ih =>
    have ha := hitems a List.mem_cons_self
    rw [overrideAll_cons, overrideAll_cons, override_congr same ha]
    refine ih (fun b hb => ?_) fun b hb => hitems b (List.mem_cons_of_mem a hb)
    rcases mem_override hb with hold | rfl
    · exact same b hold
    · exact ha

theorem findIdx?_map_key (key : α → κ) (table : List α) (k : κ) :
    table.findIdx? (key · = k) = (table.map key).findIdx? (· = k) := by
  rw [List.findIdx?_map]
  rfl

theorem findIdx?_congr (same : ∀ b ∈ table, key' b = key b) :
    table.findIdx? (key' · = k) = table.findIdx? (key · = k) := by
  rw [findIdx?_map_key key', findIdx?_map_key key, List.map_congr_left same]

/-- A key has the place it has in a table also in one that has more behind. -/
theorem findIdx?_of_isPrefix {more : List α} (front : table.map key <+: more.map key) {i : Nat}
    (h : table.findIdx? (key · = k) = some i) : more.findIdx? (key · = k) = some i := by
  obtain ⟨rest, hrest⟩ := front
  rw [findIdx?_map_key] at h
  rw [findIdx?_map_key, ← hrest, List.findIdx?_append, h]
  rfl

/-- Where no key occurs twice, an item in the table is the one found under its key, and has the only
place with that key. -/
theorem find?_of_mem (nodup : (table.map key).Nodup) (ha : a ∈ table) :
    table.find? (key · = key a) = some a := by
  cases hfind : table.find? (key · = key a) with
  | none => exact absurd (decide_eq_true rfl) (List.find?_eq_none.mp hfind a ha)
  | some b =>
    have hb : key b = key a := by simpa using List.find?_some hfind
    rw [List.inj_on_of_nodup_map nodup (List.mem_of_find?_eq_some hfind) ha hb]

omit [DecidableEq κ] in
theorem index_unique (nodup : (table.map key).Nodup) {i j : Nat} (hi : table[i]? = some a)
    (hj : table[j]? = some b) (same : key b = key a) : j = i := by
  have hi' : (table.map key)[i]? = some (key a) := by rw [List.getElem?_map, hi, Option.map_some]
  have hj' : (table.map key)[j]? = some (key a) := by
    rw [List.getElem?_map, hj, Option.map_some, same]
  obtain ⟨hlt, hget⟩ := List.getElem?_eq_some_iff.mp hj'
  exact (List.getElem?_inj hlt nodup).mp (hj'.trans hi'.symm)

end Provenance
