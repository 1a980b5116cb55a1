/-
  Tables as finite maps: what each update does to a lookup.

  `get?_eq_some_iff` ties a lookup to the list of entries. Every other law is read off it:
  erasing, filtering and changing values, and inserting one value for many keys. A table
  whose values know their keys (`Keyed`) lists its keys as the ids of its values.
-/
import ArchScript.Table

namespace ArchScript.Table

variable {κ α β : Type} [DecidableEq κ]

/-! ## Lookups and entries -/

theorem lookup_eq_some_iff {k : κ} {v : α} {l : List (κ × α)} (hl : (l.map Prod.fst).Nodup) :
    lookup k l = some v ↔ (k, v) ∈ l := by
  induction l with
  | nil => simp [lookup]
  | cons e l ih =>
    obtain ⟨j, w⟩ := e
    rw [List.map_cons, List.nodup_cons] at hl
    rw [List.mem_cons, ← ih hl.2, lookup]
    by_cases h : j = k
    · subst h
      have hj : lookup j l = none := lookup_eq_none_iff.2 hl.1
      simp [hj, eq_comm]
    · have hk : ¬ k = j := fun e => h e.symm
      simp [h, hk]

theorem get?_eq_some_iff {t : Table κ α} {k : κ} {v : α} :
    t.get? k = some v ↔ (k, v) ∈ t.entries := lookup_eq_some_iff t.nodup

theorem mem_keys_iff {t : Table κ α} {k : κ} : k ∈ t.keys ↔ ∃ v, t.get? k = some v := by
  rw [← contains_iff, contains, Option.isSome_iff_exists]

theorem mem_values_iff {t : Table κ α} {v : α} : v ∈ t.values ↔ ∃ k, t.get? k = some v := by
  simp only [values, List.mem_map, Prod.exists, exists_eq_right, get?_eq_some_iff]

/-! ## Updates -/

theorem get?_filter (t : Table κ α) (p : κ → α → Bool) (k : κ) :
    (t.filter p).get? k = (t.get? k).filter (p k) := by
  refine Option.ext fun v => ?_
  rw [get?_eq_some_iff, Option.filter_eq_some_iff, get?_eq_some_iff]
  simp [filter]

theorem get?_erase (t : Table κ α) (k j : κ) :
    (t.erase k).get? j = if j = k then none else t.get? j := by
  unfold erase
  rw [get?_filter]
  by_cases h : j = k <;> cases t.get? j <;> simp [h]

theorem get?_mapValues (t : Table κ α) (f : κ → α → β) (k : κ) :
    (t.mapValues f).get? k = (t.get? k).map (f k) := by
  refine Option.ext fun v => ?_
  rw [get?_eq_some_iff, Option.map_eq_some_iff]
  simp only [mapValues, List.mem_map, Prod.mk.injEq, Prod.exists, get?_eq_some_iff]
  constructor
  · rintro ⟨j, w, hw, rfl, rfl⟩
    exact ⟨w, hw, rfl⟩
  · rintro ⟨w, hw, rfl⟩
    exact ⟨k, w, hw, rfl, rfl⟩

/-- One value for many keys: they have it, and the others keep what they had. -/
theorem get?_foldl_insert (ks : List κ) (v : α) (t : Table κ α) (k : κ) :
    (ks.foldl (fun t j => t.insert j v) t).get? k = if k ∈ ks then some v else t.get? k := by
  induction ks generalizing t with
  | nil => simp
  | cons j ks ih =>
    rw [List.foldl_cons, ih, get?_insert]
    by_cases hk : k ∈ ks
    · simp [hk]
    · by_cases hj : j = k
      · simp [hj]
      · have hj' : ¬ k = j := fun e => hj e.symm
        simp [hk, hj, hj']

theorem mem_keys_insert {t : Table κ α} {k j : κ} {v : α} :
    j ∈ (t.insert k v).keys ↔ j = k ∨ j ∈ t.keys := by
  rw [keys_insert]
  split
  · next h =>
    constructor
    · exact Or.inr
    · rintro (rfl | hj)
      · exact h
      · exact hj
  · rw [List.mem_append, List.mem_singleton, or_comm]

/-- A new key comes last. -/
theorem keys_prefix_insert (t : Table κ α) (k : κ) (v : α) : t.keys <+: (t.insert k v).keys := by
  rw [keys_insert]
  split
  · exact List.prefix_refl _
  · exact List.prefix_append _ _

theorem mem_keys_insertIfNew {t : Table κ α} {k j : κ} {v : α} :
    j ∈ (t.insertIfNew k v).keys ↔ j = k ∨ j ∈ t.keys := by
  unfold insertIfNew
  split
  · next h =>
    refine (or_iff_right_of_imp ?_).symm
    rintro rfl
    exact contains_iff.1 h
  · exact mem_keys_insert

theorem get?_insertIfNew (t : Table κ α) (k j : κ) (v : α) :
    (t.insertIfNew k v).get? j = (t.get? j).or (if k = j then some v else none) := by
  unfold insertIfNew contains
  by_cases hk : k = j
  · subst hk
    cases hv : t.get? k <;> simp [hv, get?_insert]
  · split <;> simp [get?_insert, hk]

theorem insertIfNew_of_mem {t : Table κ α} {k : κ} (h : k ∈ t.keys) (v : α) :
    t.insertIfNew k v = t := if_pos (contains_iff.2 h)

theorem insertEntry_of_not_mem {k : κ} {l : List (κ × α)} (h : k ∉ l.map Prod.fst) (v : α) :
    insertEntry k v l = l ++ [(k, v)] := by
  induction l with
  | nil => rfl
  | cons e l ih =>
    obtain ⟨j, w⟩ := e
    rw [List.map_cons, List.mem_cons, not_or] at h
    have hj : ¬ j = k := fun e => h.1 e.symm
    rw [insertEntry, if_neg hj, ih h.2, List.cons_append]

/-- A new key goes to the end. -/
theorem entries_insertIfNew_of_not_mem {t : Table κ α} {k : κ} (h : k ∉ t.keys) (v : α) :
    (t.insertIfNew k v).entries = t.entries ++ [(k, v)] := by
  unfold insertIfNew
  rw [if_neg fun hk => h (contains_iff.1 hk)]
  exact insertEntry_of_not_mem h v

theorem insertEntry_map (f : α → β) (k : κ) (v : α) (l : List (κ × α)) :
    insertEntry k (f v) (l.map fun e => (e.1, f e.2)) =
      (insertEntry k v l).map fun e => (e.1, f e.2) := by
  induction l with
  | nil => rfl
  | cons e l ih =>
    simp only [List.map_cons, insertEntry, ih]
    split <;> rfl

theorem mapValues_insertIfNew (t : Table κ α) (f : α → β) (k : κ) (v : α) :
    (t.mapValues fun _ => f).insertIfNew k (f v) = (t.insertIfNew k v).mapValues fun _ => f := by
  have hcontains : (t.mapValues fun _ => f).contains k = t.contains k := by
    rw [Bool.eq_iff_iff, contains_iff, contains_iff, keys_mapValues]
  unfold insertIfNew
  rw [hcontains]
  split
  · rfl
  · exact Table.ext (insertEntry_map f k v t.entries)

/-! ## Values that know their keys -/

/-- Every value stands under its own id. -/
def Keyed (id : α → κ) (t : Table κ α) : Prop := ∀ k v, t.get? k = some v → id v = k

theorem keyed_empty (id : α → κ) : Keyed id (empty : Table κ α) := by
  intro k v h
  cases h

theorem Keyed.insert {id : α → κ} {t : Table κ α} (h : Keyed id t) (v : α) :
    Keyed id (t.insert (id v) v) := by
  intro k w hw
  rw [get?_insert] at hw
  split at hw
  · next hk =>
    cases hw
    exact hk
  · exact h k w hw

/-- The ids of the values are the keys, in order. -/
theorem Keyed.map_values {id : α → κ} {t : Table κ α} (h : Keyed id t) :
    t.values.map id = t.keys := by
  simp only [values, keys, List.map_map]
  refine List.map_congr_left fun e he => ?_
  exact h e.1 e.2 (get?_eq_some_iff.2 he)

theorem Keyed.mem_values_iff {id : α → κ} {t : Table κ α} (h : Keyed id t) {v : α} :
    v ∈ t.values ↔ t.get? (id v) = some v := by
  rw [Table.mem_values_iff]
  constructor
  · rintro ⟨k, hk⟩
    rw [h k v hk]
    exact hk
  · intro hv
    exact ⟨id v, hv⟩

theorem Keyed.get?_eq_some_iff {id : α → κ} {t : Table κ α} (h : Keyed id t) {k : κ} {v : α} :
    t.get? k = some v ↔ v ∈ t.values ∧ id v = k := by
  rw [h.mem_values_iff]
  constructor
  · intro hv
    have hid := h k v hv
    rw [hid]
    exact ⟨hv, rfl⟩
  · rintro ⟨hv, rfl⟩
    exact hv

end ArchScript.Table
