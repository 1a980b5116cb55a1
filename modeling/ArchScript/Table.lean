/-
  Tables: finite maps that remember the order in which their keys came.

  A table is a list of pairs with distinct keys. Inserting a key that is present
  replaces its value and keeps its place; a new key goes to the end; erasing keeps the
  order of the rest. Two tables are compared as maps: `==` does not see the order.
-/

namespace ArchScript

/-- Pairs of keys and values with distinct keys, in the order of the keys' first insertion. -/
@[ext] structure Table (κ α : Type) where
  entries : List (κ × α)
  nodup : (entries.map Prod.fst).Nodup

namespace Table

variable {κ α β : Type}

/-! ## Lookup -/

section Lookup

variable [DecidableEq κ]

/-- The value of the first pair with key `k`. -/
def lookup (k : κ) : List (κ × α) → Option α
  | [] => none
  | (j, v) :: rest => if j = k then some v else lookup k rest

/-- The value of `k`, if the table has one. -/
def get? (t : Table κ α) (k : κ) : Option α := lookup k t.entries

def contains (t : Table κ α) (k : κ) : Bool := (t.get? k).isSome

theorem lookup_eq_none_iff {k : κ} {l : List (κ × α)} :
    lookup k l = none ↔ k ∉ l.map Prod.fst := by
  induction l with
  | nil => simp [lookup]
  | cons e l ih =>
    obtain ⟨j, v⟩ := e
    by_cases h : j = k
    · simp [lookup, h]
    · have hk : ¬ k = j := fun e => h e.symm
      simp only [lookup, h, if_false, ih, List.map_cons, List.mem_cons, hk, false_or]

end Lookup

/-! ## Views -/

def keys (t : Table κ α) : List κ := t.entries.map Prod.fst

def values (t : Table κ α) : List α := t.entries.map Prod.snd

def size (t : Table κ α) : Nat := t.entries.length

/-- The table without entries. -/
def empty : Table κ α := ⟨[], List.nodup_nil⟩

instance : Inhabited (Table κ α) := ⟨empty⟩

/-! ## Updates -/

section Update

variable [DecidableEq κ]

/-- Replaces the value of `k` where it stands, or appends the pair. -/
def insertEntry (k : κ) (v : α) : List (κ × α) → List (κ × α)
  | [] => [(k, v)]
  | (j, w) :: rest => if j = k then (k, v) :: rest else (j, w) :: insertEntry k v rest

theorem map_fst_insertEntry (k : κ) (v : α) (l : List (κ × α)) :
    (insertEntry k v l).map Prod.fst =
      if k ∈ l.map Prod.fst then l.map Prod.fst else l.map Prod.fst ++ [k] := by
  induction l with
  | nil => simp [insertEntry]
  | cons e l ih =>
    obtain ⟨j, w⟩ := e
    by_cases h : j = k
    · simp [insertEntry, h]
    · have hk : ¬ k = j := fun e => h e.symm
      simp only [insertEntry, h, if_false, List.map_cons, ih, List.mem_cons, hk, false_or]
      split <;> rfl

theorem lookup_insertEntry (k j : κ) (v : α) (l : List (κ × α)) :
    lookup j (insertEntry k v l) = if k = j then some v else lookup j l := by
  induction l with
  | nil => simp [insertEntry, lookup]
  | cons e l ih =>
    obtain ⟨i, w⟩ := e
    by_cases h : i = k
    · subst h
      by_cases hj : i = j <;> simp [insertEntry, lookup, hj]
    · by_cases hj : i = j
      · subst hj
        have hk : ¬ k = i := fun e => h e.symm
        simp [insertEntry, lookup, h, hk]
      · simp [insertEntry, lookup, h, hj, ih]

/-- Sets the value of `k`; a new key goes to the end. -/
def insert (t : Table κ α) (k : κ) (v : α) : Table κ α where
  entries := insertEntry k v t.entries
  nodup := by
    rw [map_fst_insertEntry]
    split
    · exact t.nodup
    · next h =>
      exact List.nodup_append.2 ⟨t.nodup, by simp, fun a ha b hb e =>
        h (by rw [← List.mem_singleton.1 hb, ← e]; exact ha)⟩

/-- Sets the value of `k` unless the table has one. -/
def insertIfNew (t : Table κ α) (k : κ) (v : α) : Table κ α :=
  if t.contains k then t else t.insert k v

/-- Keeps the entries that satisfy `p`, in order. -/
def filter (t : Table κ α) (p : κ → α → Bool) : Table κ α where
  entries := t.entries.filter fun e => p e.1 e.2
  nodup := t.nodup.sublist (List.filter_sublist.map _)

/-- Removes `k` and keeps the order of the rest. -/
def erase (t : Table κ α) (k : κ) : Table κ α := t.filter fun j _ => !decide (j = k)

/-- The table of a list of pairs: of two pairs with one key the place of the first and the
value of the last. -/
def ofList (l : List (κ × α)) : Table κ α := l.foldl (fun t e => t.insert e.1 e.2) empty

@[simp] theorem get?_empty (k : κ) : (empty : Table κ α).get? k = none := rfl

theorem get?_insert (t : Table κ α) (k j : κ) (v : α) :
    (t.insert k v).get? j = if k = j then some v else t.get? j :=
  lookup_insertEntry k j v t.entries

theorem keys_insert (t : Table κ α) (k : κ) (v : α) :
    (t.insert k v).keys = if k ∈ t.keys then t.keys else t.keys ++ [k] :=
  map_fst_insertEntry k v t.entries

theorem contains_iff {t : Table κ α} {k : κ} : t.contains k = true ↔ k ∈ t.keys := by
  rw [contains, Option.isSome_iff_ne_none]
  simp [get?, lookup_eq_none_iff, keys]

end Update

/-- Changes every value and keeps keys and order. -/
def mapValues (t : Table κ α) (f : κ → α → β) : Table κ β where
  entries := t.entries.map fun e => (e.1, f e.1 e.2)
  nodup := by
    have h : (t.entries.map fun e => (e.1, f e.1 e.2)).map Prod.fst = t.entries.map Prod.fst := by
      simp
    rw [h]
    exact t.nodup

@[simp] theorem keys_mapValues (t : Table κ α) (f : κ → α → β) : (t.mapValues f).keys = t.keys := by
  simp [keys, mapValues]

/-! ## Comparison -/

/-- Two tables are equal as maps when they have the same size and every entry of the first
is an entry of the second. -/
instance [DecidableEq κ] [BEq α] : BEq (Table κ α) where
  beq s t := s.size == t.size && s.entries.all fun e => t.get? e.1 == some e.2

end Table

end ArchScript
