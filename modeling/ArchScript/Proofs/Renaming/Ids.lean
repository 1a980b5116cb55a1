/-
  Renamings of identifiers, and what they make of every id.

  The id of a channel or data flow is derived from its kind and its ends, and gives them back
  (`DerivedIds`). So a renaming of identifiers carries over to all ids: a derived id is read back
  and derived again from the new ends. No two ids of a kind become one (`Renaming.id_injective`),
  and therefore a table can be renamed key by key (`Table.rename`) and every lookup and update goes
  along.
-/
import ArchScript.Proofs.Names.Words
import ArchScript.Proofs.Table
import ArchScript.Scope
import Mathlib.Data.List.Nodup

namespace ArchScript

/-! ## Renamings -/

/-- Letters, digits and underscores that do not start with a digit. -/
def IsIdentifier (x : Ident) : Prop := IsWord x ∧ x.toList.head?.any Lexer.isDigit = false

instance (x : Ident) : Decidable (IsIdentifier x) := inferInstanceAs (Decidable (_ ∧ _))

abbrev Identifier := { x : Ident // IsIdentifier x }

/-- New names for identifiers, no two of them the same. -/
structure Renaming where
  map : Identifier → Identifier
  injective : Function.Injective map

namespace Renaming

variable (r : Renaming)

/-- The new name of an identifier. What is no identifier stays. -/
def name (x : Ident) : Ident := if h : IsIdentifier x then r.map ⟨x, h⟩ else x

theorem name_of_identifier {x : Ident} (h : IsIdentifier x) : r.name x = r.map ⟨x, h⟩ := dif_pos h

theorem name_of_not_identifier {x : Ident} (h : ¬ IsIdentifier x) : r.name x = x := dif_neg h

theorem isIdentifier_name_iff {x : Ident} : IsIdentifier (r.name x) ↔ IsIdentifier x := by
  by_cases h : IsIdentifier x
  · rw [r.name_of_identifier h]
    exact iff_of_true (r.map ⟨x, h⟩).2 h
  · rw [r.name_of_not_identifier h]

theorem isWord_name {x : Ident} (h : IsWord x) : IsWord (r.name x) := by
  by_cases hx : IsIdentifier x
  · exact (r.isIdentifier_name_iff.2 hx).1
  · rwa [r.name_of_not_identifier hx]

theorem name_injective : Function.Injective r.name := by
  intro x y h
  by_cases hx : IsIdentifier x
  · have hy : IsIdentifier y := by rwa [← r.isIdentifier_name_iff, ← h, r.isIdentifier_name_iff]
    rw [r.name_of_identifier hx, r.name_of_identifier hy] at h
    exact congrArg Subtype.val (r.injective (Subtype.ext h))
  · have hy : ¬ IsIdentifier y := by rwa [← r.isIdentifier_name_iff, ← h, r.isIdentifier_name_iff]
    rwa [r.name_of_not_identifier hx, r.name_of_not_identifier hy] at h

end Renaming

/-! ## Derived ids -/

/-- A way to derive an id from a kind and two ends, and the way back. -/
structure DerivedIds (κ : Type) where
  derive : κ → Ident → Ident → Ident
  ends? : Ident → Option (κ × Ident × Ident)
  ends?_eq_some_iff : ∀ {x k a b}, ends? x = some (k, a, b) ↔ IsWord a ∧ x = derive k a b

namespace DerivedIds

/-- The ends of an id in which the source, a word, stands after `before`, and the target after
`between`. -/
def endsAround? (before between : String) (x : Ident) : Option (Ident × Ident) :=
  let source := (x.toList.drop before.length).takeWhile Lexer.isWordChar
  let target := x.toList.drop (before.length + source.length + between.length)
  if before ++ .ofList source ++ between ++ .ofList target = x then
    some (.ofList source, .ofList target)
  else none

/-- A source ends where a sign stands. -/
theorem endsAround?_eq_some_iff {before between : String} {sign : Char}
    (hbetween : between.toList.head? = some sign) (hsign : Lexer.isWordChar sign = false)
    {x a b : Ident} :
    endsAround? before between x = some (a, b) ↔ IsWord a ∧ x = before ++ a ++ between ++ b := by
  unfold endsAround?
  dsimp only
  constructor
  · intro h
    split at h
    · next hx =>
      cases h
      refine ⟨fun d hd => ?_, hx.symm⟩
      rw [String.toList_ofList] at hd
      exact List.mem_takeWhile_imp hd
    · cases h
  · rintro ⟨ha, rfl⟩
    obtain ⟨rest, hrest⟩ := List.head?_eq_some_iff.1 hbetween
    have hsource : ((before ++ a ++ between ++ b).toList.drop before.length).takeWhile
        Lexer.isWordChar = a.toList := by
      simp only [String.toList_append, List.append_assoc, ← String.length_toList,
        List.drop_left, hrest, List.cons_append]
      rw [List.takeWhile_append_of_pos ha, List.takeWhile_cons_of_neg (by simp [hsign]),
        List.append_nil]
    have htarget : (before ++ a ++ between ++ b).toList.drop
        (before.length + a.toList.length + between.length) = b.toList := by
      rw [String.toList_append]
      exact List.drop_left' (by simp only [String.length_toList, String.length_append])
    rw [hsource, htarget, String.ofList_toList, String.ofList_toList, if_pos rfl]

/-- An id is read back kind by kind. -/
theorem findSome?_eq_some_iff {κ : Type} {kinds : List κ} (hkinds : ∀ k, k ∈ kinds)
    {derive : κ → Ident → Ident → Ident} {read : κ → Ident → Option (Ident × Ident)}
    (hread : ∀ {k x a b}, read k x = some (a, b) ↔ IsWord a ∧ x = derive k a b)
    (hderive : ∀ {k k' a b a' b'}, IsWord a → IsWord a' → derive k a b = derive k' a' b' →
      k = k' ∧ a = a' ∧ b = b') {x : Ident} {k : κ} {a b : Ident} :
    (kinds.findSome? fun k => (read k x).map (k, ·)) = some (k, a, b) ↔
      IsWord a ∧ x = derive k a b := by
  have hsound : ∀ {k a b}, (kinds.findSome? fun k => (read k x).map (k, ·)) = some (k, a, b) →
      IsWord a ∧ x = derive k a b := by
    intro k a b h
    obtain ⟨j, _, hj⟩ := List.exists_of_findSome?_eq_some h
    obtain ⟨ends, hends, he⟩ := Option.map_eq_some_iff.1 hj
    cases he
    exact hread.1 hends
  refine ⟨hsound, fun h => ?_⟩
  cases hfound : kinds.findSome? fun k => (read k x).map (k, ·) with
  | none =>
    have hnone := List.findSome?_eq_none_iff.1 hfound k (hkinds k)
    rw [hread.2 h] at hnone
    cases hnone
  | some found =>
    obtain ⟨k', a', b'⟩ := found
    obtain ⟨ha', hx⟩ := hsound hfound
    obtain ⟨rfl, rfl, rfl⟩ := hderive ha' h.1 (hx.symm.trans h.2)
    rfl

/-- The ids of channels: the source, the kind between signs, the target. -/
def channels : DerivedIds ChannelKind where
  derive := channelId
  ends? x := ChannelKind.all.findSome? fun k =>
    (endsAround? "" ("-" ++ k.text ++ "->") x).map (k, ·)
  ends?_eq_some_iff := by
    refine findSome?_eq_some_iff (fun k => by cases k <;> decide) (fun {k x a b} => ?_)
      channelId_inj
    have hbetween : ("-" ++ k.text ++ "->").toList.head? = some '-' := by cases k <;> decide
    rw [endsAround?_eq_some_iff hbetween (by decide), channelId, String.empty_append]
    simp only [String.append_assoc]

/-- The ids of data flows: the kind before a sign, the source, the target. -/
def flows : DerivedIds FlowKind where
  derive := flowId
  ends? x := FlowKind.all.findSome? fun k => (endsAround? (k.text ++ ":") "->" x).map (k, ·)
  ends?_eq_some_iff := by
    refine findSome?_eq_some_iff (fun k => by cases k <;> decide) (fun {k x a b} => ?_) flowId_inj
    have hbetween : "->".toList.head? = some '-' := by decide
    exact endsAround?_eq_some_iff hbetween (by decide)

variable {κ : Type} (D : DerivedIds κ) (r : Renaming)

/-- The id derived from the new ends. -/
def rename (x : Ident) : Ident :=
  match D.ends? x with
  | some (k, a, b) => D.derive k (r.name a) (r.name b)
  | none => x

theorem rename_derive (k : κ) {a : Ident} (ha : IsWord a) (b : Ident) :
    D.rename r (D.derive k a b) = D.derive k (r.name a) (r.name b) := by
  unfold rename
  rw [D.ends?_eq_some_iff.2 ⟨ha, rfl⟩]

/-- A new id has the new ends. -/
theorem ends?_rename (x : Ident) :
    D.ends? (D.rename r x) = (D.ends? x).map fun e => (e.1, r.name e.2.1, r.name e.2.2) := by
  cases h : D.ends? x with
  | none => rw [rename, h, Option.map_none, h]
  | some e =>
    obtain ⟨k, a, b⟩ := e
    obtain ⟨ha, rfl⟩ := D.ends?_eq_some_iff.1 h
    rw [D.rename_derive r k ha]
    exact D.ends?_eq_some_iff.2 ⟨r.isWord_name ha, rfl⟩

theorem rename_injective : Function.Injective (D.rename r) := by
  intro x y h
  have hends := congrArg D.ends? h
  rw [D.ends?_rename, D.ends?_rename] at hends
  have hnames : Function.Injective fun e : κ × Ident × Ident =>
      (e.1, r.name e.2.1, r.name e.2.2) := by
    rintro ⟨k, a, b⟩ ⟨k', a', b'⟩ he
    simp only [Prod.mk.injEq] at he
    obtain ⟨rfl, ha, hb⟩ := he
    rw [r.name_injective ha, r.name_injective hb]
  have hends := Option.map_injective hnames hends
  cases hx : D.ends? x with
  | none => simpa only [rename, ← hends, hx] using h
  | some e =>
    obtain ⟨k, a, b⟩ := e
    rw [hx] at hends
    rw [(D.ends?_eq_some_iff.1 hx).2, (D.ends?_eq_some_iff.1 hends.symm).2]

end DerivedIds

/-! ## Ids of every kind -/

namespace Renaming

variable (r : Renaming)

/-- The new id of a member of a kind. -/
def id : MemberKind → Ident → Ident
  | .channel => DerivedIds.channels.rename r
  | .dataFlow => DerivedIds.flows.rename r
  | _ => r.name

theorem id_injective (kind : MemberKind) : Function.Injective (r.id kind) := by
  cases kind with
  | channel => exact DerivedIds.channels.rename_injective r
  | dataFlow => exact DerivedIds.flows.rename_injective r
  | _ => exact r.name_injective

theorem id_channelId (k : ChannelKind) {a : Ident} (ha : IsWord a) (b : Ident) :
    r.id .channel (channelId k a b) = channelId k (r.name a) (r.name b) :=
  DerivedIds.channels.rename_derive r k ha b

theorem id_flowId (k : FlowKind) {a : Ident} (ha : IsWord a) (b : Ident) :
    r.id .dataFlow (flowId k a b) = flowId k (r.name a) (r.name b) :=
  DerivedIds.flows.rename_derive r k ha b

def member (m : Member) : Member := ⟨m.kind, r.id m.kind m.id⟩

theorem member_injective : Function.Injective r.member := by
  rintro ⟨kind, x⟩ ⟨kind', y⟩ h
  obtain ⟨hkind, hid⟩ := Member.mk.inj h
  cases hkind
  exact congrArg (Member.mk kind) (r.id_injective kind hid)

end Renaming

/-! ## Tables -/

namespace Table

variable {κ κ' α β : Type} {f : κ → κ'} (hf : Function.Injective f) (g : α → β) (t : Table κ α)

/-- The table with new keys and values, in the same order. -/
def rename : Table κ' β where
  entries := t.entries.map fun e => (f e.1, g e.2)
  nodup := by
    have h : (t.entries.map fun e => (f e.1, g e.2)).map Prod.fst =
        (t.entries.map Prod.fst).map f := by
      rw [List.map_map, List.map_map]
      rfl
    rw [h]
    exact t.nodup.map hf

theorem values_rename : (t.rename hf g).values = t.values.map g := by
  simp only [values, rename, List.map_map]
  rfl

/-- Changing the values may come before or after. -/
theorem mapValues_rename {γ δ : Type} {p : κ → α → γ} {q : κ' → β → δ} {g' : γ → δ}
    (h : ∀ k v, q (f k) (g v) = g' (p k v)) :
    (t.rename hf g).mapValues q = (t.mapValues p).rename hf g' := by
  refine Table.ext ?_
  simp only [mapValues, rename, List.map_map]
  refine List.map_congr_left fun e _ => ?_
  exact Prod.ext rfl (h e.1 e.2)

theorem filter_rename {p : κ → α → Bool} {q : κ' → β → Bool} (h : ∀ k v, q (f k) (g v) = p k v) :
    (t.rename hf g).filter q = (t.filter p).rename hf g := by
  refine Table.ext ?_
  simp only [filter, rename, List.filter_map]
  congr 2
  funext e
  exact h e.1 e.2

variable [DecidableEq κ] [DecidableEq κ']

theorem get?_rename (k : κ) : (t.rename hf g).get? (f k) = (t.get? k).map g := by
  change lookup (f k) (t.entries.map fun e => (f e.1, g e.2)) = (lookup k t.entries).map g
  induction t.entries with
  | nil => rfl
  | cons e l ih =>
    obtain ⟨j, v⟩ := e
    simp only [List.map_cons, lookup, hf.eq_iff, ih]
    split <;> rfl

/-- Values that know their keys know the new ones when they still know their keys. -/
theorem Keyed.id_rename {id : α → κ} {id' : β → κ'} {t : Table κ α} (h : Keyed id t)
    (h' : Keyed id' (t.rename hf g)) {v : α} (hv : v ∈ t.values) : id' (g v) = f (id v) := by
  refine h' _ _ ((t.get?_rename hf g (id v)).trans ?_)
  rw [h.mem_values_iff.1 hv, Option.map_some]

theorem contains_rename (k : κ) : (t.rename hf g).contains (f k) = t.contains k := by
  unfold contains
  rw [get?_rename, Option.isSome_map]

theorem insert_rename (k : κ) (v : α) :
    (t.rename hf g).insert (f k) (g v) = (t.insert k v).rename hf g := by
  refine Table.ext ?_
  unfold insert rename
  dsimp only
  induction t.entries with
  | nil => rfl
  | cons e l ih =>
    obtain ⟨j, w⟩ := e
    simp only [List.map_cons, insertEntry, hf.eq_iff, ih]
    split <;> rfl

theorem foldl_insert_rename (ks : List κ) (v : α) :
    (ks.map f).foldl (fun t k => t.insert k (g v)) (t.rename hf g) =
      (ks.foldl (fun t k => t.insert k v) t).rename hf g := by
  induction ks generalizing t with
  | nil => rfl
  | cons k ks ih => rw [List.map_cons, List.foldl_cons, insert_rename, ih, List.foldl_cons]

theorem insertIfNew_rename (k : κ) (v : α) :
    (t.rename hf g).insertIfNew (f k) (g v) = (t.insertIfNew k v).rename hf g := by
  unfold insertIfNew
  rw [contains_rename, insert_rename]
  split <;> rfl

theorem erase_rename (k : κ) : (t.rename hf g).erase (f k) = (t.erase k).rename hf g :=
  t.filter_rename hf g fun j _ => by simp only [hf.eq_iff]

end Table

end ArchScript
