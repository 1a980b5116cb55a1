/-
  The precedence of properties.

  Resolving annotations offers an actor, one after the other, the properties of the annotations
  that it refers to (`offered`), and the actor takes a property if it has none of that key
  (`resolveActor_eq`). So an actor keeps what it has, takes each other key from the first
  annotation that has it, and puts new keys behind its own in the order in which they are first
  offered (`SystemModel.Settles`). Whoever took all that is offered takes nothing more, so a second
  resolution changes nothing.
-/
import ArchScript.Model.System
import ArchScript.Proofs.Table
import Mathlib.Data.List.Forall2

namespace ArchScript

namespace Table

variable {κ α β : Type} [DecidableEq κ]

/-! ## Offers to a table -/

/-- Sets what a list of pairs offers, for the keys that the table does not have. -/
def accept (t : Table κ α) (offers : List (κ × α)) : Table κ α :=
  offers.foldl (fun t e => t.insertIfNew e.1 e.2) t

theorem accept_cons (t : Table κ α) (e : κ × α) (l : List (κ × α)) :
    t.accept (e :: l) = (t.insertIfNew e.1 e.2).accept l := rfl

theorem accept_append (t : Table κ α) (l l' : List (κ × α)) :
    t.accept (l ++ l') = (t.accept l).accept l' := List.foldl_append

theorem lookup_append (k : κ) (l l' : List (κ × α)) :
    lookup k (l ++ l') = (lookup k l).or (lookup k l') := by
  induction l with
  | nil => rfl
  | cons e l ih =>
    rw [List.cons_append, lookup, lookup, ih]
    split <;> rfl

theorem lookup_flatMap (k : κ) (xs : List β) (f : β → List (κ × α)) :
    lookup k (xs.flatMap f) = xs.findSome? fun x => lookup k (f x) := by
  induction xs with
  | nil => rfl
  | cons x xs ih =>
    rw [List.flatMap_cons, lookup_append, ih, List.findSome?_cons]
    cases lookup k (f x) <;> rfl

/-- The table's own value comes first, then the first that is offered. -/
theorem get?_accept (t : Table κ α) (l : List (κ × α)) (k : κ) :
    (t.accept l).get? k = (t.get? k).or (lookup k l) := by
  induction l generalizing t with
  | nil => exact (Option.or_none).symm
  | cons e l ih =>
    obtain ⟨j, v⟩ := e
    rw [accept_cons, ih, get?_insertIfNew, Option.or_assoc, lookup]
    split <;> rfl

/-- What is new goes behind the table's own entries, in the order of the first offers. -/
theorem exists_entries_accept (t : Table κ α) (l : List (κ × α)) :
    ∃ new, (t.accept l).entries = t.entries ++ new ∧
      new.map Prod.fst = ((l.map Prod.fst).filter fun k => k ∉ t.keys).eraseDups := by
  induction l generalizing t with
  | nil => exact ⟨[], (List.append_nil _).symm, rfl⟩
  | cons e l ih =>
    obtain ⟨k, v⟩ := e
    obtain ⟨new, hentries, hnew⟩ := ih (t.insertIfNew k v)
    rw [accept_cons, hentries, List.map_cons]
    by_cases hk : k ∈ t.keys
    · rw [insertIfNew_of_mem hk] at hnew ⊢
      exact ⟨new, rfl, by rw [hnew, List.filter_cons_of_neg (by simpa using hk)]⟩
    · have hown := entries_insertIfNew_of_not_mem hk v
      have hkeys : (t.insertIfNew k v).keys = t.keys ++ [k] := by
        rw [keys, hown, List.map_append]
        rfl
      refine ⟨(k, v) :: new, by rw [hown, List.append_assoc]; rfl, ?_⟩
      -- of the offers behind the first, those of its key count no more
      rw [List.filter_cons_of_pos (by simpa using hk), List.eraseDups_cons, List.map_cons, hnew,
        hkeys, List.filter_filter]
      congr 2
      refine List.filter_congr fun j _ => ?_
      by_cases hj : j = k <;> simp [hj]

theorem mem_keys_accept {t : Table κ α} {l : List (κ × α)} {k : κ} :
    k ∈ (t.accept l).keys ↔ k ∈ t.keys ∨ k ∈ l.map Prod.fst := by
  induction l generalizing t with
  | nil => simp [accept]
  | cons e l ih =>
    rw [accept_cons, ih, mem_keys_insertIfNew, List.map_cons, List.mem_cons, or_comm (a := k = e.1),
      or_assoc]

/-- Nothing is taken of offers for keys that are there. -/
theorem accept_of_mem {t : Table κ α} {l : List (κ × α)} (h : ∀ e ∈ l, e.1 ∈ t.keys) :
    t.accept l = t := by
  induction l with
  | nil => rfl
  | cons e l ih =>
    obtain ⟨he, hl⟩ := List.forall_mem_cons.1 h
    rw [accept_cons, insertIfNew_of_mem he, ih hl]

end Table

namespace SystemModel

/-! ## Offers to an actor -/

/-- What an annotation offers; one that is not defined offers nothing. -/
def offeredBy (annotations : Table Ident Annotation) (ref : Ident) : List (PropertyKey × String) :=
  match annotations.get? ref with
  | some x => x.properties.entries
  | none => []

/-- What the annotations that an actor refers to offer it, in the order of its references. -/
def offered (annotations : Table Ident Annotation) (refs : List Ident) :
    List (PropertyKey × String) :=
  refs.flatMap (offeredBy annotations)

theorem mergeProperties_eq (a : Actor) (ps : Properties) :
    mergeProperties a ps = { a with properties := a.properties.accept ps.entries } := by
  unfold mergeProperties Table.accept
  generalize ps.entries = offers
  induction offers generalizing a with
  | nil => rfl
  | cons e offers ih => exact ih (a.mergeProperty e.1 e.2)

/-- Annotations are offered in the order of the references. -/
theorem foldl_mergeProperties (annotations : Table Ident Annotation) (refs : List Ident)
    (a : Actor) :
    refs.foldl
      (fun a ref =>
        match annotations.get? ref with
        | some x => mergeProperties a x.properties
        | none => a) a =
      { a with properties := a.properties.accept (offered annotations refs) } := by
  induction refs generalizing a with
  | nil => rfl
  | cons ref refs ih =>
    rw [List.foldl_cons, offered, List.flatMap_cons, Table.accept_append, offeredBy]
    cases annotations.get? ref with
    | none => exact ih a
    | some x =>
      dsimp only
      rw [mergeProperties_eq]
      exact ih _

/-- A resolved actor has accepted what its annotations offer, and is the same otherwise. -/
theorem resolveActor_eq (annotations : Table Ident Annotation) (a : Actor) :
    resolveActor annotations a =
      { a with properties := a.properties.accept (offered annotations a.annotations) } :=
  foldl_mergeProperties annotations a.annotations a

theorem resolveActor_idem (annotations : Table Ident Annotation) (a : Actor) :
    resolveActor annotations (resolveActor annotations a) = resolveActor annotations a := by
  rw [resolveActor_eq annotations a, resolveActor_eq]
  have hall : ∀ e ∈ offered annotations a.annotations,
      e.1 ∈ (a.properties.accept (offered annotations a.annotations)).keys :=
    fun e he => Table.mem_keys_accept.2 (Or.inr (List.mem_map_of_mem he))
  simp only [Table.accept_of_mem hall]

/-! ## Precedence -/

/-- `b` is the actor `a` with what its annotations settle. -/
structure Settles (m : SystemModel) (a b : Actor) : Prop where
  /-- The actor's own value comes first, then that of the first annotation it refers to that is
  defined and has the key. -/
  value : ∀ k, b.property? k = (a.property? k).or
    (a.annotations.findSome? fun ref => (m.annotations.get? ref).bind fun x => x.property? k)
  /-- The actor's own entries stay where they are. The new keys stand behind them as they come
  first, by the order of the references and that of each annotation. -/
  order : ∃ new, b.properties.entries = a.properties.entries ++ new ∧
    new.map Prod.fst = ((a.annotations.flatMap fun ref =>
      ((m.annotations.get? ref).map fun x => x.properties.keys).getD []).filter
        fun k => k ∉ a.properties.keys).eraseDups
  /-- Only properties change. -/
  rest : { b with properties := a.properties } = a

theorem settles_resolveActor (m : SystemModel) (a : Actor) :
    m.Settles a (resolveActor m.annotations a) := by
  rw [resolveActor_eq]
  refine ⟨fun k => ?_, ?_, rfl⟩
  · refine (a.properties.get?_accept _ k).trans (congrArg _ ?_)
    rw [offered, Table.lookup_flatMap]
    congr 1
    funext ref
    unfold offeredBy
    cases m.annotations.get? ref <;> rfl
  · obtain ⟨new, hentries, hnew⟩ :=
      a.properties.exists_entries_accept (offered m.annotations a.annotations)
    refine ⟨new, hentries, hnew.trans ?_⟩
    rw [offered, List.map_flatMap]
    congr 3
    funext ref
    unfold offeredBy
    cases m.annotations.get? ref <;> rfl

/-- Resolution gives every actor what its annotations settle and changes nothing else, and a
second one changes nothing at all, the order of properties included. -/
theorem resolveAnnotations_settles (m : SystemModel) :
    List.Forall₂ m.Settles m.actors m.resolveAnnotations.actors ∧
      { m.resolveAnnotations with actors := m.actors } = m ∧
      m.resolveAnnotations.resolveAnnotations = m.resolveAnnotations := by
  refine ⟨?_, rfl, ?_⟩
  · refine List.forall₂_map_right_iff.2 (List.forall₂_same.2 fun a _ => ?_)
    exact m.settles_resolveActor a
  · simp only [resolveAnnotations, List.map_map]
    congr 1
    exact List.map_congr_left fun a _ => resolveActor_idem m.annotations a

end SystemModel

end ArchScript
