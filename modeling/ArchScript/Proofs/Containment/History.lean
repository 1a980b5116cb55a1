/-
  The history of a walk: where its entities were placed and which bodies it closed.

  A placement is an entity with the body that it was registered in; an entity lives where
  it was placed last (`latest`). A container id belongs to the body that was closed last
  under it (`lastClosed`). Both are read off the visits alone, without a scope.
-/
import ArchScript.Proofs.Elaboration.Entities
import Mathlib.Data.List.Nodup

namespace ArchScript

/-! ## Placements -/

/-- An entity and the body that it was registered in. -/
structure Placement where
  member : Member
  body : BodyPath
deriving DecidableEq

/-- A step registers its relationship only if there is none. -/
def Effect.onlyIfNew : Effect → Bool
  | useChannel _ => true
  | useFlow _ => true
  | _ => false

/-- Adds the placement that a visit makes to those before it. -/
def addPlacement (ps : List Placement) (v : Visit) : List Placement :=
  match v.act with
  | .check _ => ps
  | .effect e =>
    match e.placed? with
    | none => ps
    | some m => if e.onlyIfNew && ps.any (·.member = m) then ps else ps ++ [⟨m, v.body⟩]

/-- The placements of a walk, in order. -/
def placements (vs : List Visit) : List Placement := vs.foldl addPlacement []

/-- The last placement of every entity, in the order of these. -/
def latest : List Placement → List Placement
  | [] => []
  | p :: ps => if ps.any (·.member = p.member) then latest ps else p :: latest ps

/-- The entities that were placed in a body, in order. -/
def membersIn (ps : List Placement) (path : BodyPath) : List Member :=
  (ps.filter (·.body = path)).map Placement.member

theorem placements_append_singleton (vs : List Visit) (v : Visit) :
    placements (vs ++ [v]) = addPlacement (placements vs) v := by
  unfold placements
  rw [List.foldl_append]
  rfl

theorem any_member_iff {ps : List Placement} {m : Member} :
    ps.any (·.member = m) = true ↔ m ∈ ps.map Placement.member := by
  simp

/-- A visit places an entity and takes none away. -/
theorem mem_addPlacement_iff (ps : List Placement) (body : BodyPath) (e : Effect) (m : Member) :
    m ∈ (addPlacement ps ⟨body, .effect e⟩).map Placement.member ↔
      e.placed? = some m ∨ m ∈ ps.map Placement.member := by
  unfold addPlacement
  dsimp only
  cases hp : e.placed? with
  | none => simp
  | some n =>
    dsimp only
    split
    · next h =>
      rw [Bool.and_eq_true, any_member_iff] at h
      refine (or_iff_right_of_imp ?_).symm
      rintro ⟨⟩
      exact h.2
    · rw [List.map_append, List.mem_append, or_comm]
      simp [eq_comm]

/-! ## Last placements -/

theorem latest_sublist (ps : List Placement) : (latest ps).Sublist ps := by
  induction ps with
  | nil => exact List.Sublist.slnil
  | cons p ps ih =>
    rw [latest]
    split
    · exact ih.cons p
    · exact ih.cons_cons p

theorem mem_map_latest_iff {ps : List Placement} {m : Member} :
    m ∈ (latest ps).map Placement.member ↔ m ∈ ps.map Placement.member := by
  induction ps with
  | nil => rfl
  | cons p ps ih =>
    rw [latest, List.map_cons, List.mem_cons]
    split
    · next h =>
      rw [ih]
      constructor
      · exact Or.inr
      · rintro (rfl | hm)
        · exact any_member_iff.1 h
        · exact hm
    · rw [List.map_cons, List.mem_cons, ih]

/-- An entity has one last placement. -/
theorem nodup_latest (ps : List Placement) : ((latest ps).map Placement.member).Nodup := by
  induction ps with
  | nil => exact List.nodup_nil
  | cons p ps ih =>
    rw [latest]
    split
    · exact ih
    · next h =>
      rw [List.map_cons, List.nodup_cons, mem_map_latest_iff, ← any_member_iff]
      exact ⟨h, ih⟩

theorem eq_of_mem_latest {ps : List Placement} {p q : Placement} (hp : p ∈ latest ps)
    (hq : q ∈ latest ps) (h : p.member = q.member) : p = q :=
  List.inj_on_of_nodup_map (nodup_latest ps) hp hq h

/-- A new placement leaves the old place of its entity. -/
theorem latest_append_singleton (ps : List Placement) (p : Placement) :
    latest (ps ++ [p]) = (latest ps).filter (·.member ≠ p.member) ++ [p] := by
  induction ps with
  | nil => rfl
  | cons q ps ih =>
    rw [List.cons_append, latest, latest, ih, List.any_append]
    by_cases hq : ps.any (·.member = q.member) = true
    · simp [hq]
    · by_cases hp : p.member = q.member
      · simp [hq, hp]
      · have hp' : q.member ≠ p.member := fun e => hp e.symm
        simp [hq, hp, hp']

/-- A placement in another body takes its entity out of a body. -/
theorem membersIn_latest_append_of_ne {ps : List Placement} {p : Placement} {path : BodyPath}
    (h : p.body ≠ path) :
    membersIn (latest (ps ++ [p])) path =
      (membersIn (latest ps) path).filter fun m => !decide (m = p.member) := by
  rw [latest_append_singleton]
  simp [membersIn, h, List.filter_map, List.filter_filter, Function.comp_def, Bool.and_comm]

/-- A placement in a body puts its entity at the end of it. -/
theorem membersIn_latest_append_self (ps : List Placement) (p : Placement) :
    membersIn (latest (ps ++ [p])) p.body =
      ((membersIn (latest ps) p.body).filter fun m => !decide (m = p.member)) ++ [p.member] := by
  rw [latest_append_singleton]
  simp [membersIn, List.filter_map, List.filter_filter, Function.comp_def, Bool.and_comm]

theorem mem_membersIn_iff {ps : List Placement} {path : BodyPath} {m : Member} :
    m ∈ membersIn ps path ↔ ⟨m, path⟩ ∈ ps := by
  simp only [membersIn, List.mem_map, List.mem_filter, decide_eq_true_eq]
  constructor
  · rintro ⟨p, ⟨hp, rfl⟩, rfl⟩
    exact hp
  · intro h
    exact ⟨_, ⟨h, rfl⟩, rfl⟩

theorem nodup_membersIn_latest (ps : List Placement) (path : BodyPath) :
    (membersIn (latest ps) path).Nodup :=
  (nodup_latest ps).sublist (List.filter_sublist.map _)

/-! ## Closings -/

/-- A closed body and the id of its container. -/
structure Closing where
  path : BodyPath
  id : Ident
deriving DecidableEq

/-- The body that a visit closes. -/
def Visit.closing? (v : Visit) : Option Closing :=
  match v.act with
  | .effect (.closeBody path head) => some ⟨path, head.id.value⟩
  | _ => none

/-- The bodies that a walk closes, in order. -/
def closings (vs : List Visit) : List Closing := vs.filterMap Visit.closing?

/-- The body that was closed last under a container id. -/
def lastClosed (cs : List Closing) (c : Ident) : Option BodyPath :=
  (cs.filter (·.id = c)).getLast?.map Closing.path

/-- The entities that belong to a container id: those that were placed last in the body that
was closed last under it, in the order of their last placements. -/
def assignedTo (vs : List Visit) (c : Ident) : List Member :=
  ((latest (placements vs)).filter fun q => lastClosed (closings vs) c = some q.body).map
    Placement.member

theorem closings_append (vs ws : List Visit) : closings (vs ++ ws) = closings vs ++ closings ws :=
  List.filterMap_append

theorem Visit.closing?_eq_some_iff {v : Visit} {x : Closing} :
    v.closing? = some x ↔
      ∃ path head, v.act = .effect (.closeBody path head) ∧ x = ⟨path, head.id.value⟩ := by
  unfold Visit.closing?
  split
  · next path head hact =>
    rw [hact]
    constructor
    · intro h
      cases h
      exact ⟨path, head, rfl, rfl⟩
    · rintro ⟨_, _, h, rfl⟩
      cases h
      rfl
  · next hact =>
    constructor
    · intro h
      cases h
    · rintro ⟨path, head, h, _⟩
      exact (hact path head h).elim

theorem lastClosed_append_of_ne {cs ds : List Closing} {c : Ident} (h : ∀ x ∈ ds, x.id ≠ c) :
    lastClosed (cs ++ ds) c = lastClosed cs c := by
  have hds : ds.filter (·.id = c) = [] := List.filter_eq_nil_iff.2 fun x hx => by simp [h x hx]
  unfold lastClosed
  rw [List.filter_append, hds, List.append_nil]

theorem lastClosed_append_singleton (cs : List Closing) (x : Closing) (c : Ident) :
    lastClosed (cs ++ [x]) c = if x.id = c then some x.path else lastClosed cs c := by
  unfold lastClosed
  rw [List.filter_append]
  by_cases h : x.id = c <;> simp [h]

theorem mem_of_lastClosed {cs : List Closing} {c : Ident} {path : BodyPath}
    (h : lastClosed cs c = some path) : ⟨path, c⟩ ∈ cs := by
  obtain ⟨x, hx, rfl⟩ := Option.map_eq_some_iff.1 h
  have hm := List.mem_of_getLast? hx
  rw [List.mem_filter, decide_eq_true_eq] at hm
  rw [← hm.2]
  exact hm.1

theorem assignedTo_eq {vs : List Visit} {c : Ident} {path : BodyPath}
    (h : lastClosed (closings vs) c = some path) :
    assignedTo vs c = membersIn (latest (placements vs)) path := by
  unfold assignedTo membersIn
  rw [h]
  congr 1
  refine List.filter_congr fun q _ => ?_
  simp [eq_comm]

end ArchScript
