/-
  Containment in a finished model.

  The entities of a model name their containers and the containers list their members; the
  two are kept apart, and this module proves that they agree. `elaborate_containment` says
  what both are: an entity is where the program placed it last, if the body of that place
  is the last one of its container id, and a container lists its entities in the order of
  their last placements.
-/
import ArchScript.Proofs.Compile
import ArchScript.Proofs.Containment.Records

namespace ArchScript

/-! ## Entities -/

/-- The entities of a kind: the id of each and the container that it names. -/
def SystemModel.entities (m : SystemModel) : MemberKind → List (Ident × Option Ident)
  | .actor => m.actors.map fun a => (a.id, a.container)
  | .channel => m.channels.map fun c => (c.id, c.container)
  | .dataFlow => m.dataFlows.map fun f => (f.id, f.container)
  | MemberKind.annotation => m.annotations.values.map fun a => (a.id, a.container)
  | .container => m.containers.values.map fun c => (c.id, c.container)

/-! ## Annotations move nothing -/

section Resolve

variable {β : Type} (see : Actor → β)
  (hsee : ∀ a key value, see (a.mergeProperty key value) = see a)

include hsee

theorem see_mergeProperties (a : Actor) (ps : Properties) :
    see (SystemModel.mergeProperties a ps) = see a := by
  unfold SystemModel.mergeProperties
  generalize ps.entries = entries
  induction entries generalizing a with
  | nil => rfl
  | cons e entries ih => exact (ih (a.mergeProperty e.1 e.2)).trans (hsee a e.1 e.2)

/-- What no property changes is not changed by annotations. -/
theorem see_resolveActor (annotations : Table Ident Annotation) (a : Actor) :
    see (SystemModel.resolveActor annotations a) = see a := by
  unfold SystemModel.resolveActor
  generalize a.annotations = refs
  induction refs generalizing a with
  | nil => rfl
  | cons ref refs ih =>
    rw [List.foldl_cons]
    cases annotations.get? ref with
    | none => exact ih a
    | some x => exact (ih _).trans (see_mergeProperties see hsee a x.properties)

end Resolve

theorem entities_resolveAnnotations (m : SystemModel) (k : MemberKind) :
    m.resolveAnnotations.entities k = m.entities k := by
  cases k with
  | actor =>
    simp only [SystemModel.entities, SystemModel.resolveAnnotations, List.map_map]
    exact List.map_congr_left fun a _ =>
      see_resolveActor (fun a => (a.id, a.container)) (fun _ _ _ => rfl) m.annotations a
  | _ => rfl

/-! ## The model of a scope -/

namespace Scope

variable {s : Scope}

/-- The entities of the model are those of the scope, each where the scope has it. -/
theorem entities_toModel (h : s.Keyed) (k : MemberKind) :
    s.toModel.entities k = (s.ids k).map fun x => (x, s.parent? ⟨k, x⟩) := by
  cases k with
  | actor =>
    simp only [ids, ← h.actors.map_values, List.map_map]
    simp only [SystemModel.entities, toModel, List.map_map]
    rfl
  | channel =>
    simp only [ids, ← h.channels.map_values, List.map_map]
    simp only [SystemModel.entities, toModel, List.map_map]
    rfl
  | dataFlow =>
    simp only [ids, ← h.dataFlows.map_values, List.map_map]
    simp only [SystemModel.entities, toModel, List.map_map]
    rfl
  | «annotation» =>
    simp only [ids, SystemModel.entities, toModel, Table.values, Table.mapValues, Table.keys,
      List.map_map]
    refine List.map_congr_left fun e he => ?_
    have hid := h.annotations e.1 e.2 (Table.get?_eq_some_iff.2 he)
    simp [hid, Annotation.withContainer]
  | container =>
    simp only [ids, SystemModel.entities, toModel, Table.values, Table.mapValues, Table.keys,
      List.map_map]
    exact List.map_congr_left fun e _ => rfl

theorem mem_entities_toModel (h : s.Keyed) {k : MemberKind} {x : Ident} {o : Option Ident} :
    (x, o) ∈ s.toModel.entities k ↔ x ∈ s.ids k ∧ o = s.parent? ⟨k, x⟩ := by
  rw [entities_toModel h, List.mem_map]
  constructor
  · rintro ⟨y, hy, e⟩
    cases e
    exact ⟨hy, rfl⟩
  · rintro ⟨hx, rfl⟩
    exact ⟨x, hx, rfl⟩

theorem map_fst_entities_toModel (h : s.Keyed) (k : MemberKind) :
    (s.toModel.entities k).map Prod.fst = s.ids k := by
  rw [entities_toModel h, List.map_map]
  exact List.map_id _

theorem nodup_ids (s : Scope) (k : MemberKind) : (s.ids k).Nodup := by
  cases k with
  | actor => exact s.actors.nodup
  | channel => exact s.channels.nodup
  | dataFlow => exact s.dataFlows.nodup
  | «annotation» => exact s.annotations.nodup
  | container => exact s.containers.nodup

theorem keyed_containers_toModel (s : Scope) : s.toModel.containers.Keyed Container.id := by
  intro c x hx
  simp only [toModel, Table.get?_mapValues] at hx
  obtain ⟨_, _, rfl⟩ := Option.map_eq_some_iff.1 hx
  rfl

/-- A container of the model lists what it still holds. -/
theorem mem_containers_toModel {c : Container} (hc : c ∈ s.toModel.containers.values) :
    ∃ x, s.containers.get? c.id = some x ∧ ∀ k, c.members.ofKind k =
      (x.members.ofKind k).filter fun id => s.parent? ⟨k, id⟩ = some c.id := by
  rw [s.keyed_containers_toModel.mem_values_iff] at hc
  simp only [toModel, Table.get?_mapValues] at hc
  obtain ⟨x, hx, e⟩ := Option.map_eq_some_iff.1 hc
  rw [← e]
  exact ⟨x, hx, fun k => Members.ofKind_filter _ _ k⟩

end Scope

/-! ## Members and containers agree -/

namespace Records

variable {vs : List Visit} {st : List BodyPath} {s : Scope}

/-- An entity of the scope was placed. -/
theorem exists_latest (h : Records vs st s) {k : MemberKind} {x : Ident} (hx : x ∈ s.ids k) :
    ∃ q ∈ latest (placements vs), q.member = ⟨k, x⟩ := by
  have hplaced := (h.ids ⟨k, x⟩).1 hx
  rw [← mem_map_latest_iff] at hplaced
  exact List.mem_map.1 hplaced

theorem parent?_eq_some_iff (h : Records vs st s) {q : Placement}
    (hq : q ∈ latest (placements vs)) (c : Ident) :
    s.parent? q.member = some c ↔ lastClosed (closings vs) c = some q.body := by
  rw [h.places.parents]
  constructor
  · rintro ⟨p, hp, e, hc⟩
    rw [eq_of_mem_latest hp hq e] at hc
    exact hc
  · intro hc
    exact ⟨q, hq, rfl, hc⟩

/-- A container is present when it holds something. -/
theorem container_mem_ids (h : Records vs st s) {m : Member} {c : Ident}
    (hm : s.parent? m = some c) : c ∈ s.ids .container := by
  obtain ⟨p, _, _, hc⟩ := (h.places.parents m c).1 hm
  exact (h.places.closed c).2 ⟨_, hc⟩

/-- The container of an entity is in the model, where the scope has it. -/
theorem container?_toModel (h : Records vs st s) {m : Member} {c : Ident}
    (hm : s.parent? m = some c) :
    ∃ x, s.toModel.container? c = some x ∧ x.container = s.parent? ⟨.container, c⟩ := by
  obtain ⟨y, hy⟩ := Table.mem_keys_iff.1 (h.container_mem_ids hm)
  unfold SystemModel.container?
  simp only [Scope.toModel, Table.get?_mapValues, hy]
  exact ⟨_, rfl, rfl⟩

/-- What a container holds is an entity of the scope. -/
theorem mem_ids_of_parent? (h : Records vs st s) {m : Member} {c : Ident}
    (hm : s.parent? m = some c) : m.id ∈ s.ids m.kind := by
  obtain ⟨p, hp, rfl, _⟩ := (h.places.parents m c).1 hm
  rw [h.ids, ← mem_map_latest_iff]
  exact List.mem_map_of_mem hp

/-- The list of a container of the model: what was placed last in its last body. -/
theorem members_toModel (h : Records vs st s) {c : Container}
    (hc : c ∈ s.toModel.containers.values) :
    ∃ path, lastClosed (closings vs) c.id = some path ∧ ∀ k,
      c.members.ofKind k = idsOfKind k (membersIn (latest (placements vs)) path) := by
  obtain ⟨x, hx, hk⟩ := Scope.mem_containers_toModel hc
  obtain ⟨path, hpath⟩ := (h.places.closed c.id).1 (Table.mem_keys_iff.2 ⟨x, hx⟩)
  refine ⟨path, hpath, fun k => ?_⟩
  rw [hk, h.places.lists c.id x path hx hpath k]

/-- A container lists an id exactly when the entity of this id names the container. -/
theorem mem_members_iff (h : Records vs st s) {c : Container}
    (hc : c ∈ s.toModel.containers.values) (k : MemberKind) (x : Ident) :
    x ∈ c.members.ofKind k ↔ (x, some c.id) ∈ s.toModel.entities k := by
  obtain ⟨path, hpath, hlist⟩ := h.members_toModel hc
  rw [hlist, mem_idsOfKind_iff, mem_membersIn_iff, Scope.mem_entities_toModel h.keyed]
  constructor
  · intro hx
    have hp : s.parent? ⟨k, x⟩ = some c.id := (h.parent?_eq_some_iff hx c.id).2 hpath
    exact ⟨h.mem_ids_of_parent? hp, hp.symm⟩
  · rintro ⟨_, hp⟩
    obtain ⟨⟨m, body⟩, hq, rfl, hlast⟩ := (h.places.parents _ _).1 hp.symm
    rw [hpath] at hlast
    cases hlast
    exact hq

end Records

/-- The two sides of containment agree: a container lists what names it, once each, and the
containers that are named are there. Containers stand under their ids, and no kind repeats
an id. -/
structure SystemModel.Consistent (m : SystemModel) : Prop where
  listed : ∀ c ∈ m.containers.values, ∀ k x,
    x ∈ c.members.ofKind k ↔ (x, some c.id) ∈ m.entities k
  present : ∀ k x c, (x, some c) ∈ m.entities k → ∃ y, m.container? c = some y
  nodup : ∀ c ∈ m.containers.values, ∀ k, (c.members.ofKind k).Nodup
  ids : ∀ k, ((m.entities k).map Prod.fst).Nodup
  keyed : m.containers.Keyed Container.id

theorem Records.consistent_toModel {vs : List Visit} {st : List BodyPath} {s : Scope}
    (h : Records vs st s) : s.toModel.Consistent where
  listed _ hc k x := h.mem_members_iff hc k x
  present k x c hx := by
    rw [Scope.mem_entities_toModel h.keyed] at hx
    obtain ⟨y, hy, _⟩ := h.container?_toModel hx.2.symm
    exact ⟨y, hy⟩
  nodup c hc k := by
    obtain ⟨path, _, hlist⟩ := h.members_toModel hc
    rw [hlist]
    exact nodup_idsOfKind (nodup_membersIn_latest _ path)
  ids k := by
    rw [Scope.map_fst_entities_toModel h.keyed]
    exact s.nodup_ids k
  keyed := s.keyed_containers_toModel

/-! ## Programs and sources -/

/-- A program that elaborates leaves a scope that records it; the model has the entities and
containers of that scope. -/
theorem Program.exists_records {options : ElaborationOptions} {p : Program} {m : SystemModel}
    (h : p.elaborate options = .ok m) : ∃ s, Records p.visits [] s ∧
      (∀ k, m.entities k = s.toModel.entities k) ∧ m.containers = s.toModel.containers := by
  obtain ⟨s, hs, hmodel⟩ := Program.exists_scope h
  refine ⟨s, records_program hs, ?_, ?_⟩
  · intro k
    rw [hmodel]
    split
    · exact entities_resolveAnnotations s.toModel k
    · rfl
  · rw [hmodel]
    split <;> rfl

theorem Program.consistent {options : ElaborationOptions} {p : Program} {m : SystemModel}
    (h : p.elaborate options = .ok m) : m.Consistent := by
  obtain ⟨s, hs, he, hc⟩ := Program.exists_records h
  obtain ⟨h₁, h₂, h₃, h₄, h₅⟩ := hs.consistent_toModel
  unfold SystemModel.container? at h₂
  simp only [← he, ← hc] at h₁ h₂ h₃ h₄ h₅
  exact ⟨h₁, h₂, h₃, h₄, h₅⟩

/-- In the model of a source a container lists an id of a kind exactly when the entity of
this id names the container; a container that is named is there, and no list repeats an id. -/
theorem compile_containment_consistent {options : ElaborationOptions} {source : String}
    {m : SystemModel} (h : compile options source = .ok m) :
    (∀ c ∈ m.containers.values, ∀ k x,
      x ∈ c.members.ofKind k ↔ (x, some c.id) ∈ m.entities k) ∧
    (∀ k x c, (x, some c) ∈ m.entities k → ∃ y, m.container? c = some y ∧ y.id = c) ∧
    (∀ c ∈ m.containers.values, ∀ k, (c.members.ofKind k).Nodup) := by
  obtain ⟨_, p, _, _, hp⟩ := compile_eq_ok_iff.1 h
  have hm := Program.consistent hp
  refine ⟨hm.listed, fun k x c hx => ?_, hm.nodup⟩
  obtain ⟨y, hy⟩ := hm.present k x c hx
  exact ⟨y, hy, hm.keyed c y hy⟩

/-- A source that declares a container id three times: twice apart and once in its own body. -/
def containersAgain : String :=
  "container 'C' as c \x7b
     agent 'A' as a
     container 'D' as d \x7b agent 'B' as b \x7d
   \x7d;
   container 'C' as c \x7b
     agent 'E' as e
     container 'C' as c \x7b b -('x')-> a agent 'A' as a \x7d
   \x7d;"

/-- The outer body is closed last: only its actor is left in the container, and the container
is not in itself. -/
theorem compile_containment_consistent_again :
    ∃ m, compile .default containersAgain = .ok m ∧
      m.entities .actor = [("a", none), ("b", some "d"), ("e", some "c")] ∧
      m.entities .container = [("d", none), ("c", none)] ∧
      (∀ c ∈ m.containers.values, ∀ k x,
        x ∈ c.members.ofKind k ↔ (x, some c.id) ∈ m.entities k) ∧
      (∀ k x c, (x, some c) ∈ m.entities k → ∃ y, m.container? c = some y ∧ y.id = c) ∧
      (∀ c ∈ m.containers.values, ∀ k, (c.members.ofKind k).Nodup) := by
  have hm : (compile .default containersAgain).toOption.map
      (fun m => (m.entities .actor, m.entities .container)) =
      some ([("a", none), ("b", some "d"), ("e", some "c")], [("d", none), ("c", none)]) := by
    decide +kernel
  obtain ⟨m, h, hentities⟩ := exists_ok_of_toOption hm
  obtain ⟨ha, hc⟩ := Prod.mk.inj hentities
  exact ⟨m, h, ha, hc, compile_containment_consistent h⟩

/-! ## The meaning of a program -/

/-- The entities of a model are those that its program places. An entity names the container
whose last body is the body of the entity's last placement, and no container if there is
none. A container lists the entities that are assigned to it so, in the order of their last
placements. -/
theorem elaborate_containment {options : ElaborationOptions} {p : Program} {m : SystemModel}
    (h : p.elaborate options = .ok m) :
    (∀ k x, x ∈ (m.entities k).map Prod.fst ↔
      ⟨k, x⟩ ∈ (placements p.visits).map Placement.member) ∧
    (∀ k x o, (x, o) ∈ m.entities k → ∃ q ∈ latest (placements p.visits), q.member = ⟨k, x⟩ ∧
      ∀ c, o = some c ↔ lastClosed (closings p.visits) c = some q.body) ∧
    (∀ c ∈ m.containers.values, ∀ k,
      c.members.ofKind k = idsOfKind k (assignedTo p.visits c.id)) := by
  obtain ⟨s, hs, he, hc⟩ := Program.exists_records h
  refine ⟨?_, ?_, ?_⟩
  · intro k x
    rw [he, Scope.map_fst_entities_toModel hs.keyed]
    exact hs.ids ⟨k, x⟩
  · intro k x o hx
    rw [he, Scope.mem_entities_toModel hs.keyed] at hx
    obtain ⟨hx, rfl⟩ := hx
    obtain ⟨q, hq, e⟩ := hs.exists_latest hx
    refine ⟨q, hq, e, fun c => ?_⟩
    rw [← e]
    exact hs.parent?_eq_some_iff hq c
  · rw [hc]
    intro c hmem k
    obtain ⟨path, hpath, hlist⟩ := hs.members_toModel hmem
    rw [hlist, assignedTo_eq hpath]

/-- A channel that a step brings into being in one body and a call declares in another. -/
def channelMoves : Program :=
  [unplaced (.container ⟨unplaced "C", unplaced "c"⟩
    [unplaced (.actor ⟨unplaced .agent, unplaced "A", unplaced "a", []⟩),
      unplaced (.scenario ⟨unplaced "S",
        [unplaced (.request .async (unplaced "a") (unplaced "a") none)]⟩),
      unplaced (.container ⟨unplaced "D", unplaced "d"⟩
        [unplaced (.call ⟨.async, unplaced "a", unplaced "a", none⟩)])])]

/-- The channel is where the call stands. -/
theorem elaborate_containment_channelMoves :
    ∃ m, channelMoves.elaborate .default = .ok m ∧
      m.entities .channel = [("a-async->a", some "d")] ∧
      (∀ k x, x ∈ (m.entities k).map Prod.fst ↔
        ⟨k, x⟩ ∈ (placements channelMoves.visits).map Placement.member) ∧
      (∀ k x o, (x, o) ∈ m.entities k → ∃ q ∈ latest (placements channelMoves.visits),
        q.member = ⟨k, x⟩ ∧
        ∀ c, o = some c ↔ lastClosed (closings channelMoves.visits) c = some q.body) ∧
      (∀ c ∈ m.containers.values, ∀ k,
        c.members.ofKind k = idsOfKind k (assignedTo channelMoves.visits c.id)) := by
  have hm : (channelMoves.elaborate .default).toOption.map (fun m => m.entities .channel) =
      some [("a-async->a", some "d")] := by decide +kernel
  obtain ⟨m, h, hchannels⟩ := exists_ok_of_toOption hm
  exact ⟨m, h, hchannels, elaborate_containment h⟩

end ArchScript
