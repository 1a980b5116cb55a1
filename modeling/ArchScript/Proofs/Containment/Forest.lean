/-
  The containers of a model form a forest.

  A body stands in a body with a shorter path, and a container is placed last where its last
  body is closed. So following containers from an entity shortens the path of its place and
  comes to the outside (`Records.exists_depth`). In a consistent model with this property
  the walk down from the containers outside meets each container once, and the members of
  the containers it meets are the entities inside: `SystemModel.Consistent.walk_covers`.
-/
import ArchScript.Proofs.Containment.Model
import Mathlib.Data.List.Induction
import Mathlib.Logic.Relation

namespace ArchScript

/-! ## Up and down -/

namespace SystemModel

/-- Following containers from `o` leads to the outside after `n` of them. -/
inductive Depth (m : SystemModel) : Option Ident → Nat → Prop where
  | outside : Depth m none 0
  | inside {c x n} (found : m.container? c = some x) (rest : Depth m x.container n) :
    Depth m (some c) (n + 1)

/-- The container `c` is in the container `d` itself. -/
def Inside (m : SystemModel) (c d : Ident) : Prop :=
  ∃ x, m.container? c = some x ∧ x.container = some d

/-- The walk down from containers: each is met before the containers that it lists, and
those before the containers after it. -/
inductive Walk (m : SystemModel) : List Ident → List Ident → Prop where
  | nil : Walk m [] []
  | cons {c x rest inner outer} (found : m.container? c = some x)
    (down : Walk m x.members.containers inner) (right : Walk m rest outer) :
    Walk m (c :: rest) (c :: (inner ++ outer))

/-- The ids of the entities of a kind that name no container. -/
def outside (m : SystemModel) (k : MemberKind) : List Ident :=
  ((m.entities k).filter fun e => e.2.isNone).map Prod.fst

/-- The ids of a kind that the container `c` lists. -/
def membersOf (m : SystemModel) (k : MemberKind) (c : Ident) : List Ident :=
  match m.container? c with
  | some x => x.members.ofKind k
  | none => []

variable {m : SystemModel}

theorem membersOf_of_found {c : Ident} {x : Container} (found : m.container? c = some x)
    (k : MemberKind) : m.membersOf k c = x.members.ofKind k := by
  simp only [membersOf, found]

theorem map_id_topLevelActors (m : SystemModel) :
    m.topLevelActors.map Actor.id = m.outside .actor := by
  simp [topLevelActors, outside, entities, List.filter_map, Function.comp_def]

theorem map_id_topLevelContainers (m : SystemModel) :
    m.topLevelContainers.map Container.id = m.outside .container := by
  simp [topLevelContainers, outside, entities, List.filter_map, Function.comp_def]

/-! ## Depths -/

theorem Depth.unique {o : Option Ident} {n n' : Nat} (h : m.Depth o n) (h' : m.Depth o n') :
    n = n' := by
  induction h generalizing n' with
  | outside =>
    cases h'
    rfl
  | inside found rest ih =>
    cases h' with
    | inside found' rest' =>
      rw [found] at found'
      cases found'
      rw [ih rest']

theorem Inside.depth {c d : Ident} (h : m.Inside c d) {n : Nat} (hn : m.Depth (some d) n) :
    m.Depth (some c) (n + 1) := by
  obtain ⟨x, hx, hd⟩ := h
  rw [← hd] at hn
  exact .inside hx hn

theorem exists_depth_of_transGen {c d : Ident} (h : Relation.TransGen m.Inside c d) {n : Nat}
    (hn : m.Depth (some d) n) : ∃ n', n < n' ∧ m.Depth (some c) n' := by
  induction h using Relation.TransGen.head_induction_on with
  | single h => exact ⟨n + 1, by omega, h.depth hn⟩
  | head h _ ih =>
    obtain ⟨n', hlt, hn'⟩ := ih
    exact ⟨n' + 1, by omega, h.depth hn'⟩

/-- A container with a depth is not inside itself, directly or through others. -/
theorem Depth.not_inside {c : Ident} {n : Nat} (h : m.Depth (some c) n) :
    ¬ Relation.TransGen m.Inside c c := by
  intro hc
  obtain ⟨n', hlt, hn'⟩ := exists_depth_of_transGen hc h
  have := h.unique hn'
  omega

/-- Finitely many depths have a bound. -/
theorem exists_depth_le (m : SystemModel) (cs : List Ident) :
    ∃ H, ∀ c ∈ cs, ∀ n, m.Depth (some c) n → n ≤ H := by
  induction cs with
  | nil => exact ⟨0, by simp⟩
  | cons c cs ih =>
    obtain ⟨H, hH⟩ := ih
    by_cases hc : ∃ n, m.Depth (some c) n
    · obtain ⟨n, hn⟩ := hc
      refine ⟨max n H, fun d hd n' hn' => ?_⟩
      rcases List.mem_cons.1 hd with rfl | hd
      · have := hn.unique hn'
        omega
      · have := hH d hd n' hn'
        omega
    · refine ⟨H, fun d hd n' hn' => ?_⟩
      rcases List.mem_cons.1 hd with rfl | hd
      · exact (hc ⟨n', hn'⟩).elim
      · exact hH d hd n' hn'

/-! ## Walks -/

theorem Walk.unique {cs order order' : List Ident} (h : m.Walk cs order)
    (h' : m.Walk cs order') : order = order' := by
  induction h generalizing order' with
  | nil =>
    cases h'
    rfl
  | cons found down right ih₁ ih₂ =>
    cases h' with
    | cons found' down' right' =>
      rw [found] at found'
      cases found'
      rw [ih₁ down', ih₂ right']

/-- A walk meets where it starts and what the containers it meets list. -/
theorem Walk.perm {cs order : List Ident} (h : m.Walk cs order) :
    order.Perm (cs ++ order.flatMap (m.membersOf .container)) := by
  induction h with
  | nil => exact .nil
  | @cons c x rest inner outer found down right ih₁ ih₂ =>
    rw [List.flatMap_cons, List.flatMap_append, membersOf_of_found found, List.cons_append]
    rw [Members.ofKind]
    refine List.Perm.cons c ((ih₁.append ih₂).trans ?_)
    rw [← List.append_assoc x.members.containers]
    exact List.perm_append_comm_assoc _ _ _

/-! ## Walks over consistent models -/

namespace Consistent

theorem container?_eq_some_iff (hm : m.Consistent) {c : Ident} {x : Container} :
    m.container? c = some x ↔ x ∈ m.containers.values ∧ x.id = c := by
  rw [hm.keyed.mem_values_iff]
  constructor
  · intro hx
    have hid := hm.keyed c x hx
    exact ⟨hid.symm ▸ hx, hid⟩
  · rintro ⟨hx, rfl⟩
    exact hx

theorem mem_entities_of_found (hm : m.Consistent) {c : Ident} {x : Container}
    (found : m.container? c = some x) : (c, x.container) ∈ m.entities .container := by
  obtain ⟨hx, rfl⟩ := hm.container?_eq_some_iff.1 found
  exact List.mem_map_of_mem hx

theorem mem_membersOf_iff (hm : m.Consistent) {k : MemberKind} {x c : Ident} :
    x ∈ m.membersOf k c ↔ (x, some c) ∈ m.entities k := by
  unfold membersOf
  cases hc : m.container? c with
  | none =>
    constructor
    · intro hx
      cases hx
    intro hx
    obtain ⟨y, hy⟩ := hm.present k x c hx
    rw [hc] at hy
    cases hy
  | some y =>
    obtain ⟨hy, rfl⟩ := hm.container?_eq_some_iff.1 hc
    exact hm.listed y hy k x

theorem nodup_membersOf (hm : m.Consistent) (k : MemberKind) (c : Ident) :
    (m.membersOf k c).Nodup := by
  unfold membersOf
  split
  · next y hy => exact hm.nodup y (hm.container?_eq_some_iff.1 hy).1 k
  · exact List.nodup_nil

theorem eq_of_mem_entities (hm : m.Consistent) {k : MemberKind} {x : Ident} {o o' : Option Ident}
    (h : (x, o) ∈ m.entities k) (h' : (x, o') ∈ m.entities k) : o = o' :=
  congrArg Prod.snd (List.inj_on_of_nodup_map (hm.ids k) h h' rfl)

theorem inside_of_mem_membersOf (hm : m.Consistent) {c d : Ident}
    (hd : d ∈ m.membersOf .container c) : m.Inside d c := by
  obtain ⟨y, hy, e⟩ := List.mem_map.1 (hm.mem_membersOf_iff.1 hd)
  obtain ⟨rfl, hc⟩ := Prod.mk.inj e
  exact ⟨y, hm.container?_eq_some_iff.2 ⟨hy, rfl⟩, hc⟩

/-- The container that an entity names lists it once, and no other lists it. -/
theorem count_membersOf (hm : m.Consistent) {k : MemberKind} {x : Ident} {o : Option Ident}
    (hx : (x, o) ∈ m.entities k) (c : Ident) :
    (m.membersOf k c).count x = if o = some c then 1 else 0 := by
  rw [(hm.nodup_membersOf k c).count]
  refine if_congr (hm.mem_membersOf_iff.trans ⟨hm.eq_of_mem_entities hx, ?_⟩) rfl rfl
  rintro rfl
  exact hx

/-- Containers list an entity as often as they have the container that it names. -/
theorem count_flatMap_membersOf (hm : m.Consistent) {k : MemberKind} {x : Ident}
    {o : Option Ident} (hx : (x, o) ∈ m.entities k) (cs : List Ident) :
    (cs.flatMap (m.membersOf k)).count x = o.elim 0 cs.count := by
  induction cs with
  | nil => cases o <;> simp
  | cons c cs ih =>
    rw [List.flatMap_cons, List.count_append, ih, hm.count_membersOf hx]
    cases o with
    | none => simp
    | some d =>
      rw [Option.elim_some, Option.elim_some, List.count_cons, Nat.add_comm]
      by_cases hc : c = d
      · simp [hc]
      · have hd : ¬ d = c := fun e => hc e.symm
        simp [hc, hd]

theorem mem_outside_iff {k : MemberKind} {x : Ident} :
    x ∈ m.outside k ↔ (x, none) ∈ m.entities k := by
  simp [outside]

theorem count_outside (hm : m.Consistent) {k : MemberKind} {x : Ident} {o : Option Ident}
    (hx : (x, o) ∈ m.entities k) : (m.outside k).count x = if o = none then 1 else 0 := by
  have hn : (m.outside k).Nodup := (hm.ids k).sublist (List.filter_sublist.map _)
  rw [hn.count]
  refine if_congr (mem_outside_iff.trans ⟨hm.eq_of_mem_entities hx, ?_⟩) rfl rfl
  rintro rfl
  exact hx

variable {order : List Ident}

/-- The walk from outside meets each container that has a depth once: a container outside is
where the walk starts, and another is listed once by the container that it is in. -/
theorem count_of_depth (hm : m.Consistent) (hw : m.Walk (m.outside .container) order)
    {o : Option Ident} {n : Nat} (h : m.Depth o n) : o.elim 1 order.count = 1 := by
  induction h with
  | outside => rfl
  | @inside c x n found rest ih =>
    have hx := hm.mem_entities_of_found found
    -- where the walk starts and what it lists make up the walk itself
    have hcount := hw.perm.count_eq c
    rw [List.count_append, hm.count_outside hx, hm.count_flatMap_membersOf hx] at hcount
    rw [Option.elim_some, hcount]
    cases hc : x.container with
    | none => rfl
    | some d =>
      rw [hc] at ih
      exact (Nat.zero_add _).trans ih

/-- The entities of a kind are those outside and those that the containers of the walk list,
each once. -/
theorem walk_covers (hm : m.Consistent) (hd : ∀ k x o, (x, o) ∈ m.entities k → ∃ n, m.Depth o n)
    (hw : m.Walk (m.outside .container) order) (k : MemberKind) :
    (m.outside k ++ order.flatMap (m.membersOf k)).Perm ((m.entities k).map Prod.fst) := by
  refine List.perm_iff_count.2 fun x => ?_
  rw [List.count_append]
  by_cases hx : x ∈ (m.entities k).map Prod.fst
  · obtain ⟨⟨x, o⟩, hx', rfl⟩ := List.mem_map.1 hx
    obtain ⟨n, hn⟩ := hd k x o hx'
    have hone := hm.count_of_depth hw hn
    rw [List.count_eq_one_of_mem (hm.ids k) hx, hm.count_outside hx',
      hm.count_flatMap_membersOf hx']
    cases o with
    | none => rfl
    | some d => exact (Nat.zero_add _).trans hone
  · have hout : x ∉ m.outside k := fun h => hx (List.mem_map_of_mem (mem_outside_iff.1 h))
    have hin : x ∉ order.flatMap (m.membersOf k) := by
      intro h
      obtain ⟨c, _, hc⟩ := List.mem_flatMap.1 h
      exact hx (List.mem_map_of_mem (hm.mem_membersOf_iff.1 hc))
    rw [List.count_eq_zero.2 hout, List.count_eq_zero.2 hin, List.count_eq_zero.2 hx]

/-- The walk meets exactly the containers of the model. -/
theorem walk_perm (hm : m.Consistent) (hd : ∀ k x o, (x, o) ∈ m.entities k → ∃ n, m.Depth o n)
    (hw : m.Walk (m.outside .container) order) :
    order.Perm (m.containers.values.map Container.id) := by
  refine hw.perm.trans ((hm.walk_covers hd hw .container).trans ?_)
  rw [entities, List.map_map]
  exact .refl _

/-- Going down the depth grows, and it is bounded, so walks end. -/
theorem exists_walk_of_le (hm : m.Consistent) {H : Nat}
    (hH : ∀ c n, m.Depth (some c) n → n ≤ H) (k : Nat) (cs : List Ident)
    (hcs : ∀ c ∈ cs, ∃ n, m.Depth (some c) n ∧ H < n + k) : ∃ order, m.Walk cs order := by
  induction k generalizing cs with
  | zero =>
    cases cs with
    | nil => exact ⟨[], .nil⟩
    | cons c cs =>
      obtain ⟨n, hn, hlt⟩ := hcs c List.mem_cons_self
      have := hH c n hn
      omega
  | succ k ih =>
    induction cs with
    | nil => exact ⟨[], .nil⟩
    | cons c cs ihcs =>
      obtain ⟨n, hn, hlt⟩ := hcs c List.mem_cons_self
      obtain ⟨outer, right⟩ := ihcs fun d hd => hcs d (List.mem_cons_of_mem c hd)
      have hdown : ∀ d ∈ m.membersOf .container c, ∃ n, m.Depth (some d) n ∧ H < n + k := by
        intro d hd
        exact ⟨n + 1, (hm.inside_of_mem_membersOf hd).depth hn, by omega⟩
      cases hn with
      | @inside _ x n found rest =>
        rw [membersOf_of_found found] at hdown
        obtain ⟨inner, down⟩ := ih x.members.containers hdown
        exact ⟨_, .cons found down right⟩

theorem exists_walk (hm : m.Consistent) : ∃ order, m.Walk (m.outside .container) order := by
  obtain ⟨H, hH⟩ := m.exists_depth_le m.containers.keys
  refine hm.exists_walk_of_le (H := H) ?_ (H + 1) _ ?_
  · intro c n hn
    refine hH c ?_ n hn
    cases hn with
    | inside found rest => exact Table.mem_keys_iff.2 ⟨_, found⟩
  · intro c hc
    obtain ⟨y, hy, e⟩ := List.mem_map.1 (mem_outside_iff.1 hc)
    obtain ⟨rfl, hy'⟩ := Prod.mk.inj e
    have found := hm.container?_eq_some_iff.2 ⟨hy, rfl⟩
    refine ⟨1, .inside found ?_, by omega⟩
    rw [hy']
    exact .outside

end Consistent

end SystemModel

/-! ## Where a program leads -/

/-- A placement stays the last one of its entity if a visit places none of it. -/
theorem mem_latest_addPlacement {ps : List Placement} {v : Visit} {q : Placement}
    (hq : q ∈ latest ps) (hv : ∀ e, v.act = .effect e → e.placed? ≠ some q.member) :
    q ∈ latest (addPlacement ps v) := by
  unfold addPlacement
  split
  · exact hq
  · next e he =>
    split
    · exact hq
    · next n hn =>
      split
      · exact hq
      · have hne : q.member ≠ n := fun e' => hv e he (e' ▸ hn)
        rw [latest_append_singleton]
        refine List.mem_append_left _ (List.mem_filter.2 ⟨hq, ?_⟩)
        simpa using hne

/-- A container is placed last around the body that was closed last under its id. -/
theorem mem_latest_of_lastClosed {vs : List Visit} (hvs : ∀ v ∈ vs, v.ClosesBelow) {c : Ident}
    {path : BodyPath} (hc : lastClosed (closings vs) c = some path) :
    ∃ i body, path = i :: body ∧ ⟨⟨.container, c⟩, body⟩ ∈ latest (placements vs) := by
  -- from the end of the walk: either its last visit closes the container, or nothing changed
  induction vs using List.reverseRecOn with
  | nil => cases hc
  | append_singleton vs v ih =>
    rw [List.forall_mem_append, List.forall_mem_singleton] at hvs
    rw [closings_append] at hc
    rw [placements_append_singleton]
    by_cases hv : ∃ p head, v.act = .effect (.closeBody p head) ∧ head.id.value = c
    · obtain ⟨p, head, hact, rfl⟩ := hv
      obtain ⟨i, hi⟩ := hvs.2 p head hact
      have hclose : closings [v] = [⟨p, head.id.value⟩] := by
        simp [closings, Visit.closing?, hact]
      rw [hclose, lastClosed_append_singleton, if_pos rfl] at hc
      cases hc
      refine ⟨i, v.body, hi, ?_⟩
      simp [addPlacement, hact, Effect.placed?, Effect.onlyIfNew, latest_append_singleton]
    · have hother : ∀ x ∈ closings [v], x.id ≠ c := by
        intro x hx hid
        simp only [closings, List.mem_filterMap, List.mem_singleton, exists_eq_left] at hx
        obtain ⟨p, head, hact, rfl⟩ := Visit.closing?_eq_some_iff.1 hx
        exact hv ⟨p, head, hact, hid⟩
      rw [lastClosed_append_of_ne hother] at hc
      obtain ⟨i, body, rfl, hmem⟩ := ih hvs.1 hc
      refine ⟨i, body, rfl, mem_latest_addPlacement hmem fun e he hp => hv ?_⟩
      obtain ⟨p, head, rfl, hid⟩ := Effect.placed?_container hp
      exact ⟨p, head, he, hid⟩

/-- Following containers from a last placement shortens the path of the body. -/
theorem Records.exists_depth {vs : List Visit} {s : Scope} (h : Records vs [] s)
    (hvs : ∀ v ∈ vs, v.ClosesBelow) {q : Placement} (hq : q ∈ latest (placements vs)) :
    ∃ n, s.toModel.Depth (s.parent? q.member) n := by
  obtain ⟨member, path⟩ := q
  -- on the path of the body: the container of the entity stands one body further out
  induction path generalizing member with
  | nil =>
    have hp : s.parent? member = none := by
      refine Option.eq_none_iff_forall_ne_some.2 fun c hc => ?_
      exact h.fresh.lastClosed_ne (Or.inr rfl) c ((h.parent?_eq_some_iff hq c).1 hc)
    rw [hp]
    exact ⟨0, .outside⟩
  | cons i path ih =>
    cases hp : s.parent? member with
    | none => exact ⟨0, .outside⟩
    | some c =>
      have hc := (h.parent?_eq_some_iff hq c).1 hp
      obtain ⟨_, body, hpath, hmem⟩ := mem_latest_of_lastClosed hvs hc
      cases hpath
      obtain ⟨x, hx, hparent⟩ := h.container?_toModel hp
      obtain ⟨n, hn⟩ := ih _ hmem
      rw [← hparent] at hn
      exact ⟨n + 1, .inside hx hn⟩

theorem SystemModel.depth_congr {m m' : SystemModel} (hm : m.containers = m'.containers)
    {o : Option Ident} {n : Nat} (h : m.Depth o n) : m'.Depth o n := by
  induction h with
  | outside => exact .outside
  | inside found rest ih =>
    unfold container? at found
    rw [hm] at found
    exact .inside found ih

theorem Program.exists_depth {options : ElaborationOptions} {p : Program} {m : SystemModel}
    (h : p.elaborate options = .ok m) {k : MemberKind} {x : Ident} {o : Option Ident}
    (hx : (x, o) ∈ m.entities k) : ∃ n, m.Depth o n := by
  obtain ⟨s, hs, he, hc⟩ := Program.exists_records h
  rw [he, Scope.mem_entities_toModel hs.keyed] at hx
  obtain ⟨hids, rfl⟩ := hx
  obtain ⟨q, hq, e⟩ := hs.exists_latest hids
  obtain ⟨n, hn⟩ := hs.exists_depth (closesBelow_visits p) hq
  rw [e] at hn
  exact ⟨n, SystemModel.depth_congr hc.symm hn⟩

/-- The containers of the model of a source are a forest: from every entity the outside is
reached, and no container is inside itself. The walk down from the containers outside ends
and meets every container once, and the actors outside and those that the containers of the
walk list are all actors, each once. -/
theorem compile_containers_forest {options : ElaborationOptions} {source : String}
    {m : SystemModel} (h : compile options source = .ok m) :
    (∀ k x o, (x, o) ∈ m.entities k → ∃ n, m.Depth o n) ∧
    (∀ c, ¬ Relation.TransGen m.Inside c c) ∧
    ∃ order, (∀ o, m.Walk (m.topLevelContainers.map Container.id) o ↔ o = order) ∧
      order.Perm (m.containers.values.map Container.id) ∧ order.Nodup ∧
      (m.topLevelActors.map Actor.id ++ order.flatMap (m.membersOf .actor)).Perm
        (m.actors.map Actor.id) ∧ (m.actors.map Actor.id).Nodup := by
  obtain ⟨_, p, _, _, hp⟩ := compile_eq_ok_iff.1 h
  have hm := Program.consistent hp
  have hd := fun k x o => @Program.exists_depth options p m hp k x o
  refine ⟨hd, ?_, ?_⟩
  · intro c hc
    obtain ⟨_, ⟨x, found, _⟩, _⟩ := Relation.TransGen.head'_iff.1 hc
    obtain ⟨n, hn⟩ := hd _ _ _ (hm.mem_entities_of_found found)
    exact (SystemModel.Depth.inside found hn).not_inside hc
  · obtain ⟨order, hw⟩ := hm.exists_walk
    rw [SystemModel.map_id_topLevelContainers, SystemModel.map_id_topLevelActors]
    have hactors := hm.ids .actor
    have hcovers := hm.walk_covers hd hw .actor
    have hperm := hm.walk_perm hd hw
    have hkeys := hm.ids .container
    simp only [SystemModel.entities, List.map_map] at hactors hcovers hkeys
    refine ⟨order, fun o => ⟨fun ho => ho.unique hw, fun ho => ho ▸ hw⟩, hperm, ?_, hcovers,
      hactors⟩
    exact hperm.nodup_iff.2 hkeys

/-- A source that declares two containers inside each other by turns. -/
def containersSwapped : String :=
  "container 'X' as x \x7b
     container 'Y' as y \x7b agent 'A' as a \x7d
     agent 'B' as b
   \x7d;
   container 'Y' as y \x7b
     container 'X' as x \x7b
       container 'Y' as y \x7b user 'D' as d \x7d
       agent 'B' as b
     \x7d
   \x7d;"

/-- The last declaration counts: one container is outside and holds the other. -/
theorem compile_containers_forest_swapped :
    ∃ m, compile .default containersSwapped = .ok m ∧
      m.entities .container = [("y", none), ("x", some "y")] ∧
      m.entities .actor = [("a", none), ("b", some "x"), ("d", none)] ∧
      (∀ k x o, (x, o) ∈ m.entities k → ∃ n, m.Depth o n) ∧
      (∀ c, ¬ Relation.TransGen m.Inside c c) ∧
      ∃ order, (∀ o, m.Walk (m.topLevelContainers.map Container.id) o ↔ o = order) ∧
        order.Perm (m.containers.values.map Container.id) ∧ order.Nodup ∧
        (m.topLevelActors.map Actor.id ++ order.flatMap (m.membersOf .actor)).Perm
          (m.actors.map Actor.id) ∧ (m.actors.map Actor.id).Nodup := by
  have hm : (compile .default containersSwapped).toOption.map
      (fun m => (m.entities .container, m.entities .actor)) =
      some ([("y", none), ("x", some "y")], [("a", none), ("b", some "x"), ("d", none)]) := by
    decide +kernel
  obtain ⟨m, h, hentities⟩ := exists_ok_of_toOption hm
  obtain ⟨hc, ha⟩ := Prod.mk.inj hentities
  exact ⟨m, h, hc, ha, compile_containers_forest h⟩

end ArchScript
