/-
  The scope and the model of a program that goes on.

  No effect takes an id out of a table or moves one within it: an entity that is registered
  again, or moved to another body, keeps the place of its first registration (`Scope.Begins.apply`).
  A walk keeps what every effect keeps, so the ids of a scope stay first in every later scope
  (`Scope.begins_perform`). A program with more statements behind it fails as it did, and its
  model begins that of the longer program (`Program.elaborate_append`).
-/
import ArchScript.Proofs.Containment.Model

namespace ArchScript

/-! ## Scopes -/

/-- The second scope has what the first has, in the same order, and may have more behind it. -/
structure Scope.Begins (s t : Scope) : Prop where
  actors : s.actors.keys <+: t.actors.keys
  channels : s.channels.keys <+: t.channels.keys
  dataFlows : s.dataFlows.keys <+: t.dataFlows.keys
  annotations : s.annotations.keys <+: t.annotations.keys
  containers : s.containers.keys <+: t.containers.keys
  scenarios : s.scenarios <+: t.scenarios

namespace Scope.Begins

variable {s t u : Scope}

theorem refl (s : Scope) : s.Begins s where
  actors := List.prefix_refl _
  channels := List.prefix_refl _
  dataFlows := List.prefix_refl _
  annotations := List.prefix_refl _
  containers := List.prefix_refl _
  scenarios := List.prefix_refl _

theorem trans (h : s.Begins t) (h' : t.Begins u) : s.Begins u where
  actors := h.actors.trans h'.actors
  channels := h.channels.trans h'.channels
  dataFlows := h.dataFlows.trans h'.dataFlows
  annotations := h.annotations.trans h'.annotations
  containers := h.containers.trans h'.containers
  scenarios := h.scenarios.trans h'.scenarios

theorem registerChannel (s : Scope) (c : Channel) : s.Begins (s.registerChannel c) :=
  { refl s with channels := Table.keys_prefix_insert _ _ _ }

theorem registerDataFlow (s : Scope) (f : DataFlow) : s.Begins (s.registerDataFlow f) :=
  { refl s with dataFlows := Table.keys_prefix_insert _ _ _ }

theorem updateActor (s : Scope) (id : Ident) (f : Actor → Actor) :
    s.Begins (s.updateActor id f) := by
  unfold Scope.updateActor
  split
  · exact { refl s with actors := Table.keys_prefix_insert _ _ _ }
  · exact refl s

/-- An effect leaves the ids of a scope in front. -/
theorem apply (e : Effect) (s : Scope) : s.Begins (e.apply s) := by
  -- what moves to another place keeps its entry in the table of its kind
  cases e with
  | declareActor d => exact { refl s with actors := Table.keys_prefix_insert _ _ _ }
  | setNote target text => exact updateActor s target _
  | assign target refs => exact updateActor s target _
  | declareChannel c => exact registerChannel s c
  | useChannel c =>
    simp only [Effect.apply]
    split
    · exact refl s
    · exact registerChannel s c
  | declareFlow f => exact registerDataFlow s f
  | useFlow f =>
    simp only [Effect.apply]
    split
    · exact refl s
    · exact registerDataFlow s f
  | annotate d => exact { refl s with annotations := Table.keys_prefix_insert _ _ _ }
  | addScenario x => exact { refl s with scenarios := List.prefix_append _ _ }
  | openBody path head => exact { refl s with }
  | closeBody path head => exact { refl s with containers := Table.keys_prefix_insert _ _ _ }

end Scope.Begins

/-- A walk leaves the ids of the scope it starts from in front. -/
theorem Scope.begins_perform {policy : Redeclaration} {acts : List Act} {s t : Scope}
    (h : perform policy acts s = .ok t) : s.Begins t :=
  perform_preserves (fun e u _ hu => hu.trans (.apply e u)) h (.refl s)

/-! ## Models -/

/-- The second model has the ids and the scenarios of the first, in the same order, and may
have more behind them. -/
structure SystemModel.Begins (m n : SystemModel) : Prop where
  actors : m.actors.map Actor.id <+: n.actors.map Actor.id
  channels : m.channels.map Channel.id <+: n.channels.map Channel.id
  dataFlows : m.dataFlows.map DataFlow.id <+: n.dataFlows.map DataFlow.id
  annotations : m.annotations.keys <+: n.annotations.keys
  containers : m.containers.keys <+: n.containers.keys
  scenarios : m.scenarios <+: n.scenarios

namespace Scope.Keyed

variable {s : Scope}

theorem actors_toModel (h : s.Keyed) : s.toModel.actors.map Actor.id = s.actors.keys := by
  rw [← h.actors.map_values]
  exact List.map_map

theorem channels_toModel (h : s.Keyed) : s.toModel.channels.map Channel.id = s.channels.keys := by
  rw [← h.channels.map_values]
  exact List.map_map

theorem dataFlows_toModel (h : s.Keyed) :
    s.toModel.dataFlows.map DataFlow.id = s.dataFlows.keys := by
  rw [← h.dataFlows.map_values]
  exact List.map_map

end Scope.Keyed

theorem Scope.Begins.toModel {s t : Scope} (h : s.Begins t) (hs : s.Keyed) (ht : t.Keyed) :
    s.toModel.Begins t.toModel where
  actors := by
    rw [hs.actors_toModel, ht.actors_toModel]
    exact h.actors
  channels := by
    rw [hs.channels_toModel, ht.channels_toModel]
    exact h.channels
  dataFlows := by
    rw [hs.dataFlows_toModel, ht.dataFlows_toModel]
    exact h.dataFlows
  annotations := by
    simp only [Scope.toModel, Table.keys_mapValues]
    exact h.annotations
  containers := by
    simp only [Scope.toModel, Table.keys_mapValues]
    exact h.containers
  scenarios := h.scenarios

theorem SystemModel.Begins.resolveAnnotations {m n : SystemModel} (h : m.Begins n) :
    m.resolveAnnotations.Begins n.resolveAnnotations where
  actors := by
    have hids : ∀ m : SystemModel,
        m.resolveAnnotations.actors.map Actor.id = m.actors.map Actor.id := fun m => by
      rw [SystemModel.resolveAnnotations, List.map_map]
      exact List.map_congr_left fun a _ => see_resolveActor Actor.id (fun _ _ _ => rfl) _ a
    rw [hids, hids]
    exact h.actors
  channels := h.channels
  dataFlows := h.dataFlows
  annotations := h.annotations
  containers := h.containers
  scenarios := h.scenarios

/-! ## Programs -/

/-- The walk over two programs: that of the first, then that of the second. -/
theorem Program.perform_append (policy : Redeclaration) (p q : Program) :
    perform policy ((Program.visits (p ++ q)).map Visit.act) .empty =
      perform policy (p.visits.map Visit.act) .empty >>=
        perform policy ((visitsOf [] p.length q).map Visit.act) := by
  rw [visits, visitsOf_append, List.map_append, ArchScript.perform_append, Nat.zero_add]
  rfl

/-- A program that is wrong stays wrong in the same way, whatever is behind it. -/
theorem Program.elaborate_append_of_error {options : ElaborationOptions} {p : Program}
    {w : Violation} (h : p.elaborate options = .error w) (q : Program) :
    Program.elaborate options (p ++ q) = .error w := by
  rw [elaborate_eq_error_iff] at h ⊢
  rw [perform_append, h]
  rfl

/-- A program with a model has one without its last statements, and that model comes first. -/
theorem Program.elaborate_append {options : ElaborationOptions} {p q : Program} {n : SystemModel}
    (h : Program.elaborate options (p ++ q) = .ok n) :
    ∃ m, p.elaborate options = .ok m ∧ m.Begins n := by
  obtain ⟨t, ht, rfl⟩ := exists_scope h
  rw [perform_append] at ht
  obtain ⟨s, hs, hst⟩ := Reader.bind_eq_ok.1 ht
  have hkeyed := Scope.keyed_empty.perform hs
  have hbegins := (Scope.begins_perform hst).toModel hkeyed (hkeyed.perform hst)
  refine ⟨_, elaborate_of_perform options hs, ?_⟩
  split
  · exact hbegins.resolveAnnotations
  · exact hbegins

end ArchScript
