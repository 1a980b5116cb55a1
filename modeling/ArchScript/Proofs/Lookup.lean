/-
  Lookups in a finished model.

  The ids of a kind are distinct (`Program.nodup_ids`), so a lookup finds exactly the entity
  that has the id (`find?_id_iff`). The kind of an actor is that of its last declaration
  (`Program.kind?_eq`).
-/
import ArchScript.Proofs.Checking.Policies
import ArchScript.Proofs.Containment.Model

namespace ArchScript

/-- With distinct ids a lookup finds the value of the id and no other. -/
theorem find?_id_iff {α : Type} {id : α → Ident} {l : List α} (hl : (l.map id).Nodup) {x : Ident}
    {v : α} : l.find? (fun w => id w == x) = some v ↔ v ∈ l ∧ id v = x := by
  induction l with
  | nil => simp
  | cons w l ih =>
    obtain ⟨hw, hl⟩ := List.nodup_cons.1 hl
    rw [List.find?_cons]
    by_cases hx : id w = x
    · -- the head has the id, so no other value has it
      have hout : ∀ u ∈ l, id u ≠ x := by
        rintro u hu rfl
        exact hw (hx ▸ List.mem_map_of_mem hu)
      simp only [hx, beq_self_eq_true, Option.some.injEq, List.mem_cons]
      constructor
      · rintro rfl
        exact ⟨Or.inl rfl, hx⟩
      · rintro ⟨rfl | hv, e⟩
        · rfl
        · exact (hout v hv e).elim
    · have hne : (id w == x) = false := beq_eq_false_iff_ne.2 hx
      simp only [hne, ih hl, List.mem_cons]
      constructor
      · rintro ⟨hv, e⟩
        exact ⟨Or.inr hv, e⟩
      · rintro ⟨rfl | hv, e⟩
        · exact (hx e).elim
        · exact ⟨hv, e⟩

namespace SystemModel

/-- The kind of the actor with the id `x`. -/
def kind? (m : SystemModel) (x : Ident) : Option ActorKind := (m.actor? x).map Actor.kind

theorem kind?_eq_some_iff {m : SystemModel} (hm : (m.actors.map Actor.id).Nodup) {x : Ident}
    {k : ActorKind} :
    m.kind? x = some k ↔ (x, k) ∈ m.actors.map fun a => (a.id, a.kind) := by
  unfold kind? actor?
  simp only [Option.map_eq_some_iff, find?_id_iff hm, List.mem_map, Prod.mk.injEq, and_assoc]

end SystemModel

namespace Program

variable {p : Program} {options : ElaborationOptions} {m : SystemModel}

theorem nodup_actor_ids (h : p.elaborate options = .ok m) : (m.actors.map Actor.id).Nodup := by
  have hids := (consistent h).ids .actor
  rw [SystemModel.entities, List.map_map] at hids
  exact hids

theorem nodup_channel_ids (h : p.elaborate options = .ok m) :
    (m.channels.map Channel.id).Nodup := by
  have hids := (consistent h).ids .channel
  rw [SystemModel.entities, List.map_map] at hids
  exact hids

theorem nodup_dataFlow_ids (h : p.elaborate options = .ok m) :
    (m.dataFlows.map DataFlow.id).Nodup := by
  have hids := (consistent h).ids .dataFlow
  rw [SystemModel.entities, List.map_map] at hids
  exact hids

/-- A lookup finds the kind that the program declared last. -/
theorem kind?_eq (hn : p.WellNamed) (h : p.elaborate options = .ok m) (x : Ident) :
    m.kind? x = kindOf p.visits x := by
  obtain ⟨s, hs, hmodel⟩ := exists_scope h
  have hknows := (hn.passed hs).knows
  have hactors : m.actors.map (fun a => (a.id, a.kind)) =
      s.actors.values.map fun a => (a.id, a.kind) := by
    rw [hmodel]
    split
    · simp only [SystemModel.resolveAnnotations, Scope.toModel, List.map_map]
      exact List.map_congr_left fun a _ =>
        see_resolveActor (fun a => (a.id, a.kind)) (fun _ _ _ => rfl) _ _
    · simp only [Scope.toModel, List.map_map]
      rfl
  rw [List.nil_append] at hknows
  rw [← hknows.kinds]
  refine Option.ext fun k => ?_
  rw [SystemModel.kind?_eq_some_iff (nodup_actor_ids h), hactors]
  simp only [Option.map_eq_some_iff, hknows.keyed.actors.get?_eq_some_iff, List.mem_map,
    Prod.mk.injEq, and_assoc]

end Program

end ArchScript
