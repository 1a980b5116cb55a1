/-
  The comparison of models.

  `==` compares tables as maps and all else part by part. So every model equals itself, and two
  tables that have the same values under the same keys are equal, whatever the order of their
  keys (`Table.beq_of_get?`).
-/
import ArchScript.Model.System
import ArchScript.Proofs.Table

namespace ArchScript

namespace Table

variable {κ α : Type} [DecidableEq κ] [BEq α] [ReflBEq α]

/-- Tables with the same lookups are equal as maps. -/
theorem beq_of_get? {s t : Table κ α} (h : ∀ k, s.get? k = t.get? k) : (s == t) = true := by
  have hkeys : s.keys.Perm t.keys := by
    refine (List.perm_ext_iff_of_nodup s.nodup t.nodup).2 fun k => ?_
    exact mem_keys_iff.trans ((exists_congr fun v => by rw [h]).trans mem_keys_iff.symm)
  have hsize : s.size = t.size := by simpa [size, keys] using hkeys.length_eq
  have hentries : ∀ e ∈ s.entries, (t.get? e.1 == some e.2) = true := fun e he => by
    rw [← h, get?_eq_some_iff.2 he]
    exact BEq.rfl
  exact Bool.and_eq_true_iff.2 ⟨beq_iff_eq.2 hsize, List.all_eq_true.2 hentries⟩

instance : ReflBEq (Table κ α) where
  rfl := beq_of_get? fun _ => rfl

end Table

deriving instance ReflBEq for Actor
deriving instance ReflBEq for Channel
deriving instance ReflBEq for DataFlow
deriving instance ReflBEq for Annotation
deriving instance ReflBEq for Container

namespace SystemModel

/-- The second model is the first, except that its annotations may stand in another order. -/
structure Reordered (m n : SystemModel) : Prop where
  annotations : ∀ id, n.annotations.get? id = m.annotations.get? id
  rest : n = { m with annotations := n.annotations }

/-- The order of annotations does not count. -/
theorem Reordered.beq {m n : SystemModel} (h : m.Reordered n) : (m == n) = true := by
  have htable : (m.annotations == n.annotations) = true :=
    Table.beq_of_get? fun id => (h.annotations id).symm
  rw [h.rest]
  generalize n.annotations = annotations at htable
  obtain ⟨name, actors, channels, dataFlows, scenarios, own, containers⟩ := m
  change instBEqSystemModel.beq _ _ = true
  simp [instBEqSystemModel.beq, htable]

/-- Resolving annotations looks them up, whatever their order. -/
theorem Reordered.resolveAnnotations {m n : SystemModel} (h : m.Reordered n) :
    m.resolveAnnotations.Reordered n.resolveAnnotations := by
  have hresolve : resolveActor n.annotations = resolveActor m.annotations := by
    funext a
    simp only [resolveActor, h.annotations]
  have hactors : n.actors = m.actors := by rw [h.rest]
  have hrest := congrArg
    (fun x : SystemModel => { x with actors := m.actors.map (resolveActor m.annotations) }) h.rest
  refine ⟨h.annotations, ?_⟩
  rw [SystemModel.resolveAnnotations, hresolve, hactors]
  exact hrest

end SystemModel

end ArchScript
