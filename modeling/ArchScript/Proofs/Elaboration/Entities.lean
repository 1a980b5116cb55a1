/-
  The entities of a scope: an effect adds the one that it places and takes away none.

  `Scope.ids` lists the ids of a kind, `Effect.placed?` tells what an effect registers, and
  `Scope.mem_ids_apply` puts the two together for all effects at once.
-/
import ArchScript.Proofs.Elaboration.Perform

namespace ArchScript

/-! ## What effects register -/

/-- What an effect registers. -/
def Effect.placed? : Effect → Option Member
  | declareActor d => some ⟨.actor, d.id.value⟩
  | declareChannel c => some ⟨.channel, c.id⟩
  | useChannel c => some ⟨.channel, c.id⟩
  | declareFlow f => some ⟨.dataFlow, f.id⟩
  | useFlow f => some ⟨.dataFlow, f.id⟩
  | annotate d => some ⟨MemberKind.annotation, d.id.value⟩
  | closeBody _ head => some ⟨.container, head.id.value⟩
  | setNote _ _ => none
  | assign _ _ => none
  | addScenario _ => none
  | openBody _ _ => none

/-- A container is placed where its body is closed, and nowhere else. -/
theorem Effect.placed?_container {e : Effect} {c : Ident}
    (h : e.placed? = some ⟨.container, c⟩) :
    ∃ path head, e = .closeBody path head ∧ head.id.value = c := by
  cases e with
  | closeBody path head =>
    cases h
    exact ⟨path, head, rfl, rfl⟩
  | _ => cases h

/-! ## Ids of a kind -/

/-- The ids that a scope has of a kind. -/
def Scope.ids (s : Scope) : MemberKind → List Ident
  | .actor => s.actors.keys
  | .channel => s.channels.keys
  | .dataFlow => s.dataFlows.keys
  | MemberKind.annotation => s.annotations.keys
  | .container => s.containers.keys

theorem Scope.mem_ids_updateActor {s : Scope} (h : s.Keyed) (target : Ident) (f : Actor → Actor)
    (hf : ∀ a, (f a).id = a.id) (m : Member) :
    m.id ∈ (s.updateActor target f).ids m.kind ↔ m.id ∈ s.ids m.kind := by
  unfold Scope.updateActor
  split
  · next a ha =>
    have hid : (f a).id ∈ s.actors.keys := by
      rw [hf a, h.actors target a ha]
      exact Table.mem_keys_iff.2 ⟨a, ha⟩
    obtain ⟨kind, id⟩ := m
    cases kind with
    | actor =>
      simp only [Scope.ids, Scope.setActor, Table.mem_keys_insert]
      constructor
      · rintro (rfl | hm)
        · exact hid
        · exact hm
      · exact Or.inr
    | _ => rfl
  · rfl

theorem Scope.mem_ids_registerActor (s : Scope) (a : Actor) (span : Span) (m : Member) :
    m.id ∈ (s.registerActor a span).ids m.kind ↔
      some ⟨.actor, a.id⟩ = some m ∨ m.id ∈ s.ids m.kind := by
  obtain ⟨kind, id⟩ := m
  cases kind <;>
    simp [Scope.ids, registerActor, moveHere, noteDefinition, Table.mem_keys_insert, eq_comm]

theorem Scope.mem_ids_registerChannel (s : Scope) (c : Channel) (m : Member) :
    m.id ∈ (s.registerChannel c).ids m.kind ↔
      some ⟨.channel, c.id⟩ = some m ∨ m.id ∈ s.ids m.kind := by
  obtain ⟨kind, id⟩ := m
  cases kind <;> simp [Scope.ids, registerChannel, moveHere, Table.mem_keys_insert, eq_comm]

theorem Scope.mem_ids_registerDataFlow (s : Scope) (f : DataFlow) (m : Member) :
    m.id ∈ (s.registerDataFlow f).ids m.kind ↔
      some ⟨.dataFlow, f.id⟩ = some m ∨ m.id ∈ s.ids m.kind := by
  obtain ⟨kind, id⟩ := m
  cases kind <;> simp [Scope.ids, registerDataFlow, moveHere, Table.mem_keys_insert, eq_comm]

theorem Scope.mem_ids_registerAnnotation (s : Scope) (a : Annotation) (span : Span)
    (m : Member) :
    m.id ∈ (s.registerAnnotation a span).ids m.kind ↔
      some ⟨MemberKind.annotation, a.id⟩ = some m ∨ m.id ∈ s.ids m.kind := by
  obtain ⟨kind, id⟩ := m
  cases kind <;>
    simp [Scope.ids, registerAnnotation, moveHere, noteDefinition, Table.mem_keys_insert, eq_comm]

theorem Scope.mem_ids_closeBody (s : Scope) (id : Ident) (name : String) (m : Member) :
    m.id ∈ (s.closeBody id name).ids m.kind ↔
      some ⟨.container, id⟩ = some m ∨ m.id ∈ s.ids m.kind := by
  obtain ⟨kind, id'⟩ := m
  cases kind <;> simp [Scope.ids, closeBody, moveHere, Table.mem_keys_insert, eq_comm]

/-- An effect adds the entity that it places and takes away none. -/
theorem Scope.mem_ids_apply {s : Scope} (h : s.Keyed) (e : Effect) (m : Member) :
    m.id ∈ (e.apply s).ids m.kind ↔ e.placed? = some m ∨ m.id ∈ s.ids m.kind := by
  cases e with
  | declareActor d => exact mem_ids_registerActor s d.toActor d.id.span m
  | declareChannel c => exact mem_ids_registerChannel s c m
  | declareFlow f => exact mem_ids_registerDataFlow s f m
  | annotate d => exact mem_ids_registerAnnotation s d.toAnnotation d.id.span m
  | closeBody path head => exact mem_ids_closeBody s head.id.value head.name.value m
  | useChannel c =>
    simp only [Effect.apply]
    split
    · next hc =>
      refine (or_iff_right_of_imp ?_).symm
      rintro ⟨⟩
      exact Table.contains_iff.1 hc
    · exact mem_ids_registerChannel s c m
  | useFlow f =>
    simp only [Effect.apply]
    split
    · next hf =>
      refine (or_iff_right_of_imp ?_).symm
      rintro ⟨⟩
      exact Table.contains_iff.1 hf
    · exact mem_ids_registerDataFlow s f m
  | setNote target text =>
    simp only [Effect.placed?, reduceCtorEq, false_or]
    exact mem_ids_updateActor h target (·.withNote text) (fun _ => rfl) m
  | assign target refs =>
    simp only [Effect.placed?, reduceCtorEq, false_or]
    exact mem_ids_updateActor h target (·.withAnnotations refs) (fun _ => rfl) m
  | addScenario x =>
    simp only [Effect.placed?, reduceCtorEq, false_or]
    rfl
  | openBody path head =>
    simp only [Effect.placed?, reduceCtorEq, false_or]
    rfl

end ArchScript
