/-
  Elaborating a program is performing its walk.

  `elaborateAll_eq_perform`: on a scope whose entities stand under their own ids, elaborating
  statements and performing their visits give the same scope or the same violation. What a
  walk keeps follows from what every effect keeps (`perform_preserves`), so no later proof
  opens the recursion over the syntax tree again.
-/
import ArchScript.Program.Reader.Clause
import ArchScript.Proofs.Elaboration.Walk
import ArchScript.Proofs.Table

namespace ArchScript

open Elaboration

/-! ## Performing acts -/

theorem perform_append (policy : Redeclaration) (as bs : List Act) (s : Scope) :
    perform policy (as ++ bs) s = perform policy as s >>= perform policy bs := by
  induction as generalizing s with
  | nil => rfl
  | cons a as ih =>
    cases a with
    | check c =>
      simp only [List.cons_append, perform, ih, bind_assoc]
    | effect e =>
      simp only [List.cons_append, perform, ih]

/-- What every effect of the acts keeps, performing them keeps. -/
theorem perform_preserves {P : Scope → Prop} {policy : Redeclaration} {acts : List Act}
    (hstep : ∀ e s, Act.effect e ∈ acts → P s → P (e.apply s)) {s s' : Scope}
    (h : perform policy acts s = .ok s') (hs : P s) : P s' := by
  induction acts generalizing s with
  | nil =>
    cases h
    exact hs
  | cons a acts ih =>
    have ih' := fun {s} => @ih (fun e s he => hstep e s (List.mem_cons_of_mem a he)) s
    cases a with
    | check c =>
      simp only [perform, Reader.bind_eq_ok] at h
      obtain ⟨_, _, h⟩ := h
      exact ih' h hs
    | effect e => exact ih' h (hstep e s List.mem_cons_self hs)

/-! ## Violations in other words -/

section

variable {α β : Type} {g : Violation → Violation} {r r' : Except Violation α}

/-- Runs whose violations differ by `g` still do when they go on alike. -/
theorem bind_eq_mapError {k k' : α → Except Violation β} (hr : r' = r.mapError g)
    (hk : ∀ a, k' a = (k a).mapError g) : (r' >>= k') = (r >>= k).mapError g := by
  subst hr
  cases r with
  | error w => rfl
  | ok a => exact hk a

theorem map_eq_mapError (hr : r' = r.mapError g) (k : α → β) :
    r'.map k = (r.map k).mapError g := by
  subst hr
  cases r <;> rfl

end

/-! ## Acts in other words -/

/-- Where every check and every effect goes along with a change of scopes, performing does. -/
theorem perform_along {policy : Redeclaration} {act : Act → Act} {check : Check → Check}
    {effect : Effect → Effect} {scope : Scope → Scope} {g : Violation → Violation}
    (hcheck : ∀ c, act (.check c) = .check (check c))
    (heffect : ∀ e, act (.effect e) = .effect (effect e)) {acts : List Act}
    (htest : ∀ c s, Act.check c ∈ acts →
      (check c).test policy (scope s) = (c.test policy s).mapError g)
    (happly : ∀ e s, Act.effect e ∈ acts → (effect e).apply (scope s) = scope (e.apply s))
    (s : Scope) :
    perform policy (acts.map act) (scope s) =
      match perform policy acts s with
      | .ok s' => .ok (scope s')
      | .error w => .error (g w) := by
  induction acts generalizing s with
  | nil => rfl
  | cons a acts ih =>
    have ih' := ih (fun c s hc => htest c s (List.mem_cons_of_mem a hc))
      (fun e s he => happly e s (List.mem_cons_of_mem a he))
    cases a with
    | check c =>
      rw [List.map_cons, hcheck, perform, perform, htest c s List.mem_cons_self]
      cases c.test policy s with
      | error w => rfl
      | ok u => exact ih' s
    | effect e =>
      rw [List.map_cons, heffect, perform, perform, happly e s List.mem_cons_self]
      exact ih' (e.apply s)

/-! ## Entities under their own ids -/

/-- Every entity of the scope stands under its own id. -/
structure Scope.Keyed (s : Scope) : Prop where
  actors : s.actors.Keyed Actor.id
  channels : s.channels.Keyed Channel.id
  dataFlows : s.dataFlows.Keyed DataFlow.id
  annotations : s.annotations.Keyed Annotation.id
  containers : s.containers.Keyed Container.id

namespace Scope

theorem keyed_empty : empty.Keyed where
  actors := Table.keyed_empty _
  channels := Table.keyed_empty _
  dataFlows := Table.keyed_empty _
  annotations := Table.keyed_empty _
  containers := Table.keyed_empty _

variable {s : Scope}

theorem Keyed.registerActor (h : s.Keyed) (a : Actor) (span : Span) :
    (s.registerActor a span).Keyed :=
  { h with actors := h.actors.insert a }

theorem Keyed.registerChannel (h : s.Keyed) (c : Channel) : (s.registerChannel c).Keyed :=
  { h with channels := h.channels.insert c }

theorem Keyed.registerDataFlow (h : s.Keyed) (f : DataFlow) : (s.registerDataFlow f).Keyed :=
  { h with dataFlows := h.dataFlows.insert f }

theorem Keyed.registerAnnotation (h : s.Keyed) (a : Annotation) (span : Span) :
    (s.registerAnnotation a span).Keyed :=
  { h with annotations := h.annotations.insert a }

theorem Keyed.updateActor (h : s.Keyed) (id : Ident) (f : Actor → Actor) :
    (s.updateActor id f).Keyed := by
  unfold Scope.updateActor
  split
  · exact { h with actors := h.actors.insert _ }
  · exact h

theorem Keyed.closeBody (h : s.Keyed) (id : Ident) (name : String) :
    (s.closeBody id name).Keyed :=
  { h with containers := h.containers.insert (.defined id name _) }

theorem Keyed.apply (h : s.Keyed) (e : Effect) : (e.apply s).Keyed := by
  cases e with
  | declareActor d => exact h.registerActor _ _
  | setNote target text => exact h.updateActor _ _
  | assign target refs => exact h.updateActor _ _
  | declareChannel c => exact h.registerChannel c
  | useChannel c =>
    simp only [Effect.apply]
    split
    · exact h
    · exact h.registerChannel c
  | declareFlow f => exact h.registerDataFlow f
  | useFlow f =>
    simp only [Effect.apply]
    split
    · exact h
    · exact h.registerDataFlow f
  | annotate d => exact h.registerAnnotation _ _
  | addScenario x => exact { h with }
  | openBody path head => exact { h with }
  | closeBody path head => exact h.closeBody _ _

theorem Keyed.perform (h : s.Keyed) {policy : Redeclaration} {acts : List Act} {s' : Scope}
    (hr : ArchScript.perform policy acts s = .ok s') : s'.Keyed :=
  perform_preserves (fun e _ _ hs => hs.apply e) hr h

end Scope

/-! ## Ends -/

variable {s : Scope}

theorem actor_id (h : s.Keyed) {ref : Spanned Ident} {a : Actor} (ha : actor s ref = .ok a) :
    s.actors.get? ref.value = some a ∧ a.id = ref.value := by
  unfold actor at ha
  split at ha
  · next b hb =>
    cases ha
    exact ⟨hb, h.actors _ _ hb⟩
  · split at ha <;> cases ha

/-- The end of a channel or data flow is the id that is written there, and so is the id that is
quoted of an actor of the wrong kind. -/
theorem activeEnd_eq (h : s.Keyed) (policy : Redeclaration) (role : EndRole)
    (ref : Spanned Ident) :
    activeEnd s role ref = (Check.active role ref).test policy s >>= fun _ => .ok ref.value := by
  rw [activeEnd, Check.test]
  cases ha : actor s ref with
  | error v => rfl
  | ok a =>
    simp only [bind, Except.bind, (actor_id h ha).2]
    split <;> rfl

theorem storeEnd_eq (h : s.Keyed) (policy : Redeclaration) (role : EndRole)
    (ref : Spanned Ident) :
    storeEnd s role ref = (Check.store role ref).test policy s >>= fun _ => .ok ref.value := by
  rw [storeEnd, Check.test]
  cases ha : actor s ref with
  | error v => rfl
  | ok a =>
    simp only [bind, Except.bind, (actor_id h ha).2]
    split <;> rfl

theorem perform_channelChecks (h : s.Keyed) (policy : Redeclaration) (source target : Spanned Ident)
    (acts : List Act) :
    perform policy (channelChecks source target ++ acts) s =
      channelEnds s source target >>= fun _ => perform policy acts s := by
  unfold channelEnds
  rw [activeEnd_eq h policy, activeEnd_eq h policy]
  simp only [channelChecks, List.cons_append, List.nil_append, perform, bind_assoc]
  rfl

/-- Two checks in a row give the ids that are written there. -/
theorem ends_ok {t₁ t₂ : Except Violation Unit} {x y : Ident} {ends : Ident × Ident}
    (h : ((t₁ >>= fun _ => .ok x) >>= fun a => (t₂ >>= fun _ => .ok y) >>= fun b => .ok (a, b)) =
      .ok ends) : ends = (x, y) := by
  simp only [Reader.bind_eq_ok] at h
  obtain ⟨_, ⟨_, _, h₁⟩, _, ⟨_, _, h₂⟩, h₃⟩ := h
  cases h₁
  cases h₂
  cases h₃
  rfl

theorem channelEnds_ok (h : s.Keyed) {source target : Spanned Ident} {ends : Ident × Ident}
    (he : channelEnds s source target = .ok ends) : ends = (source.value, target.value) := by
  unfold channelEnds at he
  rw [activeEnd_eq h .replace, activeEnd_eq h .replace] at he
  exact ends_ok he

theorem perform_flowChecks (h : s.Keyed) (policy : Redeclaration) (kind : FlowKind)
    (left right : Spanned Ident) (acts : List Act) :
    perform policy (flowChecks kind left right ++ acts) s =
      flowEnds s kind left right >>= fun _ => perform policy acts s := by
  cases kind with
  | read =>
    simp only [flowEnds, flowChecks]
    rw [activeEnd_eq h policy, storeEnd_eq h policy]
    simp only [List.cons_append, List.nil_append, perform, bind_assoc]
    rfl
  | write =>
    simp only [flowEnds, flowChecks]
    rw [activeEnd_eq h policy, storeEnd_eq h policy]
    simp only [List.cons_append, List.nil_append, perform, bind_assoc]
    rfl

theorem flowEnds_ok (h : s.Keyed) {kind : FlowKind} {left right : Spanned Ident}
    {ends : Ident × Ident} (he : flowEnds s kind left right = .ok ends) :
    ends = (left.value, right.value) := by
  unfold flowEnds at he
  rw [activeEnd_eq h .replace, storeEnd_eq h .replace, activeEnd_eq h .replace,
    storeEnd_eq h .replace] at he
  cases kind with
  | read => exact ends_ok he
  | write => exact ends_ok he

/-! ## Statements -/

/-- A change of an actor that is referred to. -/
theorem actor_bind_setActor (policy : Redeclaration) (s : Scope) (ref : Spanned Ident)
    (f : Actor → Actor) :
    (actor s ref >>= fun a => .ok (s.setActor (f a))) =
      (Check.known ref).test policy s >>= fun _ => .ok (s.updateActor ref.value f) := by
  simp only [Check.test, Scope.updateActor, actor]
  cases s.actors.get? ref.value with
  | none => cases s.containers.contains ref.value <;> rfl
  | some a => rfl

theorem elaborateNote_eq (policy : Redeclaration) (d : NoteDecl) (s : Scope) :
    elaborateNote d s = perform policy d.acts s :=
  actor_bind_setActor policy s d.target fun a => a.withNote d.text.value

theorem elaborateAssignment_eq (policy : Redeclaration) (d : Assignment) (s : Scope) :
    elaborateAssignment d s = perform policy d.acts s :=
  actor_bind_setActor policy s d.target fun a =>
    a.withAnnotations (d.annotations.map Spanned.value)

theorem elaborateCall_eq (h : s.Keyed) (policy : Redeclaration) (d : Call) :
    elaborateCall d s = perform policy d.acts s := by
  unfold elaborateCall Call.acts
  rw [perform_channelChecks h]
  cases he : channelEnds s d.source d.target with
  | error v => rfl
  | ok ends =>
    rw [channelEnds_ok h he]
    rfl

theorem elaborateFlow_eq (h : s.Keyed) (policy : Redeclaration) (d : ArchScript.Flow) :
    elaborateFlow d s = perform policy d.acts s := by
  unfold elaborateFlow Flow.acts
  rw [perform_flowChecks h]
  cases he : flowEnds s d.kind d.left d.right with
  | error v => rfl
  | ok ends =>
    rw [flowEnds_ok h he]
    rfl

/-! ## Scenarios -/

theorem elaborateStep_eq (h : s.Keyed) (policy : Redeclaration) (x : Spanned StepDecl) :
    elaborateStep x s = (perform policy (stepActs x) s).map fun s' => (x.value.toStep, s') := by
  obtain ⟨x, span⟩ := x
  cases x with
  | request kind source target message =>
    simp only [elaborateStep, stepActs]
    rw [perform_channelChecks h]
    cases he : channelEnds s source target with
    | error v => rfl
    | ok ends =>
      rw [channelEnds_ok h he]
      rfl
  | response requester responder message =>
    simp only [elaborateStep, stepActs]
    rw [perform_channelChecks h]
    cases he : channelEnds s requester responder with
    | error v => rfl
    | ok ends =>
      rw [channelEnds_ok h he]
      simp only [bind, Except.bind, perform, Check.test]
      split <;> rfl
  | transfer kind left right message =>
    simp only [elaborateStep, stepActs]
    rw [perform_flowChecks h]
    cases he : flowEnds s kind left right with
    | error v => rfl
    | ok ends =>
      rw [flowEnds_ok h he]
      rfl

theorem elaborateSteps_eq (h : s.Keyed) (policy : Redeclaration) (xs : List (Spanned StepDecl)) :
    elaborateSteps xs s = (perform policy (xs.flatMap stepActs) s).map fun s' =>
      (xs.map fun x => x.value.toStep, s') := by
  induction xs generalizing s with
  | nil => rfl
  | cons x xs ih =>
    rw [elaborateSteps, elaborateStep_eq h policy, List.flatMap_cons, perform_append]
    cases hx : perform policy (stepActs x) s with
    | error v => rfl
    | ok s₁ =>
      simp only [Except.map, bind, Except.bind]
      rw [ih (h.perform hx)]
      cases perform policy (xs.flatMap stepActs) s₁ <;> rfl

theorem elaborateScenario_eq (h : s.Keyed) (policy : Redeclaration) (d : ScenarioDef) :
    elaborateScenario d s = perform policy d.acts s := by
  unfold elaborateScenario ScenarioDef.acts
  rw [elaborateSteps_eq h policy, perform_append]
  cases perform policy (d.steps.flatMap stepActs) s <;> rfl

/-! ## Programs -/

theorem elaborate_flat_eq (h : s.Keyed) (policy : Redeclaration) {x : Statement}
    (hx : x.IsFlat) : elaborate policy x s = perform policy x.acts s := by
  cases x with
  | actor d => rfl
  | note d => exact elaborateNote_eq policy d s
  | assignment d => exact elaborateAssignment_eq policy d s
  | call d => exact elaborateCall_eq h policy d
  | flow d => exact elaborateFlow_eq h policy d
  | «annotation» d => rfl
  | scenario d => exact elaborateScenario_eq h policy d
  | container head inner => exact hx.elim

/-- Elaborating statements is performing their visits, wherever they stand. -/
theorem elaborateAll_eq_perform (policy : Redeclaration) (xs : List (Spanned Statement)) (s : Scope)
    (h : s.Keyed) (body : BodyPath) (i : Nat) :
    elaborateAll policy xs s = perform policy ((visitsOf body i xs).map Visit.act) s := by
  induction xs using Program.induction generalizing s body i with
  | nil => rfl
  | flat x span xs hx ih =>
    rw [elaborateAll, visitsOf_flat hx, List.map_append, perform_append, map_act_map_mk,
      elaborate_flat_eq h policy hx]
    cases hr : perform policy x.acts s with
    | error v => rfl
    | ok s₁ => exact ih s₁ (h.perform hr) body (i + 1)
  | container head inner span xs ih₁ ih₂ =>
    rw [elaborateAll, elaborate, visitsOf_container]
    simp only [List.map_cons, List.map_append, perform, Check.test, Effect.apply, bind_assoc]
    refine bind_congr fun _ => ?_
    have ho : (s.openBody head.id.value head.id.span).Keyed := { h with }
    rw [perform_append, ih₁ _ ho (i :: body) 0]
    cases hr : perform policy ((visitsOf (i :: body) 0 inner).map Visit.act)
        (s.openBody head.id.value head.id.span) with
    | error v => rfl
    | ok s₁ => exact ih₂ _ ((ho.perform hr).closeBody _ _) body (i + 1)

/-- The model of a program comes from the scope at the end of its walk. -/
theorem Program.elaborate_eq_perform (options : ElaborationOptions) (p : Program) :
    p.elaborate options =
      (perform options.redeclaration (p.visits.map Visit.act) .empty).map fun s =>
        if options.resolveAnnotations then s.toModel.resolveAnnotations else s.toModel := by
  unfold Program.elaborate Program.visits
  rw [elaborateAll_eq_perform _ _ _ Scope.keyed_empty [] 0]
  rfl

/-- A model is that of the scope at the end of the walk, with its annotations resolved or not. -/
theorem Program.exists_scope {options : ElaborationOptions} {p : Program} {m : SystemModel}
    (h : p.elaborate options = .ok m) :
    ∃ s, perform options.redeclaration (p.visits.map Visit.act) .empty = .ok s ∧
      m = if options.resolveAnnotations then s.toModel.resolveAnnotations else s.toModel := by
  rw [Program.elaborate_eq_perform] at h
  cases hs : perform options.redeclaration (p.visits.map Visit.act) .empty with
  | error v =>
    rw [hs] at h
    cases h
  | ok s =>
    rw [hs] at h
    cases h
    exact ⟨s, rfl, rfl⟩

theorem Program.elaborate_of_perform (options : ElaborationOptions) {p : Program} {s : Scope}
    (h : perform options.redeclaration (p.visits.map Visit.act) .empty = .ok s) :
    p.elaborate options =
      .ok (if options.resolveAnnotations then s.toModel.resolveAnnotations else s.toModel) := by
  rw [Program.elaborate_eq_perform, h]
  rfl

/-- A program is elaborated to the violation of its walk. -/
theorem Program.elaborate_eq_error_iff {options : ElaborationOptions} {p : Program}
    {w : Violation} : p.elaborate options = .error w ↔
      perform options.redeclaration (p.visits.map Visit.act) .empty = .error w := by
  rw [Program.elaborate_eq_perform]
  cases perform options.redeclaration (p.visits.map Visit.act) .empty <;> simp [Except.map]

end ArchScript
