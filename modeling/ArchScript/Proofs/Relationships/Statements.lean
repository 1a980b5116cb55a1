/-
  What a program says of relationships and scenarios, in source order.

  `leavesOf` lists the statements of a program depth first, those in containers where the
  container stands. What a walk mentions is what these statements mention
  (`channelMentions_visits`, `flowMentions_visits`, `scenarios_visits`), so the meaning of a
  program can be told by its syntax tree alone.
-/
import ArchScript.Proofs.Names.Program
import ArchScript.Proofs.Relationships.Mentions
import Mathlib.Data.List.Basic

namespace ArchScript

/-! ## Statements in source order -/

mutual

/-- A statement, or the statements inside a container. -/
def Statement.leaves : Statement → List Statement
  | .container _ body => leavesOf body
  | x => [x]

/-- The statements of a program that hold no others, depth first. -/
def leavesOf : List (Spanned Statement) → List Statement
  | [] => []
  | ⟨x, _⟩ :: xs => x.leaves ++ leavesOf xs

end

theorem leavesOf_flat {x : Statement} (h : x.IsFlat) (span : Span)
    (xs : List (Spanned Statement)) : leavesOf (⟨x, span⟩ :: xs) = x :: leavesOf xs := by
  cases x with
  | container head body => exact h.elim
  | _ => rfl

theorem leavesOf_append (xs ys : List (Spanned Statement)) :
    leavesOf (xs ++ ys) = leavesOf xs ++ leavesOf ys := by
  induction xs with
  | nil => rfl
  | cons x xs ih => rw [List.cons_append, leavesOf, leavesOf, ih, List.append_assoc]

/-- The act belongs to a container and not to a statement in it. -/
def Act.ofContainer : Act → Bool
  | .check (.unused .container _) => true
  | .effect (.openBody _ _) => true
  | .effect (.closeBody _ _) => true
  | _ => false

theorem Act.Relates.ofContainer {a : Act} (h : a.Relates) : a.ofContainer = false := by
  cases a with
  | check c =>
    cases c with
    | unused what ref => cases h
    | _ => rfl
  | effect e =>
    cases e with
    | openBody path head => cases h
    | closeBody path head => cases h
    | _ => rfl

theorem ofContainer_acts (x : Statement) : ∀ a ∈ x.acts, a.ofContainer = false := by
  cases x with
  | call d => exact fun a ha => (d.relates_acts a ha).ofContainer
  | flow d => exact fun a ha => (d.relates_acts a ha).ofContainer
  | scenario d => exact fun a ha => (d.relates_acts a ha).ofContainer
  | _ =>
    simp [Statement.acts, ActorDecl.acts, NoteDecl.acts, Assignment.acts, AnnotationDef.acts,
      Act.ofContainer]

/-- Without the acts of containers a walk is the acts of the statements in source order. -/
theorem filter_visitsOf (xs : List (Spanned Statement)) (body : BodyPath) (i : Nat) :
    ((visitsOf body i xs).map Visit.act).filter (!·.ofContainer) =
      (leavesOf xs).flatMap Statement.acts := by
  induction xs using Program.induction generalizing body i with
  | nil => rfl
  | flat x span xs hx ih =>
    have hacts : x.acts.filter (!·.ofContainer) = x.acts := by
      refine List.filter_eq_self.2 fun a ha => ?_
      rw [ofContainer_acts x a ha]
      rfl
    rw [visitsOf_flat hx, leavesOf_flat hx, List.map_append, map_act_map_mk, List.filter_append,
      hacts, ih, List.flatMap_cons]
  | container head inner span xs ih₁ ih₂ =>
    rw [visitsOf_container, leavesOf, Statement.leaves, List.flatMap_append, ← ih₁ (i :: body) 0,
      ← ih₂ body (i + 1)]
    simp [Act.ofContainer]

/-- What is seen of a walk is what is seen of the statements, when nothing is seen of the
acts of containers. -/
theorem filterMap_visits {β : Type} {see : Act → Option β}
    (hsee : ∀ a, a.ofContainer = true → see a = none) (p : Program) :
    (p.visits.map Visit.act).filterMap see =
      (leavesOf p).flatMap fun x => x.acts.filterMap see := by
  rw [← List.filterMap_flatMap, ← filter_visitsOf p [] 0, List.filterMap_filter]
  refine List.filterMap_congr fun a _ => ?_
  cases ha : a.ofContainer with
  | true => exact hsee a ha
  | false => rfl

/-- What a statement does is done in the walk. -/
theorem mem_acts_visits {p : Program} {x : Statement} (hx : x ∈ leavesOf p) {a : Act}
    (ha : a ∈ x.acts) : a ∈ p.visits.map Visit.act := by
  have hmem : a ∈ (leavesOf p).flatMap Statement.acts := List.mem_flatMap.2 ⟨x, hx, ha⟩
  rw [← filter_visitsOf p [] 0] at hmem
  exact (List.mem_filter.1 hmem).1

/-! ## Mentions of a program -/

/-- The channel that a step uses. -/
def StepDecl.channel? : StepDecl → Option Channel
  | request kind source target _ => some (.declared kind source.value target.value "")
  | _ => none

/-- The data flow that a step uses. -/
def StepDecl.flow? : StepDecl → Option DataFlow
  | transfer kind left right _ => some (.declared kind left.value right.value)
  | _ => none

/-- The channel that a call declares. -/
def Call.toChannel (d : Call) : Channel :=
  .declared d.kind d.source.value d.target.value (Elaboration.textOrEmpty d.text)

/-- The data flow that a statement declares. -/
def Flow.toFlow (d : ArchScript.Flow) : DataFlow := .declared d.kind d.left.value d.right.value

namespace Statement

/-- The channels that a call declares or the steps of a scenario use, in order. -/
def channelMentions : Statement → List (Mention Channel)
  | call d => [.declares d.toChannel]
  | scenario d => (d.steps.filterMap fun x => x.value.channel?).map .uses
  | _ => []

/-- The data flows that a statement declares or the steps of a scenario use, in order. -/
def flowMentions : Statement → List (Mention DataFlow)
  | flow d => [.declares d.toFlow]
  | scenario d => (d.steps.filterMap fun x => x.value.flow?).map .uses
  | _ => []

def scenario? : Statement → Option ScenarioDef
  | scenario d => some d
  | _ => none

end Statement

namespace Program

/-- The channels that a program mentions, in source order. -/
def channelMentions (p : Program) : List (Mention Channel) :=
  (leavesOf p).flatMap Statement.channelMentions

/-- The data flows that a program mentions, in source order. -/
def flowMentions (p : Program) : List (Mention DataFlow) :=
  (leavesOf p).flatMap Statement.flowMentions

/-- The scenarios of a program, in source order. -/
def scenarios (p : Program) : List ScenarioDef := (leavesOf p).filterMap Statement.scenario?

end Program

/-! ## Mentions of a walk -/

open Effect

/-- The effect of a step; a response has none. -/
def StepDecl.effect? : StepDecl → Option Effect
  | request kind source target _ =>
    some (.useChannel (.declared kind source.value target.value ""))
  | response _ _ _ => none
  | transfer kind left right _ => some (.useFlow (.declared kind left.value right.value))

section See

variable {β : Type} (see : Effect → Option β)

theorem effect?_flowChecks (kind : FlowKind) (left right : Spanned Ident) (acts : List Act) :
    (flowChecks kind left right ++ acts).filterMap (Act.effect? see) =
      acts.filterMap (Act.effect? see) := by cases kind <;> rfl

theorem effect?_singleton (e : Effect) :
    [Act.effect e].filterMap (Act.effect? see) = (see e).toList := by
  rw [List.filterMap_cons, Act.effect?]
  cases see e <;> rfl

theorem effect?_stepActs (x : Spanned StepDecl) :
    (stepActs x).filterMap (Act.effect? see) = (x.value.effect?.bind see).toList := by
  obtain ⟨x, span⟩ := x
  cases x with
  | request kind source target message => exact effect?_singleton see _
  | response requester responder message => rfl
  | transfer kind left right message =>
    exact (effect?_flowChecks see kind left right _).trans (effect?_singleton see _)

/-- What is seen of a scenario is what is seen of its steps and of its end. -/
theorem effect?_scenario (d : ScenarioDef) :
    d.acts.filterMap (Act.effect? see) =
      (d.steps.filterMap fun x => x.value.effect?.bind see) ++
        (see (.addScenario d.toScenario)).toList := by
  unfold ScenarioDef.acts
  rw [List.filterMap_append, List.filterMap_flatMap, effect?_singleton,
    List.filterMap_eq_flatMap_toList fun x : Spanned StepDecl => x.value.effect?.bind see]
  simp only [effect?_stepActs]

end See

theorem channelMentions_acts (x : Statement) :
    x.acts.filterMap (Act.effect? channelMention?) = x.channelMentions := by
  cases x with
  | flow d => exact effect?_flowChecks _ d.kind d.left d.right _
  | scenario d =>
    have hstep : ∀ x : StepDecl,
        x.effect?.bind channelMention? = x.channel?.map Mention.uses := by
      intro x
      cases x <;> rfl
    refine (effect?_scenario channelMention? d).trans ?_
    simp [hstep, Statement.channelMentions, channelMention?, List.map_filterMap]
  | _ => rfl

theorem flowMentions_acts (x : Statement) :
    x.acts.filterMap (Act.effect? flowMention?) = x.flowMentions := by
  cases x with
  | flow d => exact effect?_flowChecks _ d.kind d.left d.right _
  | scenario d =>
    have hstep : ∀ x : StepDecl, x.effect?.bind flowMention? = x.flow?.map Mention.uses := by
      intro x
      cases x <;> rfl
    refine (effect?_scenario flowMention? d).trans ?_
    simp [hstep, Statement.flowMentions, flowMention?, List.map_filterMap]
  | _ => rfl

theorem scenarios_acts (x : Statement) :
    x.acts.filterMap (Act.effect? scenario?) =
      (x.scenario?.map ScenarioDef.toScenario).toList := by
  cases x with
  | flow d => exact effect?_flowChecks _ d.kind d.left d.right _
  | scenario d =>
    have hstep : ∀ x : StepDecl, x.effect?.bind scenario? = none := by
      intro x
      cases x <;> rfl
    refine (effect?_scenario scenario? d).trans ?_
    simp [hstep, Statement.scenario?, scenario?]
  | _ => rfl

/-- Nothing that mentions are seen of belongs to a container. -/
theorem effect?_ofContainer {β : Type} {see : Effect → Option β}
    (hopen : ∀ path head, see (.openBody path head) = none)
    (hclose : ∀ path head, see (.closeBody path head) = none) {a : Act}
    (ha : a.ofContainer = true) : a.effect? see = none := by
  cases a with
  | check c => rfl
  | effect e =>
    cases e with
    | openBody path head => exact hopen path head
    | closeBody path head => exact hclose path head
    | _ => cases ha

/-- What is seen of visits is seen of one of their effects. -/
theorem mem_effect?_iff {β : Type} {see : Effect → Option β} {vs : List Visit} {b : β} :
    b ∈ (vs.map Visit.act).filterMap (Act.effect? see) ↔
      ∃ v ∈ vs, ∃ e, v.act = .effect e ∧ see e = some b := by
  rw [List.filterMap_map, List.mem_filterMap]
  refine exists_congr fun v => and_congr_right fun _ => ?_
  rw [Function.comp_apply]
  cases v.act <;> simp [Act.effect?]

namespace Program

/-- A walk mentions the channels that its program mentions. -/
theorem channelMentions_visits (p : Program) :
    (p.visits.map Visit.act).filterMap (Act.effect? channelMention?) = p.channelMentions := by
  rw [filterMap_visits fun a => effect?_ofContainer (fun _ _ => rfl) (fun _ _ => rfl)]
  simp only [channelMentions_acts]
  rfl

/-- A mention of a channel is an effect of the walk. -/
theorem mem_channelMentions_iff {p : Program} {m : Mention Channel} :
    m ∈ p.channelMentions ↔
      ∃ v ∈ p.visits, ∃ e, v.act = .effect e ∧ e.channelMention? = some m := by
  rw [← channelMentions_visits, mem_effect?_iff]

theorem flowMentions_visits (p : Program) :
    (p.visits.map Visit.act).filterMap (Act.effect? flowMention?) = p.flowMentions := by
  rw [filterMap_visits fun a => effect?_ofContainer (fun _ _ => rfl) (fun _ _ => rfl)]
  simp only [flowMentions_acts]
  rfl

theorem mem_flowMentions_iff {p : Program} {m : Mention DataFlow} :
    m ∈ p.flowMentions ↔ ∃ v ∈ p.visits, ∃ e, v.act = .effect e ∧ e.flowMention? = some m := by
  rw [← flowMentions_visits, mem_effect?_iff]

theorem scenarios_visits (p : Program) :
    (p.visits.map Visit.act).filterMap (Act.effect? scenario?) =
      p.scenarios.map ScenarioDef.toScenario := by
  rw [filterMap_visits fun a => effect?_ofContainer (fun _ _ => rfl) (fun _ _ => rfl)]
  simp only [scenarios_acts]
  rw [← List.filterMap_eq_flatMap_toList, scenarios, List.map_filterMap]

end Program

end ArchScript
