/-
  Renamed programs and renamed models.

  `renamed r` gives every actor, annotation and container of a tree its new name, where it is
  declared and where it is referred to, and leaves kinds, texts and spans as they are. In a model
  the channels and data flows have the new ends, and an id that is derived from ends (the key of a
  relationship, the relation of a step, a member of a container) is derived from the new ones.

  The diagnostic of a renamed violation has the same code and labels, and the same help but for a
  missing request, where the help names the ends (`Violation.diagnostic_renamed`).
-/
import ArchScript.Program
import ArchScript.Proofs.Renaming.Ids
import ArchScript.Violation

namespace ArchScript

variable (r : Renaming)

/-! ## Programs -/

def ActorDecl.renamed (d : ActorDecl) : ActorDecl :=
  { d with id := d.id.map r.name, annotations := d.annotations.map (Spanned.map r.name) }

def NoteDecl.renamed (d : NoteDecl) : NoteDecl := { d with target := d.target.map r.name }

def Assignment.renamed (d : Assignment) : Assignment :=
  ⟨d.target.map r.name, d.annotations.map (Spanned.map r.name)⟩

def Call.renamed (d : Call) : Call :=
  { d with source := d.source.map r.name, target := d.target.map r.name }

def Flow.renamed (d : ArchScript.Flow) : ArchScript.Flow :=
  { d with left := d.left.map r.name, right := d.right.map r.name }

def AnnotationDef.renamed (d : AnnotationDef) : AnnotationDef := { d with id := d.id.map r.name }

def StepDecl.renamed : StepDecl → StepDecl
  | request kind source target message =>
    request kind (source.map r.name) (target.map r.name) message
  | response requester responder message =>
    response (requester.map r.name) (responder.map r.name) message
  | transfer kind left right message =>
    transfer kind (left.map r.name) (right.map r.name) message

def ScenarioDef.renamed (d : ScenarioDef) : ScenarioDef :=
  { d with steps := d.steps.map (Spanned.map (StepDecl.renamed r)) }

def ContainerHead.renamed (h : ContainerHead) : ContainerHead := { h with id := h.id.map r.name }

mutual

/-- The statement with new names, in its body as well. -/
def Statement.renamed : Statement → Statement
  | .actor d => .actor (d.renamed r)
  | .note d => .note (d.renamed r)
  | .assignment d => .assignment (d.renamed r)
  | .call d => .call (d.renamed r)
  | .flow d => .flow (d.renamed r)
  | Statement.annotation d => Statement.annotation (d.renamed r)
  | .container head body => .container (head.renamed r) (renamedAll body)
  | .scenario d => .scenario (d.renamed r)

def renamedAll : List (Spanned Statement) → List (Spanned Statement)
  | [] => []
  | ⟨x, span⟩ :: xs => ⟨x.renamed, span⟩ :: renamedAll xs

end

/-- The program with every actor, annotation and container renamed. -/
def Program.renamed (p : Program) : Program := renamedAll r p

/-! ## Violations -/

def Violation.renamed : Violation → Violation
  | undefined ref => undefined (ref.map r.name)
  | containerAsActor ref => containerAsActor (ref.map r.name)
  | storeAsEnd ref role => storeAsEnd (ref.map r.name) role
  | notAStore ref kind role => notAStore (ref.map r.name) kind role
  | missingRequest requester responder step =>
    missingRequest (r.name requester) (r.name responder) step
  | duplicate what ref first => duplicate what (ref.map r.name) first

/-- Names are in the message of a violation, and in its help only where a request is missing. -/
theorem Violation.diagnostic_renamed (w : Violation) :
    (w.renamed r).diagnostic.code = w.diagnostic.code ∧
      (w.renamed r).diagnostic.labels = w.diagnostic.labels ∧
      (w.diagnostic.code ≠ some .missingRequest →
        (w.renamed r).diagnostic.help = w.diagnostic.help) := by
  cases w with
  | missingRequest requester responder step => exact ⟨rfl, rfl, fun h => absurd rfl h⟩
  | _ => exact ⟨rfl, rfl, fun _ => rfl⟩

/-! ## Models -/

def Actor.renamed (a : Actor) : Actor :=
  { a with
    id := r.name a.id
    annotations := a.annotations.map r.name
    container := a.container.map r.name }

def Channel.renamed (c : Channel) : Channel :=
  { c with
    source := r.name c.source
    target := r.name c.target
    container := c.container.map r.name }

def DataFlow.renamed (f : DataFlow) : DataFlow :=
  { f with
    source := r.name f.source
    target := r.name f.target
    container := f.container.map r.name }

def Annotation.renamed (a : Annotation) : Annotation :=
  { a with id := r.name a.id, container := a.container.map r.name }

def Members.renamed (m : Members) : Members where
  actors := m.actors.map (r.id .actor)
  channels := m.channels.map (r.id .channel)
  dataFlows := m.dataFlows.map (r.id .dataFlow)
  annotations := m.annotations.map (r.id MemberKind.annotation)
  containers := m.containers.map (r.id .container)

def Container.renamed (c : Container) : Container :=
  { c with
    id := r.name c.id
    members := c.members.renamed r
    container := c.container.map r.name }

/-- The kind of relationship that a step uses. -/
def StepKind.relationKind : StepKind → MemberKind
  | request => .channel
  | response => .channel
  | dataRead => .dataFlow
  | dataWrite => .dataFlow

def Step.renamed (x : Step) : Step := { x with relation := r.id x.kind.relationKind x.relation }

def Scenario.renamed (x : Scenario) : Scenario := { x with steps := x.steps.map (Step.renamed r) }

/-- The model with every actor, annotation and container renamed, and with the ids of channels and
data flows derived from their new ends. Nothing changes its place. -/
def SystemModel.renamed (m : SystemModel) : SystemModel where
  name := m.name
  actors := m.actors.map (Actor.renamed r)
  channels := m.channels.map (Channel.renamed r)
  dataFlows := m.dataFlows.map (DataFlow.renamed r)
  scenarios := m.scenarios.map (Scenario.renamed r)
  annotations := m.annotations.rename r.name_injective fun a => a.renamed r
  containers := m.containers.rename r.name_injective (Container.renamed r)

theorem Channel.id_renamed {c : Channel} (h : IsWord c.source) :
    (c.renamed r).id = r.id .channel c.id := (r.id_channelId c.kind h c.target).symm

theorem DataFlow.id_renamed {f : DataFlow} (h : IsWord f.source) :
    (f.renamed r).id = r.id .dataFlow f.id := (r.id_flowId f.kind h f.target).symm

theorem idsOfKind_renamed (k : MemberKind) (ms : List Member) :
    idsOfKind k (ms.map r.member) = (idsOfKind k ms).map (r.id k) := by
  induction ms with
  | nil => rfl
  | cons m ms ih =>
    obtain ⟨kind, id⟩ := m
    unfold idsOfKind at ih ⊢
    by_cases hk : kind = k
    · subst hk
      simp [Renaming.member, ih]
    · simp [Renaming.member, hk, ih]

theorem Members.ofList_renamed (ms : List Member) :
    Members.ofList (ms.map r.member) = (Members.ofList ms).renamed r := by
  simp only [Members.ofList, Members.renamed, idsOfKind_renamed]

theorem Members.filter_renamed (m : Members) {p q : Member → Bool}
    (h : ∀ x, q (r.member x) = p x) : (m.renamed r).filter q = (m.filter p).renamed r := by
  have hids : ∀ k (ids : List Ident), (ids.map (r.id k)).filter (fun x => q ⟨k, x⟩) =
      (ids.filter fun x => p ⟨k, x⟩).map (r.id k) := by
    intro k ids
    rw [List.filter_map]
    exact congrArg _ (List.filter_congr fun x _ => h ⟨k, x⟩)
  simp only [Members.filter, Members.renamed, hids]

end ArchScript
