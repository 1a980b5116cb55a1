/-
  A program means the same wherever it stands.

  The acts of a moved program are the moved acts of the program (`acts_moved`). Of all the
  tables of a scope only that of the first definitions holds spans, so an act on the moved scope
  gives the moved scope or the moved violation (`Check.test_moved`, `Effect.apply_moved`), and
  so does a walk (`perform_moved`). A model holds no spans: `Program.elaborate_moved` gives one
  model for a program and for the moved program.
-/
import ArchScript.Proofs.Elaboration.Perform
import ArchScript.Proofs.Layout.Moved

namespace ArchScript

variable (f : Span → Span)

/-! ## Acts -/

def Check.moved : Check → Check
  | known ref => known (ref.moved f)
  | active role ref => active role (ref.moved f)
  | store role ref => store role (ref.moved f)
  | requested requester responder step => requested requester responder (f step)
  | unused what ref => unused what (ref.moved f)

def Effect.moved : Effect → Effect
  | declareActor d => declareActor (d.moved f)
  | annotate d => annotate (d.moved f)
  | openBody path head => openBody path (head.moved f)
  | closeBody path head => closeBody path (head.moved f)
  | e => e

def Act.moved : Act → Act
  | check c => check (c.moved f)
  | effect e => effect (e.moved f)

/-! ## The walk of a moved program -/

theorem values_moved {α : Type} (xs : List (Spanned α)) :
    (xs.map (Spanned.moved f)).map Spanned.value = xs.map Spanned.value := by
  rw [List.map_map]
  rfl

theorem textOrEmpty_moved (t : Option (Spanned String)) :
    Elaboration.textOrEmpty (t.map (Spanned.moved f)) = Elaboration.textOrEmpty t := by
  cases t <;> rfl

theorem toStep_moved (x : StepDecl) : (x.moved f).toStep = x.toStep := by
  cases x with
  | transfer kind left right message => rfl
  | _ => simp only [StepDecl.moved, StepDecl.toStep, textOrEmpty_moved, Spanned.moved]

theorem toScenario_moved (d : ScenarioDef) : (d.moved f).toScenario = d.toScenario := by
  have hsteps : (d.steps.map (movedStep f)).map (fun x => x.value.toStep) =
      d.steps.map fun x => x.value.toStep := by
    rw [List.map_map]
    exact List.map_congr_left fun x _ => toStep_moved f x.value
  exact congrArg (Scenario.mk d.name.value) hsteps

theorem stepActs_moved (x : Spanned StepDecl) :
    stepActs (movedStep f x) = (stepActs x).map (Act.moved f) := by
  obtain ⟨x, span⟩ := x
  cases x with
  | transfer kind left right message => cases kind <;> rfl
  | _ => rfl

theorem acts_moved_of_isFlat {x : Statement} (h : x.IsFlat) :
    (x.moved f).acts = x.acts.map (Act.moved f) := by
  cases x with
  | assignment d =>
    simp only [Statement.moved, Statement.acts, Assignment.acts, Assignment.moved, values_moved]
    rfl
  | call d =>
    simp only [Statement.moved, Statement.acts, Call.acts, Call.moved, textOrEmpty_moved]
    rfl
  | flow d =>
    obtain ⟨kind, left, right⟩ := d
    cases kind <;> rfl
  | scenario d =>
    rw [Statement.moved, Statement.acts, ScenarioDef.acts, toScenario_moved,
      show (d.moved f).steps = d.steps.map (movedStep f) from rfl, List.flatMap_map]
    simp only [stepActs_moved, Statement.acts, ScenarioDef.acts, List.map_append,
      List.map_flatMap]
    rfl
  | container head inner => exact h.elim
  | _ => rfl

theorem Statement.isFlat_moved {x : Statement} (h : x.IsFlat) : (x.moved f).IsFlat := by
  cases x with
  | container head inner => exact h.elim
  | _ => trivial

/-- The walk of a moved program is the moved walk. -/
theorem acts_moved (p : Program) (body : BodyPath) (i : Nat) :
    (visitsOf body i (movedAll f p)).map Visit.act =
      ((visitsOf body i p).map Visit.act).map (Act.moved f) := by
  induction p using Program.induction generalizing body i with
  | nil => rfl
  | flat x span xs hx ih =>
    rw [movedAll_cons, movedStatement, visitsOf_flat (Statement.isFlat_moved f hx),
      visitsOf_flat hx, List.map_append, List.map_append, List.map_append, map_act_map_mk,
      map_act_map_mk, acts_moved_of_isFlat f hx, ih]
  | container head inner span xs ih₁ ih₂ =>
    rw [movedAll_cons, movedStatement, Statement.moved, visitsOf_container, visitsOf_container]
    simp only [List.map_cons, List.map_append, ih₁, ih₂]
    rfl

/-! ## Scopes -/

/-- The scope with the places of the first definitions moved. -/
def Scope.moved (s : Scope) : Scope :=
  { s with firstDefined := s.firstDefined.mapValues fun _ => f }

theorem Scope.noteDefinition_moved (s : Scope) (m : Member) (span : Span) :
    (s.moved f).noteDefinition m (f span) = (s.noteDefinition m span).moved f :=
  congrArg (fun t => { s with firstDefined := t })
    (s.firstDefined.mapValues_insertIfNew f m span)

theorem Scope.registerActor_moved (s : Scope) (a : Actor) (span : Span) :
    (s.moved f).registerActor a (f span) = (s.registerActor a span).moved f :=
  congrArg (fun t : Scope => { t.moveHere ⟨.actor, a.id⟩ with actors := t.actors.insert a.id a })
    (s.noteDefinition_moved f ⟨.actor, a.id⟩ span)

theorem Scope.registerAnnotation_moved (s : Scope) (a : Annotation) (span : Span) :
    Scope.registerAnnotation (s.moved f) a (f span) = (s.registerAnnotation a span).moved f :=
  congrArg (fun t : Scope => { t.moveHere ⟨MemberKind.annotation, a.id⟩ with
    annotations := t.annotations.insert a.id a })
    (s.noteDefinition_moved f ⟨MemberKind.annotation, a.id⟩ span)

theorem Scope.openBody_moved (s : Scope) (id : Ident) (span : Span) :
    (s.moved f).openBody id (f span) = (s.openBody id span).moved f :=
  congrArg (fun t : Scope => { t with openBodies := [] :: t.openBodies })
    (s.noteDefinition_moved f ⟨.container, id⟩ span)

theorem Scope.updateActor_moved (s : Scope) (id : Ident) (g : Actor → Actor) :
    (s.moved f).updateActor id g = (s.updateActor id g).moved f := by
  unfold Scope.updateActor
  rw [show (s.moved f).actors = s.actors from rfl]
  split <;> rfl

theorem ActorDecl.toActor_moved (d : ActorDecl) : (d.moved f).toActor = d.toActor := by
  simp only [ActorDecl.toActor, ActorDecl.moved, values_moved]
  rfl

theorem AnnotationDef.toAnnotation_moved (d : AnnotationDef) :
    AnnotationDef.toAnnotation (d.moved f) = d.toAnnotation := by
  simp only [AnnotationDef.toAnnotation, AnnotationDef.moved, List.map_map]
  rfl

/-- An effect does not see where things stand. -/
theorem Effect.apply_moved (e : Effect) (s : Scope) :
    (e.moved f).apply (s.moved f) = (e.apply s).moved f := by
  cases e with
  | declareActor d =>
    simp only [Effect.moved, Effect.apply, ActorDecl.toActor_moved]
    exact s.registerActor_moved f d.toActor d.id.span
  | setNote target text => exact s.updateActor_moved f target _
  | assign target refs => exact s.updateActor_moved f target _
  | useChannel c =>
    simp only [Effect.moved, Effect.apply]
    rw [show (s.moved f).channels = s.channels from rfl]
    split <;> rfl
  | useFlow g =>
    simp only [Effect.moved, Effect.apply]
    rw [show (s.moved f).dataFlows = s.dataFlows from rfl]
    split <;> rfl
  | annotate d =>
    simp only [Effect.moved, Effect.apply, AnnotationDef.toAnnotation_moved]
    exact s.registerAnnotation_moved f d.toAnnotation d.id.span
  | openBody path head => exact s.openBody_moved f head.id.value head.id.span
  | _ => rfl

/-! ## Checks -/

theorem actor_moved (s : Scope) (ref : Spanned Ident) :
    Elaboration.actor (s.moved f) (ref.moved f) =
      (Elaboration.actor s ref).mapError (Violation.moved f) := by
  unfold Elaboration.actor
  rw [show (s.moved f).actors = s.actors from rfl,
    show (s.moved f).containers = s.containers from rfl,
    show (ref.moved f).value = ref.value from rfl]
  cases s.actors.get? ref.value with
  | some a => rfl
  | none => cases s.containers.contains ref.value <;> rfl

theorem checkNew_moved (policy : Redeclaration) (s : Scope) (what : DefinitionKind)
    (ref : Spanned Ident) (members : List Member) :
    Elaboration.checkNew policy (s.moved f) what (ref.moved f) members =
      (Elaboration.checkNew policy s what ref members).mapError (Violation.moved f) := by
  cases policy with
  | replace => rfl
  | reject =>
    have hfirst : members.findSome? (s.moved f).firstDefined.get? =
        (members.findSome? s.firstDefined.get?).map f := by
      rw [List.map_findSome?]
      congr 1
      funext m
      exact s.firstDefined.get?_mapValues (fun _ => f) m
    unfold Elaboration.checkNew
    simp only [hfirst]
    cases members.findSome? s.firstDefined.get? <;> rfl

/-- A check has the same outcome wherever things stand. -/
theorem Check.test_moved (c : Check) (policy : Redeclaration) (s : Scope) :
    (c.moved f).test policy (s.moved f) = (c.test policy s).mapError (Violation.moved f) := by
  cases c with
  | known ref => exact map_eq_mapError (actor_moved f s ref) _
  | active role ref =>
    refine bind_eq_mapError (actor_moved f s ref) fun a => ?_
    cases a.kind.isActive <;> rfl
  | store role ref =>
    refine bind_eq_mapError (actor_moved f s ref) fun a => ?_
    cases a.kind.isStore <;> rfl
  | requested requester responder step =>
    simp only [Check.moved, Check.test]
    rw [show (s.moved f).channels = s.channels from rfl]
    split <;> rfl
  | unused what ref => exact checkNew_moved f policy s what ref _

/-! ## Programs -/

/-- The moved acts on the moved scope give the moved scope or the moved violation. -/
theorem perform_moved (policy : Redeclaration) (acts : List Act) (s : Scope) :
    perform policy (acts.map (Act.moved f)) (s.moved f) =
      match perform policy acts s with
      | .ok s' => .ok (s'.moved f)
      | .error w => .error (w.moved f) :=
  perform_along (fun _ => rfl) (fun _ => rfl) (fun c s _ => c.test_moved f policy s)
    (fun e s _ => e.apply_moved f s) s

/-- A moved program has the model of the program, or its violation, moved. -/
theorem Program.elaborate_moved (options : ElaborationOptions) (p : Program) :
    (p.moved f).elaborate options = (p.elaborate options).mapError (Violation.moved f) := by
  have hempty : Scope.empty.moved f = .empty := rfl
  rw [Program.elaborate_eq_perform, Program.elaborate_eq_perform, Program.visits, Program.moved,
    acts_moved, ← hempty, perform_moved, hempty, ← Program.visits]
  cases perform options.redeclaration (p.visits.map Visit.act) .empty <;> rfl

end ArchScript
