/-
  The walk over a program: what each statement checks and changes, in order.

  A statement is a list of acts that does not depend on what was elaborated before: checks
  of its references, then effects on the scope. `visitsOf` lists the acts of statements
  where they stand; every visit names the body it happens in. A body is named by the path
  of its container through the program, so two bodies of one id are told apart.

  `perform` performs acts on a scope. The walk is the syntax tree laid out flat; the module
  `Perform` proves that elaborating a program is performing its walk.
-/
import ArchScript.Elaboration

namespace ArchScript

/-! ## Checks -/

/-- What a statement or step asks of the program before it. -/
inductive Check where
  /-- an actor has this id -/
  | known (ref : Spanned Ident)
  /-- an agent or user has this id -/
  | active (role : EndRole) (ref : Spanned Ident)
  /-- a store has this id -/
  | store (role : EndRole) (ref : Spanned Ident)
  /-- there is a channel for requests from the first id to the second -/
  | requested (requester responder : Ident) (step : Span)
  /-- the id may be defined here -/
  | unused (what : DefinitionKind) (ref : Spanned Ident)
deriving DecidableEq

/-- The members that a definition must not meet; its own kind comes first. -/
def DefinitionKind.rivals (what : DefinitionKind) (id : Ident) : List Member :=
  match what with
  | .actor => [⟨.actor, id⟩, ⟨.container, id⟩]
  | DefinitionKind.annotation => [⟨MemberKind.annotation, id⟩]
  | .container => [⟨.container, id⟩, ⟨.actor, id⟩]

/-- The violation of a check in a scope, if there is one. -/
def Check.test (policy : Redeclaration) (s : Scope) : Check → Except Violation Unit
  | known ref => (Elaboration.actor s ref).map fun _ => ()
  | active role ref => do
    let a ← Elaboration.actor s ref
    if a.kind.isActive then return () else .error (.storeAsEnd ref role)
  | store role ref => do
    let a ← Elaboration.actor s ref
    if a.kind.isStore then return () else .error (.notAStore ref a.kind role)
  | requested requester responder step =>
    if s.channels.contains (channelId .requestResponse requester responder) then .ok ()
    else .error (.missingRequest requester responder step)
  | unused what ref => Elaboration.checkNew policy s what ref (what.rivals ref.value)

/-! ## Effects -/

/-- The place of a body: the index of its container among the statements around it, before
the place of the body around. The program itself is the empty path. -/
abbrev BodyPath := List Nat

/-- What a statement or step changes. -/
inductive Effect where
  | declareActor (d : ActorDecl)
  | setNote (target : Ident) (text : String)
  | assign (target : Ident) (refs : List Ident)
  | declareChannel (c : Channel)
  /-- a step needs the channel -/
  | useChannel (c : Channel)
  | declareFlow (f : DataFlow)
  /-- a step needs the data flow -/
  | useFlow (f : DataFlow)
  | annotate (d : AnnotationDef)
  | addScenario (x : Scenario)
  | openBody (path : BodyPath) (head : ContainerHead)
  | closeBody (path : BodyPath) (head : ContainerHead)

/-- The actor that a declaration brings into being. -/
def ActorDecl.toActor (d : ActorDecl) : Actor :=
  (Actor.declared d.id.value d.kind.value d.caption.value).withAnnotations
    (d.annotations.map Spanned.value)

/-- The annotation that a definition brings into being. -/
def AnnotationDef.toAnnotation (d : AnnotationDef) : Annotation :=
  .defined d.id.value (Table.ofList (d.properties.map fun p => (p.key.value, p.value.value)))

/-- Changes an actor of the scope, if it has one of this id. -/
def Scope.updateActor (s : Scope) (id : Ident) (f : Actor → Actor) : Scope :=
  match s.actors.get? id with
  | some a => s.setActor (f a)
  | none => s

namespace Effect

/-- What an effect does to a scope. -/
def apply : Effect → Scope → Scope
  | declareActor d, s => s.registerActor d.toActor d.id.span
  | setNote target text, s => s.updateActor target fun a => a.withNote text
  | assign target refs, s => s.updateActor target fun a => a.withAnnotations refs
  | declareChannel c, s => s.registerChannel c
  | useChannel c, s => if s.channels.contains c.id then s else s.registerChannel c
  | declareFlow f, s => s.registerDataFlow f
  | useFlow f, s => if s.dataFlows.contains f.id then s else s.registerDataFlow f
  | annotate d, s => s.registerAnnotation d.toAnnotation d.id.span
  | addScenario x, s => s.addScenario x
  | openBody _ head, s => s.openBody head.id.value head.id.span
  | closeBody _ head, s => s.closeBody head.id.value head.name.value

end Effect

section Frame

variable {α : Type} (part : Scope → α)

/-- A change of one actor leaves the parts of a scope alone that do not look at actors. -/
theorem Scope.updateActor_frame (h : ∀ s actors, part { s with actors } = part s) (s : Scope)
    (id : Ident) (f : Actor → Actor) : part (s.updateActor id f) = part s := by
  unfold updateActor
  split
  · exact h s _
  · rfl

/-- A channel that a step needs leaves alone what a registered channel does. -/
theorem Effect.useChannel_frame (h : ∀ s c, part (s.registerChannel c) = part s) (c : Channel)
    (s : Scope) : part ((Effect.useChannel c).apply s) = part s := by
  simp only [Effect.apply]
  split
  · rfl
  · exact h s c

/-- A data flow that a step needs leaves alone what a registered data flow does. -/
theorem Effect.useFlow_frame (h : ∀ s f, part (s.registerDataFlow f) = part s) (f : DataFlow)
    (s : Scope) : part ((Effect.useFlow f).apply s) = part s := by
  simp only [Effect.apply]
  split
  · rfl
  · exact h s f

end Frame

/-! ## Acts -/

/-- One thing that a statement does. -/
inductive Act where
  | check (c : Check)
  | effect (e : Effect)

/-- Performs acts in order; the first violation ends the walk. -/
def perform (policy : Redeclaration) : List Act → Scope → Except Violation Scope
  | [], s => .ok s
  | .check c :: acts, s => do
    c.test policy s
    perform policy acts s
  | .effect e :: acts, s => perform policy acts (e.apply s)

def ActorDecl.acts (d : ActorDecl) : List Act :=
  [.check (.unused .actor d.id), .effect (.declareActor d)]

def NoteDecl.acts (d : NoteDecl) : List Act :=
  [.check (.known d.target), .effect (.setNote d.target.value d.text.value)]

def Assignment.acts (d : Assignment) : List Act :=
  [.check (.known d.target),
    .effect (.assign d.target.value (d.annotations.map Spanned.value))]

/-- Both ends of a channel, the source first. -/
def channelChecks (source target : Spanned Ident) : List Act :=
  [.check (.active .channel source), .check (.active .channel target)]

/-- Both ends of a data flow, the left operand first. -/
def flowChecks (kind : FlowKind) (left right : Spanned Ident) : List Act :=
  match kind with
  | .write => [.check (.active .write left), .check (.store .write right)]
  | .read => [.check (.store .read left), .check (.active .read right)]

def Call.acts (d : Call) : List Act :=
  channelChecks d.source d.target ++
    [.effect (.declareChannel (.declared d.kind d.source.value d.target.value
      (Elaboration.textOrEmpty d.text)))]

def Flow.acts (d : ArchScript.Flow) : List Act :=
  flowChecks d.kind d.left d.right ++
    [.effect (.declareFlow (.declared d.kind d.left.value d.right.value))]

def AnnotationDef.acts (d : AnnotationDef) : List Act :=
  [.check (.unused DefinitionKind.annotation d.id), .effect (.annotate d)]

/-- What a step does; a response needs its channel and changes nothing. -/
def stepActs (x : Spanned StepDecl) : List Act :=
  match x.value with
  | .request kind source target _ =>
    channelChecks source target ++
      [.effect (.useChannel (.declared kind source.value target.value ""))]
  | .response requester responder _ =>
    channelChecks requester responder ++
      [.check (.requested requester.value responder.value x.span)]
  | .transfer kind left right _ =>
    flowChecks kind left right ++ [.effect (.useFlow (.declared kind left.value right.value))]

/-- The step of a model that a step of a program becomes. -/
def StepDecl.toStep : StepDecl → Step
  | request kind source target message =>
    .withMessage .request (channelId kind source.value target.value)
      (Elaboration.textOrEmpty message)
  | response requester responder message =>
    .withMessage .response (channelId .requestResponse requester.value responder.value)
      (Elaboration.textOrEmpty message)
  | transfer kind left right message =>
    .withMessage (.ofFlow kind) (flowId kind left.value right.value) message.value

/-- The scenario of a model that a scenario of a program becomes. -/
def ScenarioDef.toScenario (d : ScenarioDef) : Scenario :=
  { name := d.name.value, steps := d.steps.map fun x => x.value.toStep }

def ScenarioDef.acts (d : ScenarioDef) : List Act :=
  d.steps.flatMap stepActs ++ [.effect (.addScenario d.toScenario)]

/-- The acts of a statement that holds no other statements. -/
def Statement.acts : Statement → List Act
  | actor d => d.acts
  | note d => d.acts
  | assignment d => d.acts
  | call d => d.acts
  | flow d => d.acts
  | Statement.annotation d => d.acts
  | scenario d => d.acts
  | container _ _ => []

/-! ## Acts about relationships -/

/-- The act checks the ends of a relationship, mentions one or adds a scenario. -/
def Act.Relates : Act → Prop
  | .check (.active _ _) => True
  | .check (.store _ _) => True
  | .check (.requested _ _ _) => True
  | .effect (.declareChannel _) => True
  | .effect (.useChannel _) => True
  | .effect (.declareFlow _) => True
  | .effect (.useFlow _) => True
  | .effect (.addScenario _) => True
  | _ => False

theorem relates_channelChecks (source target : Spanned Ident) :
    ∀ a ∈ channelChecks source target, a.Relates := by simp [channelChecks, Act.Relates]

theorem relates_flowChecks (kind : FlowKind) (left right : Spanned Ident) :
    ∀ a ∈ flowChecks kind left right, a.Relates := by
  cases kind <;> simp [flowChecks, Act.Relates]

theorem Call.relates_acts (d : Call) : ∀ a ∈ d.acts, a.Relates :=
  List.forall_mem_append.2 ⟨relates_channelChecks _ _, by simp [Act.Relates]⟩

theorem Flow.relates_acts (d : ArchScript.Flow) : ∀ a ∈ d.acts, a.Relates :=
  List.forall_mem_append.2 ⟨relates_flowChecks _ _ _, by simp [Act.Relates]⟩

theorem relates_stepActs (x : Spanned StepDecl) : ∀ a ∈ stepActs x, a.Relates := by
  obtain ⟨x, span⟩ := x
  cases x with
  | request kind source target message =>
    exact List.forall_mem_append.2 ⟨relates_channelChecks _ _, by simp [Act.Relates]⟩
  | response requester responder message =>
    exact List.forall_mem_append.2 ⟨relates_channelChecks _ _, by simp [Act.Relates]⟩
  | transfer kind left right message =>
    exact List.forall_mem_append.2 ⟨relates_flowChecks _ _ _, by simp [Act.Relates]⟩

theorem ScenarioDef.relates_acts (d : ScenarioDef) : ∀ a ∈ d.acts, a.Relates := by
  refine List.forall_mem_append.2 ⟨fun a ha => ?_, by simp [Act.Relates]⟩
  obtain ⟨x, _, ha⟩ := List.mem_flatMap.1 ha
  exact relates_stepActs x a ha

/-! ## Visits -/

/-- An act and the body in which it happens. -/
structure Visit where
  body : BodyPath
  act : Act

mutual

/-- The visits of the statement with index `i` in `body`. A container is checked and opened
in the body around it and closed there, after everything in its own body. -/
def Statement.visits (body : BodyPath) (i : Nat) : Statement → List Visit
  | .container head inner =>
    ⟨body, .check (.unused .container head.id)⟩ ::
      ⟨body, .effect (.openBody (i :: body) head)⟩ ::
        (visitsOf (i :: body) 0 inner ++ [⟨body, .effect (.closeBody (i :: body) head)⟩])
  | x => x.acts.map (Visit.mk body)

/-- The visits of statements that stand in `body`, the first with index `i`. -/
def visitsOf (body : BodyPath) (i : Nat) : List (Spanned Statement) → List Visit
  | [] => []
  | ⟨x, _⟩ :: xs => x.visits body i ++ visitsOf body (i + 1) xs

end

theorem map_act_map_mk (acts : List Act) (body : BodyPath) :
    (acts.map (Visit.mk body)).map Visit.act = acts := by
  rw [List.map_map]
  exact List.map_id acts

/-- The walk over a whole program. -/
def Program.visits (p : Program) : List Visit := visitsOf [] 0 p

/-! ## Induction over programs -/

/-- A statement that holds no other statements. -/
def Statement.IsFlat : Statement → Prop
  | container _ _ => False
  | _ => True

theorem Statement.visits_of_isFlat {x : Statement} (h : x.IsFlat) (body : BodyPath) (i : Nat) :
    x.visits body i = x.acts.map (Visit.mk body) := by
  cases x with
  | container head inner => exact h.elim
  | _ => rfl

theorem visitsOf_flat {x : Statement} (h : x.IsFlat) (body : BodyPath) (i : Nat) (span : Span)
    (xs : List (Spanned Statement)) :
    visitsOf body i (⟨x, span⟩ :: xs) = x.acts.map (Visit.mk body) ++ visitsOf body (i + 1) xs := by
  rw [visitsOf, Statement.visits_of_isFlat h]

theorem visitsOf_container (body : BodyPath) (i : Nat) (head : ContainerHead)
    (inner : List (Spanned Statement)) (span : Span) (xs : List (Spanned Statement)) :
    visitsOf body i (⟨.container head inner, span⟩ :: xs) =
      ⟨body, .check (.unused .container head.id)⟩ ::
        ⟨body, .effect (.openBody (i :: body) head)⟩ ::
          (visitsOf (i :: body) 0 inner ++
            ⟨body, .effect (.closeBody (i :: body) head)⟩ :: visitsOf body (i + 1) xs) := by
  rw [visitsOf, Statement.visits]
  simp

theorem visitsOf_append (xs ys : List (Spanned Statement)) (body : BodyPath) (i : Nat) :
    visitsOf body i (xs ++ ys) = visitsOf body i xs ++ visitsOf body (i + xs.length) ys := by
  induction xs generalizing i with
  | nil => rfl
  | cons x xs ih =>
    rw [List.cons_append, visitsOf, visitsOf, ih, List.append_assoc, List.length_cons,
      Nat.add_right_comm, Nat.add_assoc]

/-- What holds of the empty program, of a flat statement before a program, and of a
container before a program when it holds of its body, holds of every program. -/
theorem Program.induction {P : Program → Prop} (nil : P [])
    (flat : ∀ x span xs, Statement.IsFlat x → P xs → P (⟨x, span⟩ :: xs))
    (container : ∀ head inner span xs, P inner → P xs →
      P (⟨.container head inner, span⟩ :: xs)) : ∀ p : Program, P p
  | [] => nil
  | ⟨.container head inner, span⟩ :: xs =>
    container head inner span xs (induction nil flat container inner)
      (induction nil flat container xs)
  | ⟨.actor _, span⟩ :: xs => flat _ span xs trivial (induction nil flat container xs)
  | ⟨.note _, span⟩ :: xs => flat _ span xs trivial (induction nil flat container xs)
  | ⟨.assignment _, span⟩ :: xs => flat _ span xs trivial (induction nil flat container xs)
  | ⟨.call _, span⟩ :: xs => flat _ span xs trivial (induction nil flat container xs)
  | ⟨.flow _, span⟩ :: xs => flat _ span xs trivial (induction nil flat container xs)
  | ⟨Statement.annotation _, span⟩ :: xs =>
    flat _ span xs trivial (induction nil flat container xs)
  | ⟨.scenario _, span⟩ :: xs => flat _ span xs trivial (induction nil flat container xs)

end ArchScript
