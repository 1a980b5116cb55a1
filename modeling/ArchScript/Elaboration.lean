/-
  Elaboration: from a program to its system model.

  The statements are walked in source order, bodies and steps where they stand. Each one is
  checked against the scope and then registered in it; the first violation ends the walk,
  and no part of a model is given.
-/
import ArchScript.Program
import ArchScript.Scope
import ArchScript.Violation

namespace ArchScript

/-- What happens when an actor, annotation or container id is defined a second time. -/
inductive Redeclaration where
  | replace
  | reject
deriving DecidableEq

namespace Redeclaration

def all : List Redeclaration := [replace, reject]

def text : Redeclaration → String
  | replace => "replace"
  | reject => "reject"

/-- The policy that is written `s`. -/
def ofText? (s : String) : Option Redeclaration := all.find? fun r => r.text == s

theorem ofText?_text (r : Redeclaration) : ofText? r.text = some r := by cases r <;> decide

end Redeclaration

/-- How a program is elaborated. -/
structure ElaborationOptions where
  /-- whether annotations are copied to the actors in the end -/
  resolveAnnotations : Bool
  redeclaration : Redeclaration
deriving DecidableEq

/-- Annotations are resolved, and a later definition replaces an earlier one. -/
def ElaborationOptions.default : ElaborationOptions :=
  { resolveAnnotations := true, redeclaration := .replace }

namespace Elaboration

/-! ## Checks -/

/-- Fails for an id that may not be defined again: the first of `members` that is defined
already is the earlier definition. -/
def checkNew (policy : Redeclaration) (s : Scope) (what : DefinitionKind) (ref : Spanned Ident)
    (members : List Member) : Except Violation Unit :=
  match policy with
  | .replace => .ok ()
  | .reject =>
    match members.findSome? s.firstDefined.get? with
    | some first => .error (.duplicate what ref first)
    | none => .ok ()

/-- The actor that an identifier refers to. -/
def actor (s : Scope) (ref : Spanned Ident) : Except Violation Actor :=
  match s.actors.get? ref.value with
  | some a => .ok a
  | none =>
    if s.containers.contains ref.value then .error (.containerAsActor ref)
    else .error (.undefined ref)

/-- The agent or user that an identifier refers to. Of an actor of another kind it is the actor's
own id that is quoted, and the reference that is pointed at. -/
def activeEnd (s : Scope) (role : EndRole) (ref : Spanned Ident) : Except Violation Ident := do
  let a ← actor s ref
  if a.kind.isActive then return a.id
  else .error (.storeAsEnd ⟨a.id, ref.span⟩ role)

/-- The store that an identifier refers to. -/
def storeEnd (s : Scope) (role : EndRole) (ref : Spanned Ident) : Except Violation Ident := do
  let a ← actor s ref
  if a.kind.isStore then return a.id
  else .error (.notAStore ⟨a.id, ref.span⟩ a.kind role)

/-- The ends of a channel; the source is checked first. -/
def channelEnds (s : Scope) (source target : Spanned Ident) : Except Violation (Ident × Ident) := do
  let source ← activeEnd s .channel source
  let target ← activeEnd s .channel target
  return (source, target)

/-- The ends of a data flow. The left operand is the source and is checked first: the actor
of a write, the store of a read. -/
def flowEnds (s : Scope) (kind : FlowKind) (left right : Spanned Ident) :
    Except Violation (Ident × Ident) :=
  match kind with
  | .write => do
    let source ← activeEnd s .write left
    let target ← storeEnd s .write right
    return (source, target)
  | .read => do
    let source ← storeEnd s .read left
    let target ← activeEnd s .read right
    return (source, target)

/-! ## Statements without a body -/

/-- Registers a declared actor; notes and assignments to an earlier one are forgotten. -/
def elaborateActor (policy : Redeclaration) (d : ActorDecl) (s : Scope) :
    Except Violation Scope := do
  let id := d.id.value
  checkNew policy s .actor d.id [⟨.actor, id⟩, ⟨.container, id⟩]
  let a := (Actor.declared id d.kind.value d.caption.value).withAnnotations
    (d.annotations.map Spanned.value)
  return s.registerActor a d.id.span

/-- Sets the note of an actor. -/
def elaborateNote (d : NoteDecl) (s : Scope) : Except Violation Scope := do
  let a ← actor s d.target
  return s.setActor (a.withNote d.text.value)

/-- Adds annotations to those of an actor. -/
def elaborateAssignment (d : Assignment) (s : Scope) : Except Violation Scope := do
  let a ← actor s d.target
  return s.setActor (a.withAnnotations (d.annotations.map Spanned.value))

/-- The text of an optional literal; nothing is the empty text. -/
def textOrEmpty (t : Option (Spanned String)) : String :=
  match t with
  | some text => text.value
  | none => ""

/-- Registers a declared channel; the text of an earlier one is replaced. -/
def elaborateCall (d : Call) (s : Scope) : Except Violation Scope := do
  let (source, target) ← channelEnds s d.source d.target
  return s.registerChannel (.declared d.kind source target (textOrEmpty d.text))

/-- Registers a declared data flow. -/
def elaborateFlow (d : Flow) (s : Scope) : Except Violation Scope := do
  let (source, target) ← flowEnds s d.kind d.left d.right
  return s.registerDataFlow (.declared d.kind source target)

/-- Registers an annotation; of two values for one key the last counts. -/
def elaborateAnnotationDef (policy : Redeclaration) (d : AnnotationDef) (s : Scope) :
    Except Violation Scope := do
  let id := d.id.value
  checkNew policy s DefinitionKind.annotation d.id [⟨MemberKind.annotation, id⟩]
  let properties := Table.ofList (d.properties.map fun p => (p.key.value, p.value.value))
  return s.registerAnnotation (.defined id properties) d.id.span

/-! ## Scenarios -/

/-- One step. A step brings its relationship into being if the scope lacks it, and changes
nothing of one that is there; a response needs its channel. -/
def elaborateStep (x : Spanned StepDecl) (s : Scope) : Except Violation (Step × Scope) :=
  match x.value with
  | .request kind source target message => do
    let (source, target) ← channelEnds s source target
    let id := channelId kind source target
    let s := if s.channels.contains id then s
      else s.registerChannel (.declared kind source target "")
    return (.withMessage .request id (textOrEmpty message), s)
  | .response requester responder message => do
    let (requester, responder) ← channelEnds s requester responder
    let id := channelId .requestResponse requester responder
    if s.channels.contains id then
      return (.withMessage .response id (textOrEmpty message), s)
    else .error (.missingRequest requester responder x.span)
  | .transfer kind left right message => do
    let (source, target) ← flowEnds s kind left right
    let id := flowId kind source target
    let s := if s.dataFlows.contains id then s
      else s.registerDataFlow (.declared kind source target)
    return (.withMessage (.ofFlow kind) id message.value, s)

/-- The steps of a scenario, in order. -/
def elaborateSteps : List (Spanned StepDecl) → Scope → Except Violation (List Step × Scope)
  | [], s => .ok ([], s)
  | x :: xs, s => do
    let (step, s) ← elaborateStep x s
    let (steps, s) ← elaborateSteps xs s
    return (step :: steps, s)

/-- Adds a scenario. -/
def elaborateScenario (d : ScenarioDef) (s : Scope) : Except Violation Scope := do
  let (steps, s) ← elaborateSteps d.steps s
  return s.addScenario { name := d.name.value, steps }

/-! ## Programs -/

mutual

/-- Checks and registers one statement. A container is checked at its head; its body is
elaborated inside it. -/
def elaborate (policy : Redeclaration) : Statement → Scope → Except Violation Scope
  | .actor d, s => elaborateActor policy d s
  | .note d, s => elaborateNote d s
  | .assignment d, s => elaborateAssignment d s
  | .call d, s => elaborateCall d s
  | .flow d, s => elaborateFlow d s
  | Statement.annotation d, s => elaborateAnnotationDef policy d s
  | .scenario d, s => elaborateScenario d s
  | .container head body, s => do
    let id := head.id.value
    checkNew policy s .container head.id [⟨.container, id⟩, ⟨.actor, id⟩]
    let s ← elaborateAll policy body (s.openBody id head.id.span)
    return s.closeBody id head.name.value

/-- Checks and registers statements in order. -/
def elaborateAll (policy : Redeclaration) :
    List (Spanned Statement) → Scope → Except Violation Scope
  | [], s => .ok s
  | ⟨x, _⟩ :: xs, s => do
    let s ← elaborate policy x s
    elaborateAll policy xs s

end

end Elaboration

/-- The model of a program, or its first violation. -/
def Program.elaborate (options : ElaborationOptions) (p : Program) :
    Except Violation SystemModel := do
  let s ← Elaboration.elaborateAll options.redeclaration p .empty
  let m := s.toModel
  return if options.resolveAnnotations then m.resolveAnnotations else m

end ArchScript
