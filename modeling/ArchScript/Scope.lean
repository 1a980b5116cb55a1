/-
  Scopes: the symbol tables that fill while a program is elaborated.

  An entity lives where it was registered last. While the body of a container is open,
  what is registered there is noted for that body; when the container is registered,
  `parents` points each noted member at it. An entity that is registered again leaves
  its old place first, so no reference to the old place stays behind.
-/
import ArchScript.Model.System
import ArchScript.Span

namespace ArchScript

/-! ## Members -/

/-- The kinds of entity that a container can hold. -/
inductive MemberKind where
  | actor
  | channel
  | dataFlow
  | annotation
  | container
deriving DecidableEq

/-- An entity as the member of a container. Every kind has ids of its own. -/
structure Member where
  kind : MemberKind
  id : Ident
deriving DecidableEq

/-- The ids of one kind. -/
def Members.ofKind (m : Members) : MemberKind → List Ident
  | .actor => m.actors
  | .channel => m.channels
  | .dataFlow => m.dataFlows
  | MemberKind.annotation => m.annotations
  | .container => m.containers

/-- The ids of kind `k` among the members, in order. -/
def idsOfKind (k : MemberKind) (ms : List Member) : List Ident :=
  (ms.filter fun m => m.kind = k).map Member.id

/-- Sorts members by kind and keeps their order within a kind. -/
def Members.ofList (ms : List Member) : Members where
  actors := idsOfKind .actor ms
  channels := idsOfKind .channel ms
  dataFlows := idsOfKind .dataFlow ms
  annotations := idsOfKind MemberKind.annotation ms
  containers := idsOfKind .container ms

theorem Members.ofKind_ofList (ms : List Member) (k : MemberKind) :
    (Members.ofList ms).ofKind k = idsOfKind k ms := by cases k <;> rfl

/-- Keeps the ids that satisfy `p`. -/
def Members.filter (m : Members) (p : Member → Bool) : Members where
  actors := m.actors.filter fun id => p ⟨.actor, id⟩
  channels := m.channels.filter fun id => p ⟨.channel, id⟩
  dataFlows := m.dataFlows.filter fun id => p ⟨.dataFlow, id⟩
  annotations := m.annotations.filter fun id => p ⟨MemberKind.annotation, id⟩
  containers := m.containers.filter fun id => p ⟨.container, id⟩

theorem Members.ofKind_filter (m : Members) (p : Member → Bool) (k : MemberKind) :
    (m.filter p).ofKind k = (m.ofKind k).filter fun id => p ⟨k, id⟩ := by cases k <;> rfl

/-! ## Scopes -/

/-- What is known at a point of the program. -/
structure Scope where
  actors : Table Ident Actor
  channels : Table Ident Channel
  dataFlows : Table Ident DataFlow
  annotations : Table Ident Annotation
  /-- the containers whose body is closed -/
  containers : Table Ident Container
  scenarios : List Scenario
  /-- the container that holds a member itself -/
  parents : Table Member Ident
  /-- what was registered in each open body; the innermost body comes first -/
  openBodies : List (List Member)
  /-- where actors, annotations and containers were defined first -/
  firstDefined : Table Member Span

namespace Scope

/-- The scope before the first statement. -/
def empty : Scope where
  actors := .empty
  channels := .empty
  dataFlows := .empty
  annotations := .empty
  containers := .empty
  scenarios := []
  parents := .empty
  openBodies := []
  firstDefined := .empty

/-! ## Registration -/

/-- Notes where `m` is defined, unless it was defined before. -/
def noteDefinition (s : Scope) (m : Member) (span : Span) : Scope :=
  { s with firstDefined := s.firstDefined.insertIfNew m span }

/-- Takes `m` out of the open bodies and notes it in the innermost. -/
def moveToFront (m : Member) (bodies : List (List Member)) : List (List Member) :=
  match bodies.map fun body => body.filter fun x => !decide (x = m) with
  | [] => []
  | body :: outer => (body ++ [m]) :: outer

/-- Puts `m` where the program stands: it leaves the place that it had before. -/
def moveHere (s : Scope) (m : Member) : Scope :=
  { s with parents := s.parents.erase m, openBodies := moveToFront m s.openBodies }

/-- Registers an actor that is declared at `span`; it replaces an earlier one of its id. -/
def registerActor (s : Scope) (a : Actor) (span : Span) : Scope :=
  let s := (s.noteDefinition ⟨.actor, a.id⟩ span).moveHere ⟨.actor, a.id⟩
  { s with actors := s.actors.insert a.id a }

/-- Registers a channel; it replaces an earlier one of its id. -/
def registerChannel (s : Scope) (c : Channel) : Scope :=
  let s := s.moveHere ⟨.channel, c.id⟩
  { s with channels := s.channels.insert c.id c }

/-- Registers a data flow; it replaces an earlier one of its id. -/
def registerDataFlow (s : Scope) (f : DataFlow) : Scope :=
  let s := s.moveHere ⟨.dataFlow, f.id⟩
  { s with dataFlows := s.dataFlows.insert f.id f }

/-- Registers an annotation that is defined at `span`; it replaces an earlier one of its id. -/
def registerAnnotation (s : Scope) (a : Annotation) (span : Span) : Scope :=
  let m : Member := ⟨MemberKind.annotation, a.id⟩
  let s := (s.noteDefinition m span).moveHere m
  { s with annotations := s.annotations.insert a.id a }

def addScenario (s : Scope) (x : Scenario) : Scope := { s with scenarios := s.scenarios ++ [x] }

/-- Changes a registered actor where it stands. -/
def setActor (s : Scope) (a : Actor) : Scope := { s with actors := s.actors.insert a.id a }

/-! ## Containers -/

/-- Opens the body of container `id`. The container counts as defined from here on. -/
def openBody (s : Scope) (id : Ident) (span : Span) : Scope :=
  let s := s.noteDefinition ⟨.container, id⟩ span
  { s with openBodies := [] :: s.openBodies }

/-- Closes the innermost body and registers its container. Members of an earlier container
of the same id that are not members of this one are in no container any more. -/
def closeBody (s : Scope) (id : Ident) (name : String) : Scope :=
  let body := s.openBodies.head?.getD []
  let others := s.parents.filter fun _ parent => !decide (parent = id)
  let s :=
    { s with
      openBodies := s.openBodies.tail
      parents := body.foldl (fun t m => t.insert m id) others }
  let s := s.moveHere ⟨.container, id⟩
  { s with containers := s.containers.insert id (.defined id name (.ofList body)) }

/-! ## The model -/

/-- The container that holds `m` itself. -/
def parent? (s : Scope) (m : Member) : Option Ident := s.parents.get? m

/-- The model of the registered entities, in the order of their first registration. A
container lists only the members that it still holds. -/
def toModel (s : Scope) : SystemModel where
  name := ""
  actors := s.actors.values.map fun a => a.withContainer (s.parent? ⟨.actor, a.id⟩)
  channels := s.channels.values.map fun c => c.withContainer (s.parent? ⟨.channel, c.id⟩)
  dataFlows := s.dataFlows.values.map fun f => f.withContainer (s.parent? ⟨.dataFlow, f.id⟩)
  scenarios := s.scenarios
  annotations :=
    s.annotations.mapValues fun id a => a.withContainer (s.parent? ⟨MemberKind.annotation, id⟩)
  containers :=
    s.containers.mapValues fun id c =>
      { id
        name := c.name
        members := c.members.filter fun m => decide (s.parent? m = some id)
        container := s.parent? ⟨.container, id⟩ }

end Scope

end ArchScript
