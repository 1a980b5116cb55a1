/-
  The entities of a model: actors, channels, data flows, annotations and containers, and
  the scenarios that walk over them.

  The id of a channel and of a data flow is derived from its kind and its ends, so two
  declarations with the same kind and ends speak of one relationship. An entity that lives
  in a container holds the container's id.
-/
import ArchScript.Model.Kind
import ArchScript.Table

namespace ArchScript

/-- A name that refers to an entity. -/
abbrev Ident := String

/-- The id of the channel of kind `kind` from `source` to `target`. -/
def channelId (kind : ChannelKind) (source target : Ident) : Ident :=
  source ++ "-" ++ kind.text ++ "->" ++ target

/-- The id of the data flow of kind `kind` from `source` to `target`. -/
def flowId (kind : FlowKind) (source target : Ident) : Ident :=
  kind.text ++ ":" ++ source ++ "->" ++ target

/-- The properties of an actor or an annotation. -/
abbrev Properties := Table PropertyKey String

/-! ## Actors -/

/-- An agent, a user or a store. -/
structure Actor where
  id : Ident
  kind : ActorKind
  caption : String
  note : Option String
  /-- the annotations it refers to, in order and with repetitions -/
  annotations : List Ident
  properties : Properties
  container : Option Ident
deriving BEq

namespace Actor

/-- An actor with nothing but its declaration. -/
def declared (id : Ident) (kind : ActorKind) (caption : String) : Actor :=
  { id, kind, caption, note := none, annotations := [], properties := .empty, container := none }

/-- Sets the note; an earlier note is replaced. -/
def withNote (a : Actor) (note : String) : Actor := { a with note := some note }

/-- Adds references at the end. -/
def withAnnotations (a : Actor) (refs : List Ident) : Actor :=
  { a with annotations := a.annotations ++ refs }

/-- Sets a property. -/
def withProperty (a : Actor) (key : PropertyKey) (value : String) : Actor :=
  { a with properties := a.properties.insert key value }

/-- Sets a property unless the actor has it. -/
def mergeProperty (a : Actor) (key : PropertyKey) (value : String) : Actor :=
  { a with properties := a.properties.insertIfNew key value }

def withContainer (a : Actor) (container : Option Ident) : Actor := { a with container }

def property? (a : Actor) (key : PropertyKey) : Option String := a.properties.get? key

end Actor

/-! ## Relationships -/

/-- A relationship of two active actors. -/
structure Channel where
  kind : ChannelKind
  source : Ident
  target : Ident
  text : String
  container : Option Ident
deriving BEq

namespace Channel

/-- A channel that lives in no container. -/
def declared (kind : ChannelKind) (source target : Ident) (text : String) : Channel :=
  { kind, source, target, text, container := none }

def id (c : Channel) : Ident := channelId c.kind c.source c.target

/-- The text, unless it is empty. -/
def label? (c : Channel) : Option String := if c.text.isEmpty then none else some c.text

def withContainer (c : Channel) (container : Option Ident) : Channel := { c with container }

end Channel

/-- A relationship of an active actor and a store. -/
structure DataFlow where
  kind : FlowKind
  source : Ident
  target : Ident
  container : Option Ident
deriving BEq

namespace DataFlow

/-- A data flow that lives in no container. -/
def declared (kind : FlowKind) (source target : Ident) : DataFlow :=
  { kind, source, target, container := none }

def id (f : DataFlow) : Ident := flowId f.kind f.source f.target

/-- The end that is read from or written to. -/
def store (f : DataFlow) : Ident :=
  match f.kind with
  | .read => f.source
  | .write => f.target

/-- The end that reads or writes. -/
def actor (f : DataFlow) : Ident :=
  match f.kind with
  | .read => f.target
  | .write => f.source

def withContainer (f : DataFlow) (container : Option Ident) : DataFlow := { f with container }

end DataFlow

/-! ## Annotations and containers -/

/-- A named set of properties that actors can refer to. -/
structure Annotation where
  id : Ident
  properties : Properties
  container : Option Ident
deriving BEq

namespace Annotation

/-- An annotation that lives in no container. -/
def defined (id : Ident) (properties : Properties) : Annotation :=
  { id, properties, container := none }

def property? (a : Annotation) (key : PropertyKey) : Option String := a.properties.get? key

def withContainer (a : Annotation) (container : Option Ident) : Annotation := { a with container }

end Annotation

/-- The ids of what a container holds itself, by kind and in order. -/
structure Members where
  actors : List Ident
  channels : List Ident
  dataFlows : List Ident
  annotations : List Ident
  containers : List Ident
deriving DecidableEq

namespace Members

def none : Members :=
  { actors := [], channels := [], dataFlows := [], annotations := [], containers := [] }

def isEmpty (m : Members) : Bool :=
  m.actors.isEmpty && m.channels.isEmpty && m.dataFlows.isEmpty && m.annotations.isEmpty &&
    m.containers.isEmpty

theorem isEmpty_iff {m : Members} : m.isEmpty = true ↔ m = none := by
  cases m
  simp [isEmpty, none, and_assoc]

end Members

/-- A named group of entities; groups can hold groups. -/
structure Container where
  id : Ident
  name : String
  members : Members
  container : Option Ident
deriving BEq

namespace Container

/-- A container that lives in no other. -/
def defined (id : Ident) (name : String) (members : Members) : Container :=
  { id, name, members, container := none }

def withContainer (c : Container) (container : Option Ident) : Container := { c with container }

end Container

/-! ## Scenarios -/

/-- One step: what it does, the id of the relationship it uses and its message. -/
structure Step where
  kind : StepKind
  relation : Ident
  message : String
deriving DecidableEq

namespace Step

/-- What stands for a step without words. -/
def silence : String := "--"

/-- A step; an empty message is written as `silence`. -/
def withMessage (kind : StepKind) (relation : Ident) (message : String) : Step :=
  { kind, relation, message := if message.isEmpty then silence else message }

theorem message_withMessage_ne_empty (kind : StepKind) (relation : Ident) (message : String) :
    (withMessage kind relation message).message ≠ "" := by
  simp only [withMessage]
  split
  · decide
  · next h => simpa [String.isEmpty_iff] using h

end Step

/-- A named walk over the relationships of a model. -/
structure Scenario where
  name : String
  steps : List Step
deriving DecidableEq

end ArchScript
