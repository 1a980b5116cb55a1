/-
  The system model: everything a source describes, in the order of its declarations.

  Lists are compared in order, tables as maps. `resolveAnnotations` copies the properties
  of annotations to the actors that refer to them; an actor's own value is never replaced.
-/
import ArchScript.Model.Entity

namespace ArchScript

/-- What a source describes. -/
structure SystemModel where
  name : String
  actors : List Actor
  channels : List Channel
  dataFlows : List DataFlow
  scenarios : List Scenario
  annotations : Table Ident Annotation
  containers : Table Ident Container
deriving BEq

namespace SystemModel

/-- The model of an empty source. -/
def empty : SystemModel :=
  { name := "", actors := [], channels := [], dataFlows := [], scenarios := [],
    annotations := .empty, containers := .empty }

def withName (m : SystemModel) (name : String) : SystemModel := { m with name }

/-! ## Lookup -/

def actor? (m : SystemModel) (id : Ident) : Option Actor := m.actors.find? fun a => a.id == id

def channel? (m : SystemModel) (id : Ident) : Option Channel :=
  m.channels.find? fun c => c.id == id

def dataFlow? (m : SystemModel) (id : Ident) : Option DataFlow :=
  m.dataFlows.find? fun f => f.id == id

def annotation? (m : SystemModel) (id : Ident) : Option Annotation := m.annotations.get? id

def container? (m : SystemModel) (id : Ident) : Option Container := m.containers.get? id

/-- The actors outside every container. -/
def topLevelActors (m : SystemModel) : List Actor := m.actors.filter fun a => a.container.isNone

/-- The containers outside every other. -/
def topLevelContainers (m : SystemModel) : List Container :=
  m.containers.values.filter fun c => c.container.isNone

/-! ## Annotations -/

/-- Gives an actor the properties that it lacks, in their order. -/
def mergeProperties (a : Actor) (ps : Properties) : Actor :=
  ps.entries.foldl (fun a p => a.mergeProperty p.1 p.2) a

/-- Gives an actor what the annotations it refers to supply; the earlier reference wins and
a reference to nothing supplies nothing. -/
def resolveActor (annotations : Table Ident Annotation) (a : Actor) : Actor :=
  a.annotations.foldl
    (fun a ref =>
      match annotations.get? ref with
      | some annotation => mergeProperties a annotation.properties
      | none => a)
    a

/-- Copies the properties of annotations to the actors that refer to them. -/
def resolveAnnotations (m : SystemModel) : SystemModel :=
  { m with actors := m.actors.map (resolveActor m.annotations) }

end SystemModel

end ArchScript
