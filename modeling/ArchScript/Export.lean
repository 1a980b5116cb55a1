/-
  Export: a system model as a document, and its JSON text.

  Fields stand in a fixed order. A note or container that is absent is left out; tables
  become records in their own order; the members of a container stand among its fields.
-/
import ArchScript.Document.Json
import ArchScript.Model.System

namespace ArchScript.Export

open Document (text list record)

/-- A list of ids or names. -/
def texts (xs : List String) : Document := list (xs.map text)

/-- A field that is left out when it has no value. -/
def optionalText (name : String) : Option String → List (String × Document)
  | some s => [(name, text s)]
  | none => []

def properties (ps : Properties) : Document :=
  record (ps.entries.map fun p => (p.1.text, text p.2))

def actor (a : Actor) : Document :=
  record ([("id", text a.id), ("kind", text a.kind.text), ("caption", text a.caption)] ++
    optionalText "note" a.note ++
    [("annotations", texts a.annotations), ("properties", properties a.properties)] ++
    optionalText "container" a.container)

def channel (c : Channel) : Document :=
  record ([("id", text c.id), ("kind", text c.kind.text), ("from", text c.source),
    ("to", text c.target), ("text", text c.text)] ++ optionalText "container" c.container)

def dataFlow (f : DataFlow) : Document :=
  record ([("id", text f.id), ("kind", text f.kind.text), ("from", text f.source),
    ("to", text f.target)] ++ optionalText "container" f.container)

def step (s : Step) : Document :=
  record [("kind", text s.kind.text), ("channel", text s.relation), ("message", text s.message)]

def scenario (s : Scenario) : Document :=
  record [("name", text s.name), ("steps", list (s.steps.map step))]

def annotation (a : Annotation) : Document :=
  record ([("id", text a.id), ("properties", properties a.properties)] ++
    optionalText "container" a.container)

def container (c : Container) : Document :=
  record ([("id", text c.id), ("name", text c.name), ("actors", texts c.members.actors),
    ("channels", texts c.members.channels), ("data_flows", texts c.members.dataFlows),
    ("annotations", texts c.members.annotations), ("containers", texts c.members.containers)] ++
    optionalText "container" c.container)

/-- The document of a model. -/
def model (m : SystemModel) : Document :=
  record [("name", text m.name), ("actors", list (m.actors.map actor)),
    ("channels", list (m.channels.map channel)), ("data_flows", list (m.dataFlows.map dataFlow)),
    ("scenarios", list (m.scenarios.map scenario)),
    ("annotations", record (m.annotations.entries.map fun e => (e.1, annotation e.2))),
    ("containers", record (m.containers.entries.map fun e => (e.1, container e.2)))]

end ArchScript.Export

namespace ArchScript

/-- The JSON text of a model, on many lines or on one. -/
def SystemModel.toJson (m : SystemModel) (pretty : Bool) : String :=
  Json.render (if pretty then .pretty else .compact) (Export.model m)

end ArchScript
