/-
  Programs: the syntax tree of a source.

  Every form of statement and every form of step has its constructor; names and texts keep
  their spans, so that what is said about a program can point into the source.
-/
import ArchScript.Model.Entity
import ArchScript.Span

namespace ArchScript

/-- An actor: `agent 'caption' as id is @A, @B`. -/
structure ActorDecl where
  kind : Spanned ActorKind
  caption : Spanned String
  id : Spanned Ident
  annotations : List (Spanned Ident)
deriving DecidableEq

/-- A note on an actor: `note for target: 'text'`. -/
structure NoteDecl where
  target : Spanned Ident
  text : Spanned String
deriving DecidableEq

/-- More annotations for an actor: `target is @A, @B`. -/
structure Assignment where
  target : Spanned Ident
  annotations : List (Spanned Ident)
deriving DecidableEq

/-- A channel: `source -('text')-> target` or `source -('text')-\ target`. -/
structure Call where
  kind : ChannelKind
  source : Spanned Ident
  target : Spanned Ident
  text : Option (Spanned String)
deriving DecidableEq

/-- A data flow: `left --> right` writes into `right`, `left <-- right` reads from `left`. -/
structure Flow where
  kind : FlowKind
  left : Spanned Ident
  right : Spanned Ident
deriving DecidableEq

/-- A property: `color: 'value'`. -/
structure PropertyDecl where
  key : Spanned PropertyKey
  value : Spanned String
deriving DecidableEq

/-- An annotation: `@id` with properties in braces. -/
structure AnnotationDef where
  id : Spanned Ident
  properties : List PropertyDecl
deriving DecidableEq

/-- One step of a scenario. -/
inductive StepDecl where
  /-- a message: `source -('message')-> target` or `source -('message')-\ target` -/
  | request (kind : ChannelKind) (source target : Spanned Ident) (message : Option (Spanned String))
  /-- the answer to an earlier request: `requester --('message')--< responder` -/
  | response (requester responder : Spanned Ident) (message : Option (Spanned String))
  /-- data: `left -'message'-> right` writes, `left <-'message'- right` reads -/
  | transfer (kind : FlowKind) (left right : Spanned Ident) (message : Spanned String)
deriving DecidableEq

/-- A scenario: `'name'` with steps in braces. -/
structure ScenarioDef where
  name : Spanned String
  steps : List (Spanned StepDecl)
deriving DecidableEq

/-- The head of a container definition: `container 'name' as id`. -/
structure ContainerHead where
  name : Spanned String
  id : Spanned Ident
deriving DecidableEq

/-- A statement of a program or of a container body. -/
inductive Statement where
  | actor (decl : ActorDecl)
  | note (decl : NoteDecl)
  | assignment (decl : Assignment)
  | call (decl : Call)
  | flow (decl : Flow)
  | annotation (decl : AnnotationDef)
  | container (head : ContainerHead) (body : List (Spanned Statement))
  | scenario (decl : ScenarioDef)

/-- A program is the list of its statements. -/
abbrev Program := List (Spanned Statement)

/-- A value of a program that is not read from a source. -/
def unplaced {α : Type} (x : α) : Spanned α := ⟨x, .zero⟩

end ArchScript
