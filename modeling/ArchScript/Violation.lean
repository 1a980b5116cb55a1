/-
  Violations: what can be wrong with a program that is well written.

  Each constructor is one cause and holds what its diagnostic needs. The label of a
  violation points at the identifier that is wrong, or at the step of a response.
-/
import ArchScript.Diagnostic
import ArchScript.Model.Entity

namespace ArchScript

/-- What an identifier is an end of. -/
inductive EndRole where
  | channel
  | write
  | read
deriving DecidableEq

/-- The hint for an end of the wrong kind. -/
def EndRole.help : EndRole → String
  | channel => "channels connect agents and users; use `-->` to write to a store"
  | write => "a write goes from an agent or user into a store: `actor --> store`"
  | read => "a read goes from a store to an agent or user: `store <-- actor`"

/-- What a definition defines. -/
inductive DefinitionKind where
  | actor
  | annotation
  | container
deriving DecidableEq

def DefinitionKind.text : DefinitionKind → String
  | actor => "actor"
  | annotation => "annotation"
  | container => "container"

/-- A reference, response or definition that the program does not allow. -/
inductive Violation where
  /-- an actor is referred to and none was declared -/
  | undefined (ref : Spanned Ident)
  /-- a container is named where an actor is needed -/
  | containerAsActor (ref : Spanned Ident)
  /-- a store stands where an agent or user is needed -/
  | storeAsEnd (ref : Spanned Ident) (role : EndRole)
  /-- an agent or user stands where a store is needed -/
  | notAStore (ref : Spanned Ident) (kind : ActorKind) (role : EndRole)
  /-- a response has no channel to answer on -/
  | missingRequest (requester responder : Ident) (step : Span)
  /-- an id is defined a second time -/
  | duplicate (what : DefinitionKind) (ref : Spanned Ident) (first : Span)
deriving DecidableEq

namespace Violation

/-- The indefinite article of a kind's name. -/
def article : ActorKind → String
  | .agent => "an"
  | .user => "a"
  | .store => "a"

def code : Violation → ErrorCode
  | undefined _ => .undefinedIdentifier
  | containerAsActor _ => .notAnActor
  | storeAsEnd _ _ => .invalidEndpoint
  | notAStore _ _ _ => .invalidEndpoint
  | missingRequest _ _ _ => .missingRequest
  | duplicate _ _ _ => .duplicateDefinition

def message : Violation → String
  | undefined ref => "undefined identifier `" ++ ref.value ++ "`"
  | containerAsActor ref => "`" ++ ref.value ++ "` is a container, not an actor"
  | storeAsEnd ref _ => "invalid endpoint: `" ++ ref.value ++ "` is a store"
  | notAStore ref kind _ =>
    "invalid endpoint: `" ++ ref.value ++ "` is " ++ article kind ++ " " ++ kind.text ++
      ", not a store"
  | missingRequest requester responder _ =>
    "response without a prior request from `" ++ requester ++ "` to `" ++ responder ++ "`"
  | duplicate what ref _ => "duplicate definition of " ++ what.text ++ " `" ++ ref.value ++ "`"

/-- Where the mistake is. -/
def span : Violation → Span
  | undefined ref => ref.span
  | containerAsActor ref => ref.span
  | storeAsEnd ref _ => ref.span
  | notAStore ref _ _ => ref.span
  | missingRequest _ _ step => step
  | duplicate _ ref _ => ref.span

/-- What the label at the mistake says. -/
def note : Violation → String
  | undefined _ => "not declared"
  | containerAsActor _ => "container used where an actor is expected"
  | storeAsEnd _ _ => "expected an agent or user"
  | notAStore _ _ _ => "expected a store"
  | missingRequest _ _ _ => "no request/response channel to answer on"
  | duplicate _ _ _ => "defined again here"

/-- The label at the first definition, for a duplicate. -/
def secondary : Violation → List Label
  | duplicate _ _ first => [{ span := first, message := "first defined here", isPrimary := false }]
  | _ => []

def help? : Violation → Option String
  | undefined _ => some "declare it first, e.g. `agent 'Name' as id;`"
  | containerAsActor _ => none
  | storeAsEnd _ role => some role.help
  | notAStore _ _ role => some role.help
  | missingRequest requester responder _ =>
    some ("add a request step `" ++ requester ++ " -('...')-> " ++ responder ++
      "` before this response, or declare that channel")
  | duplicate _ _ _ => some "rename one of the definitions"

def diagnostic (v : Violation) : Diagnostic where
  code := some v.code
  message := v.message
  labels := { span := v.span, message := v.note, isPrimary := true } :: v.secondary
  help := v.help?

end Violation

end ArchScript
