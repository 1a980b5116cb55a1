/-
  Diagnostics: what every phase says about a source it refuses.

  A diagnostic has a code, a message, labels that point into the source and a help text.
  The phases hold their causes as types of their own and turn them into diagnostics; this
  module knows the codes and how a diagnostic and a list of them are written in one line.
-/
import ArchScript.Span

namespace ArchScript

/-! ## Codes -/

/-- What kind of mistake a diagnostic reports. -/
inductive ErrorCode where
  | unterminatedText
  | unexpectedCharacter
  | invalidEscape
  | unexpectedToken
  | incompleteInput
  | undefinedIdentifier
  | invalidEndpoint
  | missingRequest
  | notAnActor
  | duplicateDefinition
deriving DecidableEq

namespace ErrorCode

/-- All codes, in the order of the phases that report them. -/
def all : List ErrorCode :=
  [unterminatedText, unexpectedCharacter, invalidEscape, unexpectedToken, incompleteInput,
    undefinedIdentifier, invalidEndpoint, missingRequest, notAnActor, duplicateDefinition]

theorem mem_all (c : ErrorCode) : c ∈ all := by cases c <;> decide

/-- The written code: `E0` for words, `E1` for grammar, `E2` for meaning, `E3` for policy. -/
def text : ErrorCode → String
  | unterminatedText => "E001"
  | unexpectedCharacter => "E002"
  | invalidEscape => "E003"
  | unexpectedToken => "E100"
  | incompleteInput => "E101"
  | undefinedIdentifier => "E200"
  | invalidEndpoint => "E201"
  | missingRequest => "E202"
  | notAnActor => "E203"
  | duplicateDefinition => "E301"

/-- The kind of mistake in words. -/
def description : ErrorCode → String
  | unterminatedText => "unterminated text literal"
  | unexpectedCharacter => "unexpected character"
  | invalidEscape => "invalid escape sequence"
  | unexpectedToken => "unexpected token"
  | incompleteInput => "incomplete input"
  | undefinedIdentifier => "undefined identifier"
  | invalidEndpoint => "invalid relationship endpoint"
  | missingRequest => "response without a prior request"
  | notAnActor => "not an actor"
  | duplicateDefinition => "duplicate definition"

/-- The code that is written `s`. -/
def ofText? (s : String) : Option ErrorCode := all.find? fun c => c.text == s

theorem ofText?_text (c : ErrorCode) : ofText? c.text = some c := by cases c <;> decide

end ErrorCode

/-! ## Diagnostics -/

/-- A place in the source with a note. The primary labels show the mistake, the others
what it is about. -/
structure Label where
  span : Span
  message : String
  isPrimary : Bool
deriving DecidableEq

/-- One thing to say about a source. -/
structure Diagnostic where
  code : Option ErrorCode
  message : String
  labels : List Label
  help : Option String
deriving DecidableEq

namespace Diagnostic

/-- A diagnostic with nothing but a message. -/
def error (message : String) : Diagnostic := { code := none, message, labels := [], help := none }

/-- Sets the code; an earlier code is replaced. -/
def withCode (d : Diagnostic) (code : ErrorCode) : Diagnostic := { d with code := some code }

/-- Adds a primary label. -/
def withLabel (d : Diagnostic) (span : Span) (message : String) : Diagnostic :=
  { d with labels := d.labels ++ [{ span, message, isPrimary := true }] }

/-- Adds a label that is not primary. -/
def withSecondaryLabel (d : Diagnostic) (span : Span) (message : String) : Diagnostic :=
  { d with labels := d.labels ++ [{ span, message, isPrimary := false }] }

/-- Sets the help text; an earlier one is replaced. -/
def withHelp (d : Diagnostic) (help : String) : Diagnostic := { d with help := some help }

/-- The span of the first primary label. -/
def primarySpan? (d : Diagnostic) : Option Span := (d.labels.find? Label.isPrimary).map Label.span

/-- One line: the code in brackets, if there is one, and the message. -/
def render (d : Diagnostic) : String :=
  match d.code with
  | none => "error: " ++ d.message
  | some code => "error[" ++ code.text ++ "]: " ++ d.message

/-- One line for several diagnostics: the first, and how many more there are. -/
def renderAll : List Diagnostic → String
  | [] => ""
  | [d] => d.render
  | d :: ds => d.render ++ " (+" ++ toString ds.length ++ " more)"

end Diagnostic

end ArchScript
