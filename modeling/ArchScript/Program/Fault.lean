/-
  Syntax faults: where the tokens of a source stop being a program.

  A fault names what was expected, the tokens of the unfinished construct and the tokens
  that are left. When a token is left it is the offending one; when none is, the source
  ended too early.
-/
import ArchScript.Diagnostic
import ArchScript.Token

namespace ArchScript

/-! ## What was expected -/

/-- What an identifier is read for. -/
inductive NameRole where
  | actor
  | annotation
  | container
  | channelTarget
  | flowTarget
deriving DecidableEq

def NameRole.text : NameRole → String
  | actor => "actor identifier"
  | annotation => "annotation name"
  | container => "container identifier"
  | channelTarget => "channel target"
  | flowTarget => "data flow target"

/-- What a text literal is read for. -/
inductive TextRole where
  | actorCaption
  | noteText
  | propertyValue
  | containerName
  | stepMessage
deriving DecidableEq

def TextRole.text : TextRole → String
  | actorCaption => "actor caption"
  | noteText => "note text"
  | propertyValue => "property value"
  | containerName => "container name"
  | stepMessage => "step message"

/-- What stands in a pair of braces. -/
inductive BlockItem where
  | statement
  | property
  | step
deriving DecidableEq

def BlockItem.text : BlockItem → String
  | statement => "statement"
  | property => "property"
  | step => "scenario step"

/-- What may follow at a place where a program goes wrong. -/
inductive Expected where
  | statement
  | keyword (k : Keyword)
  | sign (s : Sign)
  | channelArrow
  | identifier (role : Option NameRole)
  | textLiteral (role : TextRole)
  | scenarioBody
  | itemOrEnd (item : BlockItem)
deriving DecidableEq

/-- Puts a written form into backquotes. -/
def quoted (s : String) : String := "`" ++ s ++ "`"

/-- The phrase after "expected"; a role follows the form it is a role of. -/
def Expected.text : Expected → String
  | statement => "statement"
  | keyword k => quoted k.text
  | sign s => quoted s.text
  | channelArrow => quoted Sign.arrow.text ++ " or " ++ quoted Sign.asyncArrow.text
  | identifier none => "identifier"
  | identifier (some role) => "identifier → expected " ++ role.text
  | textLiteral role => "text literal → expected " ++ role.text
  | scenarioBody => quoted Sign.leftBrace.text ++ " opening the scenario"
  | itemOrEnd item => item.text ++ " or " ++ quoted Sign.rightBrace.text

/-! ## Faults -/

/-- A place where the tokens do not fit. -/
structure SyntaxFault where
  expected : Expected
  /-- the tokens that were read of the construct that could not be finished -/
  construct : Tokens
  /-- the tokens that are left where reading stopped -/
  rest : Tokens
deriving DecidableEq

/-- The diagnostic of a source with the tokens `all` where something else was expected than what
`rest` begins with. Its label covers the construct as far as it was read, and the offending
token; at the end of a source with nothing of the construct it covers the whole source. -/
def syntaxDiagnostic (expected : String) (construct rest all : Tokens) : Diagnostic :=
  match rest with
  | t :: _ =>
    { code := some .unexpectedToken
      message := "unexpected token " ++ quoted t.value.render ++ ": expected " ++ expected
      labels :=
        [{ span := ((spanOfAll? construct).map fun s => s.union t.span).getD t.span
           message := ErrorCode.unexpectedToken.description
           isPrimary := true }]
      help := some "check the statement syntax near this token" }
  | [] =>
    { code := some .incompleteInput
      message := "incomplete input: expected " ++ expected
      labels :=
        [{ span := ((spanOfAll? construct).orElse fun _ => spanOfAll? all).getD .zero
           message := ErrorCode.incompleteInput.description
           isPrimary := true }]
      help := some "the source ended before this construct was complete" }

namespace SyntaxFault

/-- The fault of a construct that began at `start` and stopped at its end piece `rest`. -/
def stoppedAt (expected : Expected) (start rest : Tokens) : SyntaxFault :=
  { expected, construct := start.take (start.length - rest.length), rest }

/-- The diagnostic of a fault in the source with the tokens `all`. -/
def diagnostic (all : Tokens) (f : SyntaxFault) : Diagnostic :=
  syntaxDiagnostic f.expected.text f.construct f.rest all

end SyntaxFault

end ArchScript
