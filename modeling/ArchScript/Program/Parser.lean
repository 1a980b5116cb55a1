/-
  The parser of programs: from the lexemes of a source to the syntax tree.

  Every form of statement and of step has a parser, which commits behind the tokens that it is
  told by; up to there a failure lets the next form be tried. A parse that fails gives the
  diagnostic of the place where it stopped.
-/
import ArchScript.Program.Parser.Combinators
import ArchScript.Program.Reader.Clause

namespace ArchScript

namespace Parser

open Reader (name? textValue? channelKind? spanTo)

/-! ## Words, signs and values -/

/-- The kind of actor that a word announces. -/
def actorKind? : Token → Option ActorKind
  | .keyword .agent => some .agent
  | .keyword .store => some .store
  | .keyword .user => some .user
  | _ => none

/-- The kind of data flow that an arrow draws. -/
def flowKind? : Token → Option FlowKind
  | .sign .writeArrow => some .write
  | .sign .readArrow => some .read
  | _ => none

def propertyKey? (t : Token) : Option PropertyKey := (name? t).bind PropertyKey.ofText?

/-- Accepts one token only. -/
def only? (expected : Token) : Token → Option Unit :=
  fun t => if t = expected then some () else none

def keyword (k : Keyword) : Parser (Spanned Unit) :=
  labelled (quoted k.text) (pick (only? (.keyword k)))

def sign (s : Sign) : Parser (Spanned Unit) := labelled (quoted s.text) (pick (only? (.sign s)))

/-- The brace that opens a scenario. -/
def scenarioStart : Parser (Spanned Unit) :=
  labelled (quoted Sign.leftBrace.text ++ " opening the scenario") (pick (only? (.sign .leftBrace)))

/-- The brace that closes a block of `item`s. -/
def blockEnd (item : BlockItem) : Parser (Spanned Unit) :=
  labelled (item.text ++ " or " ++ quoted Sign.rightBrace.text) (pick (only? (.sign .rightBrace)))

def identifier : Parser (Spanned Ident) := labelled "identifier" (pick name?)

def identifierOf (role : NameRole) : Parser (Spanned Ident) := labelled role.text identifier

def text : Parser (Spanned String) := labelled "text literal" (pick textValue?)

def textOf (role : TextRole) : Parser (Spanned String) := labelled role.text text

def channelArrow : Parser (Spanned ChannelKind) :=
  labelled (quoted Sign.arrow.text ++ " or " ++ quoted Sign.asyncArrow.text) (pick channelKind?)

def propertyKey : Parser (Spanned PropertyKey) :=
  labelled "property key `color` or `prototype`" (pick propertyKey?)

/-! ## References to annotations -/

/-- `@name` -/
def reference : Parser (Spanned Ident) := do
  let _ ← sign .at
  identifierOf NameRole.annotation

/-- `is @A, @B` -/
def isClause : Parser (List (Spanned Ident)) := do
  let start ← get
  let _ ← keyword .is
  committed start (separated reference (sign .comma))

/-- `is @A, @B`, or no references -/
def maybeIsClause : Parser (List (Spanned Ident)) := (Option.getD · []) <$> maybe isClause

/-! ## Statements without braces -/

/-- `agent 'caption' as id is @A, @B` -/
def actorDecl : Parser (Spanned Statement) := do
  let start ← get
  let kind ← pick actorKind?
  committed start do
    let caption ← textOf .actorCaption
    let _ ← keyword .as
    let id ← identifierOf .actor
    let annotations ← maybeIsClause
    return ⟨.actor { kind, caption, id, annotations }, spanTo kind.span id.span annotations⟩

/-- `note for target: 'text'` -/
def noteDecl : Parser (Spanned Statement) := do
  let start ← get
  let word ← keyword .note
  committed start do
    let _ ← keyword .for
    let target ← identifier
    let _ ← sign .colon
    let text ← textOf .noteText
    return ⟨.note { target, text }, word.span.union text.span⟩

/-- `target is @A, @B` -/
def assignment : Parser (Spanned Statement) := do
  let target ← identifier
  let annotations ← isClause
  return ⟨.assignment { target, annotations }, spanTo target.span target.span annotations⟩

/-- `source -('text')-> target` or `source -('text')-\ target` -/
def call : Parser (Spanned Statement) := do
  let start ← get
  let source ← identifier
  let _ ← sign .dash
  let _ ← sign .leftParen
  committed start do
    let text ← maybe text
    let _ ← sign .rightParen
    let kind ← channelArrow
    let target ← identifierOf .channelTarget
    return ⟨.call { kind := kind.value, source, target, text }, source.span.union target.span⟩

/-- `left --> right` or `left <-- right` -/
def flow : Parser (Spanned Statement) := do
  let start ← get
  let left ← identifier
  let kind ← pick flowKind?
  committed start do
    let right ← identifierOf .flowTarget
    return ⟨.flow { kind := kind.value, left, right }, left.span.union right.span⟩

/-! ## Blocks -/

/-- Items in braces, each with a semicolon that may be left out. -/
def block {α : Type} (item : Parser α) : Parser (List α) :=
  many (terminated item (maybe (sign .semicolon)))

/-- `color: 'value'` -/
def property : Parser PropertyDecl := do
  let start ← get
  let key ← propertyKey
  committed start do
    let _ ← sign .colon
    let value ← textOf .propertyValue
    return { key, value }

/-- `@name` with properties in braces -/
def annotationDef : Parser (Spanned Statement) := do
  let start ← get
  let at_ ← sign .at
  committed start do
    let id ← identifierOf NameRole.annotation
    let _ ← sign .leftBrace
    let properties ← block property
    let close ← blockEnd .property
    return ⟨Statement.annotation { id, properties }, at_.span.union close.span⟩

/-- `source -('message')-> target` or `source -('message')-\ target` -/
def requestStep : Parser (Spanned StepDecl) := do
  let start ← get
  let source ← identifier
  let _ ← sign .dash
  let _ ← sign .leftParen
  committed start do
    let message ← maybe text
    let _ ← sign .rightParen
    let kind ← channelArrow
    let target ← identifier
    return ⟨.request kind.value source target message, source.span.union target.span⟩

/-- `requester --('message')--< responder` -/
def responseStep : Parser (Spanned StepDecl) := do
  let start ← get
  let requester ← identifier
  let _ ← sign .doubleDash
  committed start do
    let _ ← sign .leftParen
    let message ← maybe text
    let _ ← sign .rightParen
    let _ ← sign .responseArrow
    let responder ← identifier
    return ⟨.response requester responder message, requester.span.union responder.span⟩

/-- `left -'message'-> right` -/
def writeStep : Parser (Spanned StepDecl) := do
  let start ← get
  let left ← identifier
  let _ ← sign .dash
  let message ← text
  committed start do
    let _ ← sign .arrow
    let right ← identifier
    return ⟨.transfer .write left right message, left.span.union right.span⟩

/-- `left <-'message'- right` -/
def readStep : Parser (Spanned StepDecl) := do
  let start ← get
  let left ← identifier
  let _ ← sign .leftArrow
  committed start do
    let message ← textOf .stepMessage
    let _ ← sign .dash
    let right ← identifier
    return ⟨.transfer .read left right message, left.span.union right.span⟩

def step : Parser (Spanned StepDecl) :=
  alt requestStep <| alt writeStep <| alt responseStep readStep

/-- `'name'` with steps in braces -/
def scenarioDef : Parser (Spanned Statement) := do
  let start ← get
  let name ← text
  committed start do
    let _ ← scenarioStart
    let steps ← block step
    let close ← blockEnd .step
    return ⟨.scenario { name, steps }, name.span.union close.span⟩

/-! ## Programs -/

/-- The head of a container from after its first word, and the brace. -/
def containerHead : Parser ContainerHead := do
  let name ← textOf .containerName
  let _ ← keyword .as
  let id ← identifierOf .container
  let _ ← sign .leftBrace
  return { name, id }

/-- `container 'name' as id` with statements in braces, for which `item` stands -/
def containerDef (item : Parser (Spanned Statement)) : Parser (Spanned Statement) := do
  let start ← get
  let word ← keyword .container
  committed start do
    let head ← containerHead
    let body ← block item
    let close ← blockEnd .statement
    return ⟨.container head body, word.span.union close.span⟩

/-- A statement, with at most `depth` statements in one another. -/
def statement : Nat → Parser (Spanned Statement)
  | 0 => throw .mild
  | depth + 1 =>
    alt actorDecl <| alt noteDecl <| alt (containerDef (statement depth)) <| alt annotationDef <|
      alt scenarioDef <| alt assignment <| alt call flow

/-- The semicolon that a statement of a program must have. -/
def requiredSemicolon : Parser (Spanned Unit) := do
  let start ← get
  committed start (sign .semicolon)

/-- Statements, each with its semicolon, up to the end of the source. -/
def program (depth : Nat) : Parser Program := do
  let statements ← many (terminated (statement depth) requiredSemicolon)
  skipLayout
  match ← get with
  | [] => return statements
  | left => throw { isFinal := true, notes := [.expected "statement", .began left.length] }

end Parser

/-- The diagnostic of a failure in a parse of `all` that stopped at `rest`. -/
def ParseFailure.diagnostic (all rest : Lexemes) (e : ParseFailure) : Diagnostic :=
  let stop := all.length - rest.length
  let start := min (e.began?.elim stop fun remaining => all.length - remaining) stop
  let construct := (all.take stop).drop start
  syntaxDiagnostic e.expectedText (meaningful construct) (meaningful (all.drop stop))
    (meaningful all)

/-- Parses a source. No more statements stand in one another than there are lexemes. -/
def Program.parse (lexemes : Lexemes) : Except Diagnostic Program :=
  match Parser.program lexemes.length lexemes with
  | .ok p _ => .ok p
  | .error e rest => .error (e.diagnostic lexemes rest)

end ArchScript
