/-
  Parsers of lexemes, and how larger ones are put together.

  A parser takes lexemes from the front of those that are left, layout among them; the layout
  before a token is passed over where the token is looked at (`pick`). A parser that fails says
  whether it is final, and stays where it stopped: a mild failure is undone by whoever offers
  another way (`alt`, `maybe`, `many`), a final one ends the parse. A construct that has been
  recognised makes every failure in it final (`committed`) and notes where it began, as the
  number of lexemes that were left there.
-/
import ArchScript.Token

namespace ArchScript

/-- A source as the parser gets it. -/
abbrev Lexemes := List (Spanned Lexeme)

/-- What a parser notes about a failure that leaves it. -/
inductive ParseNote where
  | expected (label : String)
  /-- the construct began where `remaining` lexemes were left -/
  | began (remaining : Nat)
deriving DecidableEq

structure ParseFailure where
  /-- whether no other form is to be tried -/
  isFinal : Bool
  /-- from the inside out -/
  notes : List ParseNote
deriving DecidableEq

namespace ParseFailure

/-- The failure of a form that is not there. -/
def mild : ParseFailure := { isFinal := false, notes := [] }

/-- The failure of a parser that expects what `label` says. -/
def labelled (label : String) (e : ParseFailure) : ParseFailure :=
  { e with notes := e.notes ++ [.expected label] }

/-- The failure of a construct that is bound to its form and began at `start`. -/
def committed (start : Lexemes) (e : ParseFailure) : ParseFailure :=
  { isFinal := true, notes := e.notes ++ [.began start.length] }

/-- What was expected. -/
def labels (e : ParseFailure) : List String :=
  e.notes.filterMap fun
    | .expected label => some label
    | .began _ => none

/-- The phrase after "expected"; what a form is read for follows the form. -/
def expectedText (e : ParseFailure) : String :=
  match e.labels with
  | [] => "statement"
  | labels => " → expected ".intercalate labels

/-- The number of lexemes that were left where the innermost construct began. -/
def began? (e : ParseFailure) : Option Nat :=
  e.notes.findSome? fun
    | .expected _ => none
    | .began remaining => some remaining

end ParseFailure

abbrev Parser := EStateM ParseFailure Lexemes

namespace Parser

variable {α β : Type}

/-- What was parsed or how it failed, and the lexemes that are left. -/
abbrev Outcome := EStateM.Result ParseFailure Lexemes

/-! ## Single tokens -/

/-- The lexemes from the next token on. -/
def onward (ls : Lexemes) : Lexemes := ls.dropWhile fun l => l.value.token?.isNone

/-- Passes over layout. -/
def skipLayout : Parser Unit := modify onward

/-- Takes the next token if `accepts` does, and no token otherwise. -/
def pick (accepts : Token → Option α) : Parser (Spanned α) := do
  skipLayout
  match ← get with
  | ⟨.token t, span⟩ :: rest =>
    match accepts t with
    | some a =>
      set rest
      return ⟨a, span⟩
    | none => throw .mild
  | _ => throw .mild

/-! ## Failures -/

/-- Says what is expected where `p` fails. -/
def labelled (label : String) (p : Parser α) : Parser α := fun ls =>
  match p ls with
  | .ok a rest => .ok a rest
  | .error e rest => .error (e.labelled label) rest

/-- Makes the failures of `p` final: it is in a construct that began at `start`. -/
def committed (start : Lexemes) (p : Parser α) : Parser α := fun ls =>
  match p ls with
  | .ok a rest => .ok a rest
  | .error e rest => .error (e.committed start) rest

/-! ## Choice and repetition -/

/-- The first of two forms that is there. -/
def alt (p q : Parser α) : Parser α := fun ls =>
  match p ls with
  | .ok a rest => .ok a rest
  | .error e rest => if e.isFinal then .error e rest else q ls

/-- A form that may be left out. -/
def maybe (p : Parser α) : Parser (Option α) := fun ls =>
  match p ls with
  | .ok a rest => .ok (some a) rest
  | .error e rest => if e.isFinal then .error e rest else .ok none ls

/-- `p` from `ls` on, as often as it is there. A `p` that takes nothing would be there for ever. -/
def manyFrom (p : Parser α) (ls : Lexemes) : Outcome (List α) :=
  match p ls with
  | .ok a rest =>
    if rest.length < ls.length then
      match manyFrom p rest with
      | .ok as rest => .ok (a :: as) rest
      | .error e rest => .error e rest
    else .error { isFinal := true, notes := [] } rest
  | .error e rest => if e.isFinal then .error e rest else .ok [] ls
termination_by ls.length

/-- `p` as often as it is there. -/
def many (p : Parser α) : Parser (List α) := manyFrom p

/-- `p` with `q` behind it. -/
def terminated (p : Parser α) (q : Parser β) : Parser α := do
  let a ← p
  let _ ← q
  return a

/-- `p` once or more, with separators between; a separator without `p` behind it is left. -/
def separated (p : Parser α) (separator : Parser β) : Parser (List α) := do
  let a ← p
  let as ← many do
    let _ ← separator
    p
  return a :: as

end Parser

end ArchScript
