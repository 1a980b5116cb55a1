/-
  Tokens: the words and signs of the language, and the lexemes a source is cut into.

  A lexeme is a token or layout (comments, blanks, line breaks). Layout carries no
  meaning: the parser passes over it, and `meaningful` keeps the tokens alone.
-/
import ArchScript.Span

namespace ArchScript

/-! ## Reserved words -/

/-- The reserved words. -/
inductive Keyword where
  | agent
  | store
  | user
  | as
  | note
  | for
  | is
  | container
deriving DecidableEq

namespace Keyword

def all : List Keyword := [agent, store, user, as, note, .for, is, container]

theorem mem_all (k : Keyword) : k ∈ all := by cases k <;> decide

def text : Keyword → String
  | agent => "agent"
  | store => "store"
  | user => "user"
  | as => "as"
  | note => "note"
  | .for => "for"
  | is => "is"
  | container => "container"

/-- The reserved word that is written `s`. -/
def ofText? (s : String) : Option Keyword := all.find? fun k => k.text == s

theorem ofText?_text (k : Keyword) : ofText? k.text = some k := by cases k <;> decide

end Keyword

/-! ## Signs -/

/-- The arrows, dashes and punctuation marks. -/
inductive Sign where
  | writeArrow
  | responseArrow
  | readArrow
  | arrow
  | leftArrow
  | doubleDash
  | asyncArrow
  | dash
  | leftParen
  | rightParen
  | leftBrace
  | rightBrace
  | at
  | colon
  | semicolon
  | comma
deriving DecidableEq

namespace Sign

/-- All signs; where one begins another the longer stands first. -/
def all : List Sign :=
  [writeArrow, responseArrow, readArrow, arrow, leftArrow, doubleDash, asyncArrow, dash,
    leftParen, rightParen, leftBrace, rightBrace, .at, colon, semicolon, comma]

theorem mem_all (s : Sign) : s ∈ all := by cases s <;> decide

/-- The characters of a sign. -/
def spelling : Sign → List Char
  | writeArrow => ['-', '-', '>']
  | responseArrow => ['-', '-', '<']
  | readArrow => ['<', '-', '-']
  | arrow => ['-', '>']
  | leftArrow => ['<', '-']
  | doubleDash => ['-', '-']
  | asyncArrow => ['-', '\\']
  | dash => ['-']
  | leftParen => ['(']
  | rightParen => [')']
  | leftBrace => ['{']
  | rightBrace => ['}']
  | .at => ['@']
  | colon => [':']
  | semicolon => [';']
  | comma => [',']

def text (s : Sign) : String := String.ofList s.spelling

theorem spelling_ne_nil (s : Sign) : s.spelling ≠ [] := by cases s <;> decide

theorem spelling_injective {s t : Sign} (h : s.spelling = t.spelling) : s = t := by
  revert h
  cases s <;> cases t <;> decide

end Sign

/-! ## Tokens and lexemes -/

/-- The smallest pieces that mean something. -/
inductive Token where
  | keyword (k : Keyword)
  | identifier (name : String)
  | text (value : String)
  | sign (s : Sign)
deriving DecidableEq

/-- A token as messages quote it; a text literal with its escapes resolved. -/
def Token.render : Token → String
  | keyword k => k.text
  | identifier name => name
  | text value => "'" ++ value ++ "'"
  | sign s => s.text

/-- A piece of the source: a token or layout. -/
inductive Lexeme where
  | token (t : Token)
  | comment (text : String)
  | blanks
  | lineBreak
deriving DecidableEq

/-- The token of a lexeme; `none` for layout. -/
def Lexeme.token? : Lexeme → Option Token
  | token t => some t
  | comment _ => none
  | blanks => none
  | lineBreak => none

/-- A source without its layout. -/
abbrev Tokens := List (Spanned Token)

/-- The tokens among the lexemes, in order. -/
def meaningful (lexemes : List (Spanned Lexeme)) : Tokens :=
  lexemes.filterMap fun l => l.value.token?.map fun t => { value := t, span := l.span }

end ArchScript
