/-
  Documents as JSON text.

  Two layouts share one writer: the compact one writes no layout at all, the pretty one
  puts every item and field on a line of its own, indented by two spaces a level, and a
  space after each colon. Empty lists and records stay on their line.
-/
import ArchScript.Document

namespace ArchScript.Json

/-! ## Strings -/

/-- The hexadecimal digit of `n`, in lower case. -/
def hexDigit (n : Nat) : Char :=
  if n < 10 then Char.ofNat ('0'.toNat + n) else Char.ofNat ('a'.toNat + (n - 10))

/-- A character inside a string. Quotes, backslashes and control characters are escaped,
the common control characters by a letter and the others by their code. -/
def escapeChar (c : Char) : List Char :=
  if c = '"' then ['\\', '"']
  else if c = '\\' then ['\\', '\\']
  else if c = '\x08' then ['\\', 'b']
  else if c = '\x0c' then ['\\', 'f']
  else if c = '\n' then ['\\', 'n']
  else if c = '\r' then ['\\', 'r']
  else if c = '\t' then ['\\', 't']
  else if c.toNat < 0x20 then
    ['\\', 'u', '0', '0', hexDigit (c.toNat / 16), hexDigit (c.toNat % 16)]
  else [c]

/-- A string in quotes. -/
def quote (s : String) : List Char := '"' :: s.toList.flatMap escapeChar ++ ['"']

/-- What is written for a character is never empty and holds no control character. -/
theorem escapeChar_ne_nil (c : Char) : escapeChar c ≠ [] := by
  unfold escapeChar
  repeat' split
  all_goals simp

/-! ## Layouts -/

/-- How a text is laid out. -/
inductive Layout where
  | compact
  | pretty
deriving DecidableEq

namespace Layout

/-- The start of a line at a depth. -/
def lineBreak : Layout → Nat → List Char
  | compact, _ => []
  | pretty, depth => '\n' :: List.replicate (2 * depth) ' '

/-- What stands between the name of a field and its value. -/
def colon : Layout → List Char
  | compact => [':']
  | pretty => [':', ' ']

end Layout

/-! ## Values -/

mutual

/-- Writes a document at a depth. -/
def write (layout : Layout) (depth : Nat) : Document → List Char
  | .null => ['n', 'u', 'l', 'l']
  | .boolean true => ['t', 'r', 'u', 'e']
  | .boolean false => ['f', 'a', 'l', 's', 'e']
  | .integer n => (toString n).toList
  | .text s => quote s
  | .list [] => ['[', ']']
  | .list (d :: ds) =>
    '[' :: layout.lineBreak (depth + 1) ++ write layout (depth + 1) d ++
      writeItems layout (depth + 1) ds ++ layout.lineBreak depth ++ [']']
  | .record [] => ['{', '}']
  | .record ((name, d) :: fs) =>
    '{' :: layout.lineBreak (depth + 1) ++ quote name ++ layout.colon ++
      write layout (depth + 1) d ++ writeFields layout (depth + 1) fs ++
      layout.lineBreak depth ++ ['}']

/-- Writes the items after the first. -/
def writeItems (layout : Layout) (depth : Nat) : List Document → List Char
  | [] => []
  | d :: ds => ',' :: layout.lineBreak depth ++ write layout depth d ++ writeItems layout depth ds

/-- Writes the fields after the first. -/
def writeFields (layout : Layout) (depth : Nat) : List (String × Document) → List Char
  | [] => []
  | (name, d) :: fs =>
    ',' :: layout.lineBreak depth ++ quote name ++ layout.colon ++ write layout depth d ++
      writeFields layout depth fs

end

/-- The JSON text of a document. -/
def render (layout : Layout) (d : Document) : String := String.ofList (write layout 0 d)

end ArchScript.Json
