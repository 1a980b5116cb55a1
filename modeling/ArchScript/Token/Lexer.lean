/-
  The lexer: cuts a source into lexemes and finds every mistake on the way.

  `readFront` reads the front of the remaining characters and finds one lexeme or one fault.
  What it takes is never empty and what it leaves is the rest (`Reading.split`,
  `Reading.progress`), so `scan` ends, and loses and repeats no character. A fault does not
  stop it: a whole source is read in one pass, and `tokenize` gives either the lexemes
  or all faults.
-/
import ArchScript.Diagnostic
import ArchScript.Text.Blank
import ArchScript.Text.Bytes
import ArchScript.Token

namespace ArchScript

/-! ## Faults -/

/-- A mistake in the letters of a source. -/
inductive LexicalFault where
  | unterminatedText
  | unexpectedCharacter
  | invalidEscape
deriving DecidableEq

namespace LexicalFault

def code : LexicalFault → ErrorCode
  | unterminatedText => .unterminatedText
  | unexpectedCharacter => .unexpectedCharacter
  | invalidEscape => .invalidEscape

def help? : LexicalFault → Option String
  | unterminatedText => some "close the text with `'` on the same line"
  | unexpectedCharacter => none
  | invalidEscape => some "valid escapes are `\\'`, `\\\\`, `\\n` and `\\t`"

/-- The diagnostic of a fault: message and label both describe the code. -/
def diagnostic (f : Spanned LexicalFault) : Diagnostic where
  code := some f.value.code
  message := f.value.code.description
  labels := [{ span := f.span, message := f.value.code.description, isPrimary := true }]
  help := f.value.help?

end LexicalFault

namespace Lexer

/-! ## Words -/

def isLetter (c : Char) : Bool := ('a' ≤ c && c ≤ 'z') || ('A' ≤ c && c ≤ 'Z')

def isDigit (c : Char) : Bool := '0' ≤ c && c ≤ '9'

/-- Words begin with an ASCII letter or an underscore. -/
def isWordStart (c : Char) : Bool := isLetter c || c == '_'

/-- Words go on with ASCII letters, digits and underscores. -/
def isWordChar (c : Char) : Bool := isLetter c || isDigit c || c == '_'

/-- A whole word is a keyword when it is reserved, and an identifier otherwise. -/
def wordToken (word : List Char) : Token :=
  match Keyword.ofText? (String.ofList word) with
  | some k => .keyword k
  | none => .identifier (String.ofList word)

/-! ## Text literals -/

/-- The character that a backslash and `c` stand for. -/
def escaped? (c : Char) : Option Char :=
  if c = '\'' then some '\''
  else if c = '\\' then some '\\'
  else if c = 'n' then some '\n'
  else if c = 't' then some '\t'
  else none

/-- A text literal ends at the latest where its line ends. -/
def isLineEnd (c : Char) : Bool := c == '\n' || c == '\r'

/-- How the inside of a text literal ends. -/
inductive TextEnd where
  /-- at the closing quote -/
  | closed
  /-- at the end of the line or of the source -/
  | unterminated
  /-- after a backslash that begins no escape -/
  | badEscape
deriving DecidableEq

/-- The inside of a text literal: how it ends, the text it stands for, the characters
that were read and the rest. -/
structure TextScan where
  ending : TextEnd
  value : List Char
  taken : List Char
  rest : List Char

/-- Puts the characters `read`, which stand for `v`, in front. -/
def TextScan.push (read : List Char) (v : Char) (s : TextScan) : TextScan :=
  { s with value := v :: s.value, taken := read ++ s.taken }

/-- Reads a text literal from after its opening quote; a closing quote is taken with it. -/
def scanText : List Char → TextScan
  | [] => { ending := .unterminated, value := [], taken := [], rest := [] }
  | '\'' :: cs => { ending := .closed, value := [], taken := ['\''], rest := cs }
  | '\\' :: [] => { ending := .badEscape, value := [], taken := ['\\'], rest := [] }
  | '\\' :: e :: cs =>
    match escaped? e with
    | some v => (scanText cs).push ['\\', e] v
    | none => { ending := .badEscape, value := [], taken := ['\\'], rest := e :: cs }
  | c :: cs =>
    if isLineEnd c then { ending := .unterminated, value := [], taken := [], rest := c :: cs }
    else (scanText cs).push [c] c

theorem scanText_split (cs : List Char) : (scanText cs).taken ++ (scanText cs).rest = cs := by
  fun_induction scanText cs <;> simp_all [TextScan.push]

/-- After a bad escape: the characters up to the line break, or through the next quote. -/
def brokenText : List Char → List Char
  | [] => []
  | c :: cs =>
    if c = '\n' then []
    else if c = '\'' then [c]
    else c :: brokenText cs

/-- What `brokenText` leaves. -/
def afterBrokenText : List Char → List Char
  | [] => []
  | c :: cs =>
    if c = '\n' then c :: cs
    else if c = '\'' then cs
    else afterBrokenText cs

theorem brokenText_split (cs : List Char) : brokenText cs ++ afterBrokenText cs = cs := by
  fun_induction brokenText cs <;> simp_all [afterBrokenText]

/-! ## The front of the source -/

/-- What stands at the front of the source. -/
inductive Finding where
  | lexeme (l : Lexeme)
  | fault (f : LexicalFault)
deriving DecidableEq

/-- What reading the front of the characters `cs` gives `cs`. -/
structure Reading (cs : List Char) where
  /-- what was found, with its span -/
  found : Spanned Finding
  /-- the characters that are used up -/
  taken : List Char
  rest : List Char
  split : taken ++ rest = cs
  progress : taken ≠ []

theorem Reading.rest_shorter {cs : List Char} (s : Reading cs) : s.rest.length < cs.length := by
  have h := congrArg List.length s.split
  have := List.length_pos_iff.2 s.progress
  simp only [List.length_append] at h
  omega

/-- A lexeme that begins at `pos` with `c` and goes on with the characters `more`. -/
def Reading.ofLexeme (pos : Nat) (l : Lexeme) (c : Char) (more rest : List Char) {cs : List Char}
    (h : c :: more ++ rest = cs) : Reading cs where
  found := { value := .lexeme l, span := .ofSize pos (Text.byteLength (c :: more)) }
  taken := c :: more
  rest := rest
  split := h
  progress := by simp

/-- The first sign that the characters begin with. -/
def sign? (cs : List Char) : Option Sign := Sign.all.find? fun s => s.spelling.isPrefixOf cs

theorem spelling_append_of_sign? {cs : List Char} {s : Sign} (h : sign? cs = some s) :
    s.spelling ++ cs.drop s.spelling.length = cs := by
  have hp : s.spelling <+: cs := by simpa using List.find?_some h
  obtain ⟨r, rfl⟩ := hp
  simp

/-- A text literal whose opening quote stands at `pos`. -/
def readText (pos : Nat) (cs : List Char) : Reading ('\'' :: cs) :=
  let s := scanText cs
  have hs : s.taken ++ s.rest = cs := scanText_split cs
  let stop := pos + 1 + Text.byteLength s.taken
  match s.ending with
  | .closed =>
    .ofLexeme pos (.token (.text (String.ofList s.value))) '\'' s.taken s.rest (by simp [hs])
  | .unterminated =>
    { found := { value := .fault .unterminatedText, span := .ofBounds pos stop }
      taken := '\'' :: (s.taken ++ s.rest.take 1)
      rest := s.rest.drop 1
      split := by rw [List.cons_append, List.append_assoc, List.take_append_drop, hs]
      progress := by simp }
  | .badEscape =>
    { found := { value := .fault .invalidEscape, span := .ofBounds (stop - 1) stop }
      taken := '\'' :: (s.taken ++ brokenText s.rest)
      rest := afterBrokenText s.rest
      split := by simp [brokenText_split, hs]
      progress := by simp }

/-- A maximal run of characters of a class, from a first character on. -/
def readRun (pos : Nat) (p : Char → Bool) (lexeme : List Char → Lexeme) (c : Char)
    (cs : List Char) : Reading (c :: cs) :=
  .ofLexeme pos (lexeme (c :: cs.takeWhile p)) c (cs.takeWhile p) (cs.dropWhile p)
    (by simp [List.takeWhile_append_dropWhile])

/-- A line comment from its two slashes at `pos` up to the line break. -/
def readComment (pos : Nat) (cs : List Char) : Reading ('/' :: '/' :: cs) :=
  .ofLexeme pos (.comment (String.ofList (cs.takeWhile (· != '\n')))) '/'
    ('/' :: cs.takeWhile (· != '\n')) (cs.dropWhile (· != '\n'))
    (by simp [List.takeWhile_append_dropWhile])

/-- A sign, or the fault of a character that begins no lexeme. -/
def readSign (pos : Nat) (c : Char) (cs : List Char) : Reading (c :: cs) :=
  match h : sign? (c :: cs) with
  | some s =>
    { found :=
        { value := .lexeme (.token (.sign s))
          span := .ofSize pos (Text.byteLength s.spelling) }
      taken := s.spelling
      rest := (c :: cs).drop s.spelling.length
      split := spelling_append_of_sign? h
      progress := s.spelling_ne_nil }
  | none =>
    { found := { value := .fault .unexpectedCharacter, span := .ofSize pos 1 }
      taken := [c]
      rest := cs
      split := rfl
      progress := by simp }

/-- Reads what stands at offset `pos`, at the front of a source that is not at its end. -/
def readFront (pos : Nat) : (c : Char) → (cs : List Char) → Reading (c :: cs)
  | '/', '/' :: cs => readComment pos cs
  | '\'', cs => readText pos cs
  | c, cs =>
    if isWordStart c then readRun pos isWordChar (fun w => .token (wordToken w)) c cs
    else if c = '\n' then .ofLexeme pos .lineBreak c [] cs rfl
    else if Text.isBlank c then
      readRun pos (fun d => Text.isBlank d && d != '\n') (fun _ => .blanks) c cs
    else readSign pos c cs

/-! ## The whole source -/

/-- Everything found in `cs`, which begins at offset `pos`. -/
def scan (pos : Nat) : List Char → List (Spanned Finding)
  | [] => []
  | c :: cs =>
    let r := readFront pos c cs
    r.found :: scan (pos + Text.byteLength r.taken) r.rest
termination_by cs => cs.length
decreasing_by exact Reading.rest_shorter _

/-- The lexemes among the findings. -/
def lexemes (fs : List (Spanned Finding)) : List (Spanned Lexeme) :=
  fs.filterMap fun f =>
    match f.value with
    | .lexeme l => some { value := l, span := f.span }
    | .fault _ => none

/-- The faults among the findings. -/
def faults (fs : List (Spanned Finding)) : List (Spanned LexicalFault) :=
  fs.filterMap fun f =>
    match f.value with
    | .lexeme _ => none
    | .fault x => some { value := x, span := f.span }

end Lexer

/-- Cuts a source into its lexemes, or gives all its lexical faults in order. -/
def tokenize (source : String) : Except (List (Spanned LexicalFault)) (List (Spanned Lexeme)) :=
  let found := Lexer.scan 0 source.toList
  match Lexer.faults found with
  | [] => .ok (Lexer.lexemes found)
  | faults => .error faults

end ArchScript
