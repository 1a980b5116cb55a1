/-
  The tokens of TOML text.

  Blanks and comments separate tokens and are dropped; the ends of lines stay, because they
  end an entry. A word is whatever stands between blanks and signs: whether it is a key or a
  value is decided where it is used.
-/

namespace ArchScript.Toml

/-- A token: a word, a string, a sign or the end of a line. -/
inductive Token where
  | word (letters : List Char)
  /-- a string in quotes of either kind, with its escapes resolved -/
  | quoted (text : String)
  | equals
  | dot
  | comma
  | leftBrace
  | rightBrace
  | leftBracket
  | rightBracket
  | lineBreak
deriving DecidableEq

/-! ## Characters -/

/-- The control characters, which stand in no string and no comment; a tab is none of them. -/
def isControl (c : Char) : Bool := (c.toNat < 0x20 && c != '\t') || c.toNat == 0x7F

/-- The sign that a character is. -/
def sign? (c : Char) : Option Token :=
  if c = '=' then some .equals
  else if c = '.' then some .dot
  else if c = ',' then some .comma
  else if c = '\x7b' then some .leftBrace
  else if c = '\x7d' then some .rightBrace
  else if c = '[' then some .leftBracket
  else if c = ']' then some .rightBracket
  else none

/-- What may stand inside a word. -/
def isWordChar (c : Char) : Bool :=
  !isControl c && c != ' ' && c != '\t' && c != '"' && c != '\'' && c != '#' && (sign? c).isNone

/-! ## Numerals -/

/-- The value of a digit in a base up to sixteen; letters of either case go on after `9`. -/
def digit? (base : Nat) (c : Char) : Option Nat :=
  let value :=
    if '0' ≤ c && c ≤ '9' then c.toNat - '0'.toNat
    else if 'a' ≤ c && c ≤ 'f' then c.toNat - 'a'.toNat + 10
    else if 'A' ≤ c && c ≤ 'F' then c.toNat - 'A'.toNat + 10
    else base
  if value < base then some value else none

/-- The value of digits, the most significant first. -/
def ofDigits (base : Nat) (ds : List Nat) : Nat := ds.foldl (fun n d => base * n + d) 0

/-! ## Strings -/

/-- The character whose code is written with the first `count` characters, and the rest. -/
def codeEscape? (count : Nat) (cs : List Char) : Option (Char × List Char) := do
  let digits ← (cs.take count).mapM (digit? 16)
  if digits.length = count ∧ 0 < count ∧ (ofDigits 16 digits).isValidChar then
    return (Char.ofNat (ofDigits 16 digits), cs.drop count)
  else none

/-- The character that a single letter after a backslash stands for. -/
def letterEscape? (c : Char) : Option Char :=
  if c = 'b' then some '\x08'
  else if c = 't' then some '\t'
  else if c = 'n' then some '\n'
  else if c = 'f' then some '\x0c'
  else if c = 'r' then some '\r'
  else if c = 'e' then some '\x1b'
  else if c = '"' ∨ c = '\\' then some c
  else none

/-- The number of digits that a letter after a backslash calls for. -/
def codeWidth? (c : Char) : Option Nat :=
  if c = 'x' then some 2
  else if c = 'u' then some 4
  else if c = 'U' then some 8
  else none

/-- The character that the text after a backslash stands for, and the rest. -/
def escape? : List Char → Option (Char × List Char)
  | [] => none
  | c :: cs =>
    match letterEscape? c with
    | some d => some (d, cs)
    | none => (codeWidth? c).bind fun count => codeEscape? count cs

theorem codeEscape?_length {count : Nat} {cs rest : List Char} {c : Char}
    (h : codeEscape? count cs = some (c, rest)) : rest.length ≤ cs.length := by
  simp only [codeEscape?, Option.bind_eq_bind, Option.bind_eq_some_iff] at h
  obtain ⟨_, _, h⟩ := h
  split at h
  · cases h
    simp
  · cases h

theorem escape?_length {cs rest : List Char} {c : Char} (h : escape? cs = some (c, rest)) :
    rest.length ≤ cs.length := by
  cases cs with
  | nil => cases h
  | cons d cs =>
    simp only [escape?] at h
    split at h
    · cases h
      simp
    · obtain ⟨_, _, h⟩ := Option.bind_eq_some_iff.1 h
      exact Nat.le_succ_of_le (codeEscape?_length h)

/-- The inside of a string in double quotes from after the first quote, and what follows the
last. -/
def basicString : List Char → Option (List Char × List Char)
  | [] => none
  | '"' :: cs => some ([], cs)
  | '\\' :: cs =>
    match _h : escape? cs with
    | none => none
    | some (c, rest) => (basicString rest).map fun s => (c :: s.1, s.2)
  | c :: cs => if isControl c then none else (basicString cs).map fun s => (c :: s.1, s.2)
termination_by cs => cs.length
decreasing_by
  · have := escape?_length _h
    simp only [List.length_cons]
    omega
  · simp

/-- The inside of a string in single quotes, which knows no escapes, and what follows it. -/
def literalString : List Char → Option (List Char × List Char)
  | [] => none
  | c :: cs =>
    if c = '\'' then some ([], cs)
    else if isControl c then none
    else (literalString cs).map fun s => (c :: s.1, s.2)

theorem basicString_length {cs text rest : List Char} (h : basicString cs = some (text, rest)) :
    rest.length < cs.length := by
  fun_induction basicString cs generalizing text with
  | case1 => cases h
  | case2 =>
    cases h
    simp
  | case3 => cases h
  | case4 cs c after he ih =>
    simp only [Option.map_eq_some_iff] at h
    obtain ⟨_, hs, h⟩ := h
    cases h
    have := ih hs
    have := escape?_length he
    simp only [List.length_cons]
    omega
  | case5 => cases h
  | case6 c cs _ _ _ ih =>
    simp only [Option.map_eq_some_iff] at h
    obtain ⟨_, hs, h⟩ := h
    cases h
    exact Nat.lt_succ_of_lt (ih hs)

theorem literalString_length {cs text rest : List Char}
    (h : literalString cs = some (text, rest)) : rest.length < cs.length := by
  fun_induction literalString cs generalizing text with
  | case1 => cases h
  | case2 =>
    cases h
    simp
  | case3 => cases h
  | case4 c cs _ _ ih =>
    simp only [Option.map_eq_some_iff] at h
    obtain ⟨_, hs, h⟩ := h
    cases h
    exact Nat.lt_succ_of_lt (ih hs)

/-! ## The whole text -/

theorem length_dropWhile_le (p : Char → Bool) (cs : List Char) :
    (cs.dropWhile p).length ≤ cs.length := (List.dropWhile_sublist p).length_le

/-- The tokens of a text; a string that does not end, a wrong escape or a control character
makes it no text of this format. -/
def tokens? : List Char → Option (List Token)
  | [] => some []
  | '\r' :: '\n' :: cs => (tokens? cs).map (.lineBreak :: ·)
  | c :: cs =>
    if c = ' ' ∨ c = '\t' then tokens? cs
    else if c = '\n' then (tokens? cs).map (.lineBreak :: ·)
    else if c = '#' then tokens? (cs.dropWhile fun d => !isControl d)
    else if c = '"' then
      match _h : basicString cs with
      | none => none
      | some (text, rest) => (tokens? rest).map (.quoted (String.ofList text) :: ·)
    else if c = '\'' then
      match _h : literalString cs with
      | none => none
      | some (text, rest) => (tokens? rest).map (.quoted (String.ofList text) :: ·)
    else if isControl c then none
    else
      match sign? c with
      | some sign => (tokens? cs).map (sign :: ·)
      | none =>
        (tokens? (cs.dropWhile isWordChar)).map (.word (c :: cs.takeWhile isWordChar) :: ·)
termination_by cs => cs.length
decreasing_by
  all_goals simp only [List.length_cons]
  · omega
  · omega
  · omega
  · exact Nat.lt_succ_of_le (length_dropWhile_le _ cs)
  · exact Nat.lt_succ_of_lt (basicString_length _h)
  · exact Nat.lt_succ_of_lt (literalString_length _h)
  · omega
  · exact Nat.lt_succ_of_le (length_dropWhile_le _ cs)

end ArchScript.Toml
