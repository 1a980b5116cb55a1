/-
  Documents from TOML text.

  This is the part of TOML that settings need: comments, headers, bare, quoted and dotted
  keys, inline tables, truth values, integers and strings on one line. An inline table may
  go over several lines and may end with a comma. Integers and depths are bounded
  (`isRepresentable`, `depthLimit`). Arrays, floats, dates, strings over several lines and
  arrays of tables are left out. `Toml.parse?` gives the document of a text, and nothing for a
  text that needs more or defines a key twice. A run takes any reader of configurations, and
  this is the one that the program brings along.
-/
import ArchScript.Document.Toml.Token
import ArchScript.Document.Toml.Tree

namespace ArchScript.Toml

/-! ## Keys and values -/

/-- What may stand in a key without quotes. -/
def isBareChar (c : Char) : Bool :=
  ('a' ≤ c && c ≤ 'z') || ('A' ≤ c && c ≤ 'Z') || ('0' ≤ c && c ≤ '9') || c == '_' || c == '-'

/-- The key that a token is. -/
def Token.key? : Token → Option String
  | .word letters => if letters.all isBareChar then some (String.ofList letters) else none
  | .quoted text => some text
  | _ => none

/-- The digits of a numeral; an underscore may stand between two of them. -/
def digits? (base : Nat) : List Char → Option (List Nat)
  | [] => none
  | [c] => (digit? base c).map fun d => [d]
  | c :: '_' :: cs => do return (← digit? base c) :: (← digits? base cs)
  | c :: cs => do return (← digit? base c) :: (← digits? base cs)

/-- The value of a decimal numeral, from after its sign. It begins with zero only if it is zero. -/
def decimal? (letters : List Char) : Option Nat :=
  match digits? 10 letters with
  | some (0 :: _ :: _) => none
  | ds => ds.map (ofDigits 10)

/-- The integer that a word is; only decimal numerals have a sign. -/
def integer? : List Char → Option Int
  | '+' :: letters => (decimal? letters).map fun n => (n : Int)
  | '-' :: letters => (decimal? letters).map fun n => -(n : Int)
  | '0' :: 'x' :: letters => (digits? 16 letters).map fun ds => (ofDigits 16 ds : Int)
  | '0' :: 'o' :: letters => (digits? 8 letters).map fun ds => (ofDigits 8 ds : Int)
  | '0' :: 'b' :: letters => (digits? 2 letters).map fun ds => (ofDigits 2 ds : Int)
  | letters => (decimal? letters).map fun n => (n : Int)

/-- An integer has 128 bits: it lies between the least with a sign and the greatest without
one. -/
def isRepresentable (n : Int) : Bool := -Int.pow 2 127 ≤ n && n < Int.pow 2 128

theorem isRepresentable_iff {n : Int} :
    isRepresentable n = true ↔ -Int.pow 2 127 ≤ n ∧ n < Int.pow 2 128 := by
  simp [isRepresentable]

/-- The value that a token is. -/
def Token.value? : Token → Option Document
  | .word ['t', 'r', 'u', 'e'] => some (.boolean true)
  | .word ['f', 'a', 'l', 's', 'e'] => some (.boolean false)
  | .word letters => ((integer? letters).filter isRepresentable).map .integer
  | .quoted text => some (.text text)
  | _ => none

/-! ## Reading -/

/-- The tokens that are left after something was read of `ts`. -/
abbrev Rest (ts : List Token) := { rest : List Token // rest.length < ts.length }

/-- How many keys a path can have, and how many inline tables can lie in one another. -/
def depthLimit : Nat := 80

/-- Reads keys with dots between them. -/
def readKeys : (ts : List Token) → Option (List String × Rest ts)
  | [] => none
  | t :: .dot :: ts => do
    let key ← t.key?
    let (path, ⟨rest, h⟩) ← readKeys ts
    return (key :: path, ⟨rest, by simp only [List.length_cons]; omega⟩)
  | t :: ts => do
    let key ← t.key?
    return ([key], ⟨ts, by simp⟩)

/-- Reads a path, which is not longer than `depthLimit`. -/
def readPath (ts : List Token) : Option (List String × Rest ts) :=
  (readKeys ts).filter fun p => p.1.length ≤ depthLimit

/-- Reads the sign `t`. -/
def readSign (t : Token) : (ts : List Token) → Option (Rest ts)
  | [] => none
  | u :: ts => if u = t then some ⟨ts, by simp⟩ else none

/-- Leaves out the ends of lines at the front. -/
def skipLines : List Token → List Token
  | .lineBreak :: ts => skipLines ts
  | ts => ts

theorem skipLines_length (ts : List Token) : (skipLines ts).length ≤ ts.length := by
  fun_induction skipLines ts with
  | case1 ts ih => exact Nat.le_succ_of_le ih
  | case2 ts => exact Nat.le_refl _

/-- Where an entry stands: on a line of its own, or in the braces of a table in which
`levels` more can lie in one another. -/
inductive Around where
  | line
  | braces (levels : Nat)

/-- How many inline tables can lie in one another from here on. -/
def Around.levels : Around → Nat
  | line => depthLimit
  | braces levels => levels

/-- Reads the sign between a key and its value. In braces it may stand on another line than
either of them. -/
def readEquals (around : Around) (ts : List Token) : Option (Rest ts) :=
  match around with
  | .line => readSign .equals ts
  | .braces _ => do
    let ⟨rest, h⟩ ← readSign .equals (skipLines ts)
    return ⟨skipLines rest, by
      have := skipLines_length ts
      have := skipLines_length rest
      omega⟩

mutual

/-- Reads `path = value`. -/
def readEntry (around : Around) (ts : List Token) : Option (List String × Node × Rest ts) := do
  let (path, ⟨ts₁, h₁⟩) ← readPath ts
  let ⟨ts₂, h₂⟩ ← readEquals around ts₁
  let (n, ⟨ts₃, h₃⟩) ← readValue around.levels ts₂
  return (path, n, ⟨ts₃, by omega⟩)
termination_by (ts.length, 0)
decreasing_by
  apply Prod.Lex.left
  omega

/-- Reads a value in which `levels` inline tables can lie in one another. -/
def readValue (levels : Nat) (ts : List Token) : Option (Node × Rest ts) :=
  match levels, ts with
  | _, [] => none
  | 0, .leftBrace :: _ => none
  | levels + 1, .leftBrace :: ts => do
    let (fields, ⟨rest, h⟩) ← readInline levels [] ts
    return (.table .inline fields, ⟨rest, Nat.lt_succ_of_lt h⟩)
  | _, t :: ts => t.value?.map fun d => (.value d, ⟨ts, by simp⟩)
termination_by (ts.length, 0)
decreasing_by
  apply Prod.Lex.left
  simp

/-- Reads the entries of an inline table and its closing brace; `fields` were read before. -/
def readInline (levels : Nat) (fields : Fields) (ts : List Token) : Option (Fields × Rest ts) :=
  have h₀ := skipLines_length ts
  match readSign .rightBrace (skipLines ts) with
  | some ⟨rest, h⟩ => some (fields, ⟨rest, by omega⟩)
  | none => do
    let (path, n, ⟨ts₁, h₁⟩) ← readEntry (.braces levels) (skipLines ts)
    let fields ← assign n path fields
    have h₂ := skipLines_length ts₁
    match readSign .comma (skipLines ts₁) with
    | some ⟨ts₂, h₃⟩ =>
      let (fields, ⟨rest, h₄⟩) ← readInline levels fields ts₂
      return (fields, ⟨rest, by omega⟩)
    | none =>
      let ⟨rest, h₃⟩ ← readSign .rightBrace (skipLines ts₁)
      return (fields, ⟨rest, by omega⟩)
termination_by (ts.length, 1)
decreasing_by
  · rcases Nat.lt_or_eq_of_le h₀ with h | h
    · exact Prod.Lex.left _ _ h
    · rw [h]
      exact Prod.Lex.right _ (by omega)
  · apply Prod.Lex.left
    omega

end

/-- Whether a line ends in front of the tokens. -/
def atLineEnd : List Token → Bool
  | [] => true
  | t :: _ => t == .lineBreak

/-- Reads the lines of a text. An entry belongs to the table of the last header, `here`. -/
def readLines (here : List String) (root : Fields) (ts : List Token) : Option Fields :=
  match ts with
  | [] => some root
  | .lineBreak :: ts => readLines here root ts
  | .leftBracket :: ts => do
    let (path, ⟨ts₁, _h₁⟩) ← readPath ts
    let ⟨rest, _h₂⟩ ← readSign .rightBracket ts₁
    let root ← openTable path root
    if atLineEnd rest then readLines path root rest else none
  | t :: ts => do
    let (path, n, ⟨rest, _h⟩) ← readEntry .line (t :: ts)
    let root ← modifyTable (assign n path) here root
    if atLineEnd rest then readLines here root rest else none
termination_by ts.length
decreasing_by
  · simp
  · simp only [List.length_cons]
    omega
  · exact _h

/-- A text without the mark that may stand at its start. -/
def withoutMark : List Char → List Char
  | '\ufeff' :: cs => cs
  | cs => cs

/-- The document of a text. -/
def parse? (source : String) : Option Document := do
  let tokens ← tokens? (withoutMark source.toList)
  let fields ← readLines [] [] tokens
  return .record (toRecord fields)

end ArchScript.Toml
