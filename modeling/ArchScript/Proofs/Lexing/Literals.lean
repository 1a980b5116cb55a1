/-
  Text literals, written and read back.

  `textLiteral tabs t` writes a text as a literal: quotes, backslashes and line feeds are escaped,
  and of the tabs those that `tabs` names. What is between its quotes stands for the text
  (`inside_literalText`), so the literal is one lexeme with this text if no carriage return is
  in it (`tokenize_textLiteral`). A text with a carriage return is the value of no lexeme at all,
  so the values of text lexemes are the texts that can be written (`tokenize_texts`).
-/
import ArchScript.Proofs.Lexing.Greedy

namespace ArchScript

/-! ## Writing -/

/-- How a character of a text is written between quotes. -/
def literalChar (escapesTab : Bool) (c : Char) : List Char :=
  if c = '\'' then ['\\', '\'']
  else if c = '\\' then ['\\', '\\']
  else if c = '\n' then ['\\', 'n']
  else if c = '\t' ∧ escapesTab then ['\\', 't']
  else [c]

/-- How a text is written between quotes. The character at the place `i`, if it is a tab, is
escaped when `tabs i` says so. -/
def literalText (tabs : Nat → Bool) : List Char → List Char
  | [] => []
  | c :: cs => literalChar (tabs 0) c ++ literalText (fun i => tabs (i + 1)) cs

/-- A text as a literal. -/
def textLiteral (tabs : Nat → Bool) (t : String) : String :=
  String.ofList ('\'' :: (literalText tabs t.toList ++ ['\'']))

/-! ## Reading -/

theorem Inside.literalChar {v w : List Char} (h : Inside v w) (escapesTab : Bool) (c : Char) :
    Inside (c :: v) (literalChar escapesTab c ++ w) := by
  unfold ArchScript.literalChar
  split
  · next hc =>
    subst hc
    exact .escape (by decide) h
  · next hquote =>
    split
    · next hc =>
      subst hc
      exact .escape (by decide) h
    · next hslash =>
      split
      · next hc =>
        subst hc
        exact .escape (by decide) h
      · next hline =>
        split
        · next hc =>
          obtain ⟨rfl, _⟩ := hc
          exact .escape (by decide) h
        · exact .plain hquote hslash hline h

/-- What is written for a text stands for it. -/
theorem inside_literalText (tabs : Nat → Bool) (v : List Char) :
    Inside v (literalText tabs v) := by
  induction v generalizing tabs with
  | nil => exact .nil
  | cons c v ih => exact (ih _).literalChar (tabs 0) c

/-- A text without carriage returns is read back from its literal. -/
theorem tokenize_textLiteral {t : String} (h : '\r' ∉ t.toList) (tabs : Nat → Bool) :
    tokenize (textLiteral tabs t) =
      .ok [⟨.token (.text t), .ofSize 0 (textLiteral tabs t).utf8ByteSize⟩] := by
  have hinside := inside_literalText tabs t.toList
  have hlongest := hinside.longest []
  rw [String.ofList_toList] at hlongest
  refine tokenize_eq_ok_iff_greedy.2
    ⟨[⟨.token (.text t), '\'' :: (literalText tabs t.toList ++ ['\''])⟩], ?_, ?_, ?_⟩
  · rw [textLiteral, String.toList_ofList]
    exact .cons (List.append_nil _) hlongest .nil
  · exact List.forall_mem_singleton.2 h
  · rw [textLiteral, Text.utf8ByteSize_ofList]
    rfl

/-- No text lexeme has a carriage return. -/
theorem unbroken_of_tokenize {source : String} {ls : List (Spanned Lexeme)}
    (h : tokenize source = .ok ls) {l : Spanned Lexeme} (hl : l ∈ ls) : l.value.Unbroken := by
  obtain ⟨ps, _, hunbroken, rfl⟩ := tokenize_eq_ok_iff_greedy.1 h
  have hvalue := List.mem_map_of_mem (f := Spanned.value) hl
  rw [placed_map_value] at hvalue
  obtain ⟨p, hp, hvalue⟩ := List.mem_map.1 hvalue
  rw [← hvalue]
  exact hunbroken p hp

/-- A text without carriage returns that is written as a literal, whichever tabs are escaped, is
read as one lexeme with this text, from the first byte to the last. The value of every text
lexeme of a source is such a text: it has no carriage return and is read back from its
literals. -/
theorem tokenize_texts :
    (∀ t : String, '\r' ∉ t.toList → ∀ tabs, tokenize (textLiteral tabs t) =
      .ok [⟨.token (.text t), .ofSize 0 (textLiteral tabs t).utf8ByteSize⟩]) ∧
    ∀ source ls, tokenize source = .ok ls → ∀ t span, ⟨.token (.text t), span⟩ ∈ ls →
      '\r' ∉ t.toList ∧ ∀ tabs, tokenize (textLiteral tabs t) =
        .ok [⟨.token (.text t), .ofSize 0 (textLiteral tabs t).utf8ByteSize⟩] := by
  refine ⟨fun t => tokenize_textLiteral, fun source ls h t span hl => ?_⟩
  have hreturn : '\r' ∉ t.toList := unbroken_of_tokenize h hl
  exact ⟨hreturn, tokenize_textLiteral hreturn⟩

/-- A text that needs every escape, with two tabs. -/
def escapedText : String := "it's\t\\'\t\n\\\\n"

/-- The second tab is escaped and the first is not. -/
def secondTab (i : Nat) : Bool := i == 7

/-- The text is written with its escapes and read back. As the value of a lexeme it has no
carriage return. -/
theorem tokenize_texts_escapedText :
    textLiteral secondTab escapedText = "'it\\'s\t\\\\\\'\\t\\n\\\\\\\\n'" ∧
    tokenize (textLiteral secondTab escapedText) =
      .ok [⟨.token (.text escapedText), .ofSize 0 21⟩] ∧
    ∃ source ls span, tokenize source = .ok ls ∧ ⟨.token (.text escapedText), span⟩ ∈ ls ∧
      '\r' ∉ escapedText.toList := by
  have hwritten : textLiteral secondTab escapedText = "'it\\'s\t\\\\\\'\\t\\n\\\\\\\\n'" := by
    decide +kernel
  have hread := tokenize_texts.1 escapedText (by decide +kernel) secondTab
  have hsize : (textLiteral secondTab escapedText).utf8ByteSize = 21 := by decide +kernel
  refine ⟨hwritten, by rw [hread, hsize], _, _, _, hread, List.mem_singleton.2 rfl, ?_⟩
  exact (tokenize_texts.2 _ _ hread _ _ (List.mem_singleton.2 rfl)).1

end ArchScript
