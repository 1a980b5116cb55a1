/-
  The reader of programs: from tokens to the syntax tree.

  A source is parsed from its lexemes; the reader says what is parsed in terms of the tokens
  among them. The first tokens of a statement or step decide its form; from then on the reader is
  bound to it, and whatever does not fit is a fault of that construct. A container holds
  statements again, so `readStatement` and `readBody` call each other; both leave fewer
  tokens than they got.
-/
import ArchScript.Program.Reader.Block
import ArchScript.Program.Reader.Flat

namespace ArchScript

namespace Reader

/-- Reads a statement that holds no other statements, if the tokens begin like one. -/
def readSimple (ts : Tokens) : Read (Option (Spanned Statement × Tokens)) :=
  match ts with
  | ⟨.keyword .agent, span⟩ :: rest => some <$> readActor ⟨.agent, span⟩ ts rest
  | ⟨.keyword .store, span⟩ :: rest => some <$> readActor ⟨.store, span⟩ ts rest
  | ⟨.keyword .user, span⟩ :: rest => some <$> readActor ⟨.user, span⟩ ts rest
  | ⟨.keyword .note, span⟩ :: rest => some <$> readNote span ts rest
  | ⟨.sign .at, span⟩ :: rest => some <$> readAnnotationDef span ts rest
  | ⟨.text name, span⟩ :: rest => some <$> readScenario ⟨name, span⟩ ts rest
  | ⟨.identifier name, span⟩ :: ⟨.keyword .is, word⟩ :: rest =>
    some <$> readAssignment ⟨name, span⟩ (⟨.keyword .is, word⟩ :: rest) rest
  | ⟨.identifier name, span⟩ :: ⟨.sign .dash, _⟩ :: ⟨.sign .leftParen, _⟩ :: rest =>
    some <$> readCall ⟨name, span⟩ ts rest
  | ⟨.identifier name, span⟩ :: ⟨.sign .writeArrow, _⟩ :: rest =>
    some <$> readFlow .write ⟨name, span⟩ ts rest
  | ⟨.identifier name, span⟩ :: ⟨.sign .readArrow, _⟩ :: rest =>
    some <$> readFlow .read ⟨name, span⟩ ts rest
  | _ => .ok none

theorem readSimple_length {ts rest : Tokens} {s : Spanned Statement}
    (h : readSimple ts = .ok (some (s, rest))) : rest.length < ts.length := by
  unfold readSimple at h
  split at h
  · have := readActor_length (map_some_eq_ok.1 h)
    simp only [List.length_cons]
    omega
  · have := readActor_length (map_some_eq_ok.1 h)
    simp only [List.length_cons]
    omega
  · have := readActor_length (map_some_eq_ok.1 h)
    simp only [List.length_cons]
    omega
  · have := readNote_length (map_some_eq_ok.1 h)
    simp only [List.length_cons]
    omega
  · have := readAnnotationDef_length (map_some_eq_ok.1 h)
    simp only [List.length_cons]
    omega
  · have := readScenario_length (map_some_eq_ok.1 h)
    simp only [List.length_cons]
    omega
  · have := readAssignment_length (map_some_eq_ok.1 h)
    simp only [List.length_cons]
    omega
  · have := readCall_length (map_some_eq_ok.1 h)
    simp only [List.length_cons]
    omega
  · have := readFlow_length (map_some_eq_ok.1 h)
    simp only [List.length_cons]
    omega
  · have := readFlow_length (map_some_eq_ok.1 h)
    simp only [List.length_cons]
    omega
  · cases h

/-- Reads the head of a container, through its opening brace, from after its first word. -/
def readContainerHead (start ts : Tokens) : Read (ContainerHead × Tokens) := do
  let (name, ts) ← readTextLiteral .containerName start ts
  let (_, ts) ← readKeyword .as start ts
  let (id, ts) ← readName (some .container) start ts
  let (_, ts) ← readSign .leftBrace start ts
  return ({ name, id }, ts)

theorem readContainerHead_length {start ts rest : Tokens} {c : ContainerHead}
    (h : readContainerHead start ts = .ok (c, rest)) : rest.length < ts.length := by
  simp only [readContainerHead, bind_eq_ok, Prod.exists] at h
  obtain ⟨_, _, h₁, _, _, h₂, _, _, h₃, _, _, h₄, h₅⟩ := h
  have := accept_length h₁
  have := accept_length h₂
  have := accept_length h₃
  have := accept_length h₄
  cases h₅
  omega

mutual

/-- Reads a statement, if the tokens begin like one. -/
def readStatement (ts : Tokens) :
    Except SyntaxFault (Option { p : Spanned Statement × Tokens // p.2.length < ts.length }) :=
  match ts with
  | ⟨.keyword .container, word⟩ :: rest =>
    let start := ⟨.keyword .container, word⟩ :: rest
    match hh : readContainerHead start rest with
    | .error e => .error e
    | .ok (head, inner) =>
      have hi := readContainerHead_length hh
      match readBody inner with
      | .error e => .error e
      | .ok ⟨(body, tail), ht⟩ =>
        match hc : readBlockEnd .statement start tail with
        | .error e => .error e
        | .ok (close, after) =>
          have hl := accept_length hc
          .ok (some ⟨(⟨.container head body, word.union close.span⟩, after), by
            simp only [List.length_cons] at *; omega⟩)
  | ts =>
    match h : readSimple ts with
    | .error e => .error e
    | .ok none => .ok none
    | .ok (some p) => .ok (some ⟨p, readSimple_length h⟩)
termination_by 2 * ts.length
decreasing_by simp only [List.length_cons]; omega

/-- Reads statements, each with an optional semicolon, as long as they follow. -/
def readBody (ts : Tokens) :
    Except SyntaxFault { p : List (Spanned Statement) × Tokens // p.2.length ≤ ts.length } :=
  match readStatement ts with
  | .error e => .error e
  | .ok none => .ok ⟨([], ts), Nat.le_refl _⟩
  | .ok (some ⟨(s, rest), hr⟩) =>
    have hs := skipSemicolon_length rest
    match readBody (skipSemicolon rest) with
    | .error e => .error e
    | .ok ⟨(more, tail), ht⟩ => .ok ⟨(s :: more, tail), by simp only at *; omega⟩
termination_by 2 * ts.length + 1
decreasing_by
  · omega
  · simp only at hr; omega

end

/-- Reads a whole program: statements, each with its semicolon, and then the end. -/
def readProgram (ts : Tokens) : Except SyntaxFault Program :=
  match readStatement ts with
  | .error e => .error e
  | .ok none =>
    match ts with
    | [] => .ok []
    | t :: rest => .error (.stoppedAt .statement (t :: rest) (t :: rest))
  | .ok (some ⟨(s, rest), _hr⟩) =>
    match _h : readSign .semicolon rest rest with
    | .error e => .error e
    | .ok (_, rest) => do
      let more ← readProgram rest
      return s :: more
termination_by ts.length
decreasing_by
  have := accept_length _h
  simp only at _hr
  omega

end Reader

/-- Reads the program that the tokens spell. -/
def Program.ofTokens (ts : Tokens) : Except SyntaxFault Program := Reader.readProgram ts

end ArchScript
