/-
  Reading the statements that have no braces: actors, notes, assignments, calls and data
  flows. A reader begins after the tokens that told its form; `start` are the tokens from
  the beginning of the construct.
-/
import ArchScript.Program.Reader.Clause

namespace ArchScript.Reader

/-- Reads an actor from after its kind. -/
def readActor (kind : Spanned ActorKind) (start ts : Tokens) :
    Read (Spanned Statement × Tokens) := do
  let (caption, ts) ← readTextLiteral .actorCaption start ts
  let (_, ts) ← readKeyword .as start ts
  let (id, ts) ← readName (some .actor) start ts
  let (annotations, ts) ← optionalReferences ts
  return (⟨.actor { kind, caption, id, annotations },
    spanTo kind.span id.span annotations⟩, ts)

/-- Reads a note from after its first word. -/
def readNote (word : Span) (start ts : Tokens) : Read (Spanned Statement × Tokens) := do
  let (_, ts) ← readKeyword .for start ts
  let (target, ts) ← readName none start ts
  let (_, ts) ← readSign .colon start ts
  let (text, ts) ← readTextLiteral .noteText start ts
  return (⟨.note { target, text }, word.union text.span⟩, ts)

/-- Reads an assignment from after the word `is`, with which the clause began. -/
def readAssignment (target : Spanned Ident) (start ts : Tokens) :
    Read (Spanned Statement × Tokens) := do
  let (annotations, ts) ← readReferences start ts
  return (⟨.assignment { target, annotations }, spanTo target.span target.span annotations⟩, ts)

/-- Reads a call from after its opening parenthesis. -/
def readCall (source : Spanned Ident) (start ts : Tokens) : Read (Spanned Statement × Tokens) := do
  let (text, ts) := optionalText ts
  let (_, ts) ← readSign .rightParen start ts
  let (kind, ts) ← readChannelArrow start ts
  let (target, ts) ← readName (some .channelTarget) start ts
  return (⟨.call { kind := kind.value, source, target, text }, source.span.union target.span⟩, ts)

/-- Reads a data flow from after its arrow. -/
def readFlow (kind : FlowKind) (left : Spanned Ident) (start ts : Tokens) :
    Read (Spanned Statement × Tokens) := do
  let (right, ts) ← readName (some .flowTarget) start ts
  return (⟨.flow { kind, left, right }, left.span.union right.span⟩, ts)

theorem readActor_length {kind : Spanned ActorKind} {start ts rest : Tokens} {s : Spanned Statement}
    (h : readActor kind start ts = .ok (s, rest)) : rest.length < ts.length := by
  simp only [readActor, bind_eq_ok, Prod.exists] at h
  obtain ⟨_, _, h₁, _, _, h₂, _, _, h₃, _, _, h₄, h₅⟩ := h
  have := accept_length h₁
  have := accept_length h₂
  have := accept_length h₃
  have := optionalReferences_length h₄
  cases h₅
  omega

theorem readNote_length {word : Span} {start ts rest : Tokens} {s : Spanned Statement}
    (h : readNote word start ts = .ok (s, rest)) : rest.length < ts.length := by
  simp only [readNote, bind_eq_ok, Prod.exists] at h
  obtain ⟨_, _, h₁, _, _, h₂, _, _, h₃, _, _, h₄, h₅⟩ := h
  have := accept_length h₁
  have := accept_length h₂
  have := accept_length h₃
  have := accept_length h₄
  cases h₅
  omega

theorem readAssignment_length {target : Spanned Ident} {start ts rest : Tokens}
    {s : Spanned Statement} (h : readAssignment target start ts = .ok (s, rest)) :
    rest.length < ts.length := by
  simp only [readAssignment, bind_eq_ok, Prod.exists] at h
  obtain ⟨_, _, h₁, h₂⟩ := h
  have := readReferences_length h₁
  cases h₂
  omega

theorem readCall_length {source : Spanned Ident} {start ts rest : Tokens} {s : Spanned Statement}
    (h : readCall source start ts = .ok (s, rest)) : rest.length < ts.length := by
  simp only [readCall, bind_eq_ok, Prod.exists] at h
  obtain ⟨_, _, h₁, _, _, h₂, _, _, h₃, h₄⟩ := h
  have := optionalText_length ts
  have := accept_length h₁
  have := accept_length h₂
  have := accept_length h₃
  cases h₄
  omega

theorem readFlow_length {kind : FlowKind} {left : Spanned Ident} {start ts rest : Tokens}
    {s : Spanned Statement} (h : readFlow kind left start ts = .ok (s, rest)) :
    rest.length < ts.length := by
  simp only [readFlow, bind_eq_ok, Prod.exists] at h
  obtain ⟨_, _, h₁, h₂⟩ := h
  have := accept_length h₁
  cases h₂
  omega

end ArchScript.Reader
