/-
  Reading single tokens and the clauses that several constructs share.

  Each reader gives what it read and the tokens that are left. The lemmas `*_length` count
  the tokens that are used up, so that everything built on these readers ends.
-/
import ArchScript.Program
import ArchScript.Program.Fault

namespace ArchScript.Reader

/-- What a reader gives, or the fault that stops it. -/
abbrev Read := Except SyntaxFault

theorem bind_eq_ok {ε α β : Type} {x : Except ε α} {f : α → Except ε β} {b : β} :
    (x >>= f) = .ok b ↔ ∃ a, x = .ok a ∧ f a = .ok b := by
  cases x <;> simp [bind, Except.bind]

theorem map_some_eq_ok {ε α : Type} {x : Except ε α} {a : α} :
    (some <$> x) = .ok (some a) ↔ x = .ok a := by
  cases x <;> simp [Functor.map, Except.map]

/-! ## Single tokens -/

/-- Reads one token that `pick` accepts, as part of a construct that began at `start`. -/
def accept {α : Type} (pick : Token → Option α) (expected : Expected) (start : Tokens) :
    Tokens → Read (Spanned α × Tokens)
  | [] => .error (.stoppedAt expected start [])
  | t :: ts =>
    match pick t.value with
    | some a => .ok ({ value := a, span := t.span }, ts)
    | none => .error (.stoppedAt expected start (t :: ts))

theorem accept_length {α : Type} {pick : Token → Option α} {expected : Expected}
    {start ts rest : Tokens} {a : Spanned α} (h : accept pick expected start ts = .ok (a, rest)) :
    ts.length = rest.length + 1 := by
  cases ts with
  | nil => simp [accept] at h
  | cons t ts =>
    simp only [accept] at h
    split at h
    · cases h
      rfl
    · cases h

/-- The identifier of a token. -/
def name? : Token → Option Ident
  | .identifier name => some name
  | _ => none

/-- The value of a text literal. -/
def textValue? : Token → Option String
  | .text value => some value
  | _ => none

/-- The kind of channel that an arrow draws. -/
def channelKind? : Token → Option ChannelKind
  | .sign .arrow => some .requestResponse
  | .sign .asyncArrow => some .async
  | _ => none

def readKeyword (k : Keyword) : Tokens → Tokens → Read (Spanned Unit × Tokens) :=
  accept (fun t => if t = .keyword k then some () else none) (.keyword k)

def readSign (s : Sign) : Tokens → Tokens → Read (Spanned Unit × Tokens) :=
  accept (fun t => if t = .sign s then some () else none) (.sign s)

def readName (role : Option NameRole) : Tokens → Tokens → Read (Spanned Ident × Tokens) :=
  accept name? (.identifier role)

def readTextLiteral (role : TextRole) : Tokens → Tokens → Read (Spanned String × Tokens) :=
  accept textValue? (.textLiteral role)

def readChannelArrow : Tokens → Tokens → Read (Spanned ChannelKind × Tokens) :=
  accept channelKind? .channelArrow

/-- The closing brace of a block of `item`s. -/
def readBlockEnd (item : BlockItem) : Tokens → Tokens → Read (Spanned Unit × Tokens) :=
  accept (fun t => if t = .sign .rightBrace then some () else none) (.itemOrEnd item)

/-- Reads a text literal if one follows. -/
def optionalText : Tokens → Option (Spanned String) × Tokens
  | ⟨.text value, span⟩ :: ts => (some ⟨value, span⟩, ts)
  | ts => (none, ts)

/-- Leaves out a semicolon if one follows. -/
def skipSemicolon : Tokens → Tokens
  | ⟨.sign .semicolon, _⟩ :: ts => ts
  | ts => ts

theorem optionalText_length (ts : Tokens) : (optionalText ts).2.length ≤ ts.length := by
  unfold optionalText
  split <;> simp

theorem skipSemicolon_length (ts : Tokens) : (skipSemicolon ts).length ≤ ts.length := by
  unfold skipSemicolon
  split <;> simp

/-! ## References to annotations -/

/-- Reads `@name`. -/
def readReference (start ts : Tokens) : Read (Spanned Ident × Tokens) := do
  let (_, ts) ← readSign .at start ts
  readName (some NameRole.annotation) start ts

/-- Reads `, @name` as often as it follows. -/
def moreReferences : Tokens → List (Spanned Ident) × Tokens
  | ⟨.sign .comma, _⟩ :: ⟨.sign .at, _⟩ :: ⟨.identifier name, span⟩ :: ts =>
    let (refs, rest) := moreReferences ts
    (⟨name, span⟩ :: refs, rest)
  | ts => ([], ts)

/-- Reads one reference or more after the word `is`, with which the clause began. -/
def readReferences (start ts : Tokens) : Read (List (Spanned Ident) × Tokens) := do
  let (ref, ts) ← readReference start ts
  let (refs, ts) := moreReferences ts
  return (ref :: refs, ts)

/-- Reads a clause `is @A, @B` if one follows. -/
def optionalReferences : Tokens → Read (List (Spanned Ident) × Tokens)
  | ⟨.keyword .is, span⟩ :: ts => readReferences (⟨.keyword .is, span⟩ :: ts) ts
  | ts => .ok ([], ts)

theorem readReference_length {start ts rest : Tokens} {r : Spanned Ident}
    (h : readReference start ts = .ok (r, rest)) : rest.length < ts.length := by
  simp only [readReference, bind_eq_ok, Prod.exists] at h
  obtain ⟨_, _, h₁, h₂⟩ := h
  have := accept_length h₁
  have := accept_length h₂
  omega

theorem moreReferences_length (ts : Tokens) : (moreReferences ts).2.length ≤ ts.length := by
  fun_induction moreReferences ts with
  | case1 _ _ _ _ ts refs rest h ih =>
    rw [h] at ih
    simp only [List.length_cons] at *
    omega
  | case2 ts => exact Nat.le_refl _

theorem readReferences_length {start ts rest : Tokens} {rs : List (Spanned Ident)}
    (h : readReferences start ts = .ok (rs, rest)) : rest.length < ts.length := by
  simp only [readReferences, bind_eq_ok, Prod.exists] at h
  obtain ⟨_, ts', h₁, h₂⟩ := h
  have := readReference_length h₁
  have := moreReferences_length ts'
  cases h₂
  omega

theorem optionalReferences_length {ts rest : Tokens} {rs : List (Spanned Ident)}
    (h : optionalReferences ts = .ok (rs, rest)) : rest.length ≤ ts.length := by
  unfold optionalReferences at h
  split at h
  · have := readReferences_length h
    simp only [List.length_cons]
    omega
  · cases h
    exact Nat.le_refl _

/-- The span from `first` to the last reference, or to `last` if there is none. -/
def spanTo (first last : Span) (refs : List (Spanned Ident)) : Span :=
  match refs.getLast? with
  | some r => first.union r.span
  | none => first.union last

end ArchScript.Reader
