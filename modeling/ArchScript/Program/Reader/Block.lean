/-
  Reading annotations and scenarios: blocks of properties and blocks of steps, in braces.

  Inside a block a semicolon after an item may be left out. A block goes on as long as the
  tokens begin like an item; then it must close.
-/
import ArchScript.Program.Reader.Clause

namespace ArchScript.Reader

/-! ## Annotations -/

/-- Reads the colon and the value of a property, if the tokens begin with a property key. -/
def readProperty (ts : Tokens) : Read (Option (PropertyDecl × Tokens)) :=
  match ts with
  | [] => .ok none
  | t :: rest =>
    match (name? t.value).bind PropertyKey.ofText? with
    | none => .ok none
    | some key => do
      let (_, rest) ← readSign .colon ts rest
      let (value, rest) ← readTextLiteral .propertyValue ts rest
      return some ({ key := ⟨key, t.span⟩, value }, rest)

theorem readProperty_length {ts rest : Tokens} {p : PropertyDecl}
    (h : readProperty ts = .ok (some (p, rest))) : rest.length < ts.length := by
  unfold readProperty at h
  split at h
  · cases h
  · split at h
    · cases h
    · simp only [bind_eq_ok, Prod.exists] at h
      obtain ⟨_, _, h₁, _, _, h₂, h₃⟩ := h
      have := accept_length h₁
      have := accept_length h₂
      cases h₃
      simp only [List.length_cons]
      omega

/-- Reads properties, each with an optional semicolon, as long as they follow. -/
def readProperties (ts : Tokens) : Read (List PropertyDecl × Tokens) :=
  match _h : readProperty ts with
  | .error e => .error e
  | .ok none => .ok ([], ts)
  | .ok (some (p, rest)) => do
    let (ps, rest) ← readProperties (skipSemicolon rest)
    return (p :: ps, rest)
termination_by ts.length
decreasing_by
  have := readProperty_length _h
  have := skipSemicolon_length rest
  omega

theorem readProperties_length {ts rest : Tokens} {ps : List PropertyDecl}
    (h : readProperties ts = .ok (ps, rest)) : rest.length ≤ ts.length := by
  fun_induction readProperties ts generalizing ps rest with
  | case1 => cases h
  | case2 =>
    cases h
    exact Nat.le_refl _
  | case3 ts p next hp ih =>
    simp only [bind_eq_ok, Prod.exists] at h
    obtain ⟨_, _, h₁, h₂⟩ := h
    have := readProperty_length hp
    have := skipSemicolon_length next
    have := ih h₁
    cases h₂
    omega

/-- Reads an annotation from after its `@`. -/
def readAnnotationDef (at_ : Span) (start ts : Tokens) : Read (Spanned Statement × Tokens) := do
  let (id, ts) ← readName (some NameRole.annotation) start ts
  let (_, ts) ← readSign .leftBrace start ts
  let (properties, ts) ← readProperties ts
  let (close, ts) ← readBlockEnd .property start ts
  return (⟨Statement.annotation { id, properties }, at_.union close.span⟩, ts)

theorem readAnnotationDef_length {at_ : Span} {start ts rest : Tokens} {s : Spanned Statement}
    (h : readAnnotationDef at_ start ts = .ok (s, rest)) : rest.length < ts.length := by
  simp only [readAnnotationDef, bind_eq_ok, Prod.exists] at h
  obtain ⟨_, _, h₁, _, _, h₂, _, _, h₃, _, _, h₄, h₅⟩ := h
  have := accept_length h₁
  have := accept_length h₂
  have := readProperties_length h₃
  have := accept_length h₄
  cases h₅
  omega

/-! ## Scenarios -/

/-- Reads a request from after its opening parenthesis. -/
def readRequestStep (source : Spanned Ident) (start ts : Tokens) :
    Read (Spanned StepDecl × Tokens) := do
  let (message, ts) := optionalText ts
  let (_, ts) ← readSign .rightParen start ts
  let (kind, ts) ← readChannelArrow start ts
  let (target, ts) ← readName none start ts
  return (⟨.request kind.value source target message, source.span.union target.span⟩, ts)

/-- Reads a writing step from after its message. -/
def readWriteStep (left : Spanned Ident) (message : Spanned String) (start ts : Tokens) :
    Read (Spanned StepDecl × Tokens) := do
  let (_, ts) ← readSign .arrow start ts
  let (right, ts) ← readName none start ts
  return (⟨.transfer .write left right message, left.span.union right.span⟩, ts)

/-- Reads a response from after its first dashes. -/
def readResponseStep (requester : Spanned Ident) (start ts : Tokens) :
    Read (Spanned StepDecl × Tokens) := do
  let (_, ts) ← readSign .leftParen start ts
  let (message, ts) := optionalText ts
  let (_, ts) ← readSign .rightParen start ts
  let (_, ts) ← readSign .responseArrow start ts
  let (responder, ts) ← readName none start ts
  return (⟨.response requester responder message, requester.span.union responder.span⟩, ts)

/-- Reads a reading step from after its arrow. -/
def readReadStep (left : Spanned Ident) (start ts : Tokens) : Read (Spanned StepDecl × Tokens) := do
  let (message, ts) ← readTextLiteral .stepMessage start ts
  let (_, ts) ← readSign .dash start ts
  let (right, ts) ← readName none start ts
  return (⟨.transfer .read left right message, left.span.union right.span⟩, ts)

theorem readRequestStep_length {source : Spanned Ident} {start ts rest : Tokens}
    {s : Spanned StepDecl} (h : readRequestStep source start ts = .ok (s, rest)) :
    rest.length < ts.length := by
  simp only [readRequestStep, bind_eq_ok, Prod.exists] at h
  obtain ⟨_, _, h₁, _, _, h₂, _, _, h₃, h₄⟩ := h
  have := optionalText_length ts
  have := accept_length h₁
  have := accept_length h₂
  have := accept_length h₃
  cases h₄
  omega

theorem readWriteStep_length {left : Spanned Ident} {message : Spanned String}
    {start ts rest : Tokens}
    {s : Spanned StepDecl} (h : readWriteStep left message start ts = .ok (s, rest)) :
    rest.length < ts.length := by
  simp only [readWriteStep, bind_eq_ok, Prod.exists] at h
  obtain ⟨_, _, h₁, _, _, h₂, h₃⟩ := h
  have := accept_length h₁
  have := accept_length h₂
  cases h₃
  omega

theorem readResponseStep_length {requester : Spanned Ident} {start ts rest : Tokens}
    {s : Spanned StepDecl} (h : readResponseStep requester start ts = .ok (s, rest)) :
    rest.length < ts.length := by
  simp only [readResponseStep, bind_eq_ok, Prod.exists] at h
  obtain ⟨_, ts₁, h₁, _, _, h₂, _, _, h₃, _, _, h₄, h₅⟩ := h
  have := accept_length h₁
  have := optionalText_length ts₁
  have := accept_length h₂
  have := accept_length h₃
  have := accept_length h₄
  cases h₅
  omega

theorem readReadStep_length {left : Spanned Ident} {start ts rest : Tokens} {s : Spanned StepDecl}
    (h : readReadStep left start ts = .ok (s, rest)) : rest.length < ts.length := by
  simp only [readReadStep, bind_eq_ok, Prod.exists] at h
  obtain ⟨_, _, h₁, _, _, h₂, _, _, h₃, h₄⟩ := h
  have := accept_length h₁
  have := accept_length h₂
  have := accept_length h₃
  cases h₄
  omega

/-- Reads a step, if the tokens begin like one. -/
def readStep (ts : Tokens) : Read (Option (Spanned StepDecl × Tokens)) :=
  match ts with
  | ⟨.identifier name, span⟩ :: ⟨.sign .dash, _⟩ :: ⟨.sign .leftParen, _⟩ :: rest =>
    some <$> readRequestStep ⟨name, span⟩ ts rest
  | ⟨.identifier name, span⟩ :: ⟨.sign .dash, _⟩ :: ⟨.text value, at_⟩ :: rest =>
    some <$> readWriteStep ⟨name, span⟩ ⟨value, at_⟩ ts rest
  | ⟨.identifier name, span⟩ :: ⟨.sign .doubleDash, _⟩ :: rest =>
    some <$> readResponseStep ⟨name, span⟩ ts rest
  | ⟨.identifier name, span⟩ :: ⟨.sign .leftArrow, _⟩ :: rest =>
    some <$> readReadStep ⟨name, span⟩ ts rest
  | _ => .ok none

theorem readStep_length {ts rest : Tokens} {s : Spanned StepDecl}
    (h : readStep ts = .ok (some (s, rest))) : rest.length < ts.length := by
  unfold readStep at h
  split at h
  · have := readRequestStep_length (map_some_eq_ok.1 h)
    simp only [List.length_cons]
    omega
  · have := readWriteStep_length (map_some_eq_ok.1 h)
    simp only [List.length_cons]
    omega
  · have := readResponseStep_length (map_some_eq_ok.1 h)
    simp only [List.length_cons]
    omega
  · have := readReadStep_length (map_some_eq_ok.1 h)
    simp only [List.length_cons]
    omega
  · cases h

/-- Reads steps, each with an optional semicolon, as long as they follow. -/
def readSteps (ts : Tokens) : Read (List (Spanned StepDecl) × Tokens) :=
  match _h : readStep ts with
  | .error e => .error e
  | .ok none => .ok ([], ts)
  | .ok (some (s, rest)) => do
    let (ss, rest) ← readSteps (skipSemicolon rest)
    return (s :: ss, rest)
termination_by ts.length
decreasing_by
  have := readStep_length _h
  have := skipSemicolon_length rest
  omega

theorem readSteps_length {ts rest : Tokens} {ss : List (Spanned StepDecl)}
    (h : readSteps ts = .ok (ss, rest)) : rest.length ≤ ts.length := by
  fun_induction readSteps ts generalizing ss rest with
  | case1 => cases h
  | case2 =>
    cases h
    exact Nat.le_refl _
  | case3 ts s next hs ih =>
    simp only [bind_eq_ok, Prod.exists] at h
    obtain ⟨_, _, h₁, h₂⟩ := h
    have := readStep_length hs
    have := skipSemicolon_length next
    have := ih h₁
    cases h₂
    omega

/-- The opening brace of a scenario. -/
def readScenarioStart : Tokens → Tokens → Read (Spanned Unit × Tokens) :=
  accept (fun t => if t = .sign .leftBrace then some () else none) .scenarioBody

/-- Reads a scenario from after its name. -/
def readScenario (name : Spanned String) (start ts : Tokens) :
    Read (Spanned Statement × Tokens) := do
  let (_, ts) ← readScenarioStart start ts
  let (steps, ts) ← readSteps ts
  let (close, ts) ← readBlockEnd .step start ts
  return (⟨.scenario { name, steps }, name.span.union close.span⟩, ts)

theorem readScenario_length {name : Spanned String} {start ts rest : Tokens} {s : Spanned Statement}
    (h : readScenario name start ts = .ok (s, rest)) : rest.length < ts.length := by
  simp only [readScenario, bind_eq_ok, Prod.exists] at h
  obtain ⟨_, _, h₁, _, _, h₂, _, _, h₃, h₄⟩ := h
  have := accept_length h₁
  have := readSteps_length h₂
  have := accept_length h₃
  cases h₄
  omega

end ArchScript.Reader
