/-
  The parser of each form does what the reader of that form does.

  A parser tries one form after the other, a reader tells the form by its first tokens. So that
  the two can be compared, what is read of each form stands by itself here (`actorForm` and the
  others); these first tokens part the forms, and trying them in turn reads the same
  (`readStep_eq_forms`).
-/
import ArchScript.Proofs.Parser.Agreement

namespace ArchScript

namespace Parser

open Reader

variable {begin ls rest : Lexemes}

/-! ## Words, signs and values -/

theorem takes_keyword (k : Keyword) :
    Takes (keyword k) (only? (.keyword k)) (Expected.labels (.keyword k)) :=
  (takes_pick _).labelled _

theorem takes_sign (s : Sign) : Takes (sign s) (only? (.sign s)) (Expected.labels (.sign s)) :=
  (takes_pick _).labelled _

theorem takes_identifier : Takes identifier name? (Expected.labels (.identifier none)) :=
  (takes_pick _).labelled _

theorem takes_identifierOf (role : NameRole) :
    Takes (identifierOf role) name? (Expected.labels (.identifier (some role))) :=
  takes_identifier.labelled _

theorem takes_text : Takes text textValue? ["text literal"] := (takes_pick _).labelled _

theorem takes_textOf (role : TextRole) :
    Takes (textOf role) textValue? (Expected.labels (.textLiteral role)) :=
  takes_text.labelled _

theorem takes_channelArrow :
    Takes channelArrow channelKind? (Expected.labels .channelArrow) :=
  (takes_pick _).labelled _

theorem takes_propertyKey : Takes propertyKey propertyKey?
    ["property key `color` or `prototype`"] := (takes_pick _).labelled _

theorem takes_scenarioStart :
    Takes scenarioStart (only? (.sign .leftBrace)) (Expected.labels .scenarioBody) :=
  (takes_pick _).labelled _

theorem takes_blockEnd (item : BlockItem) :
    Takes (blockEnd item) (only? (.sign .rightBrace)) (Expected.labels (.itemOrEnd item)) :=
  (takes_pick _).labelled _

theorem only?_eq_some {expected t : Token} {a : Unit} :
    only? expected t = some a ↔ t = expected := by
  simp [only?]

theorem name?_eq_some {t : Token} {name : Ident} : name? t = some name ↔ t = .identifier name := by
  cases t <;> simp [name?]

/-! ## References to annotations -/

theorem reference_follows (hls : Leaves begin ls) :
    Follows begin (reference ls) (readReference (meaningful begin) (meaningful ls)) :=
  .bind (.take (takes_sign _) hls.suffix) fun _ _ hrest => .take (takes_identifierOf _) hrest.suffix

/-- A further reference, if a comma and then a reference come next. -/
def furtherReference (ts : Tokens) : Read (Option (Spanned Ident × Tokens)) :=
  leading (only? (.sign .comma)) ts fun _ ts =>
    leading (only? (.sign .at)) ts fun _ ts =>
      leading name? ts fun name ts => .ok (some (name, ts))

theorem furtherReference_chooses (ls : Lexemes) :
    Chooses ls ((sign .comma >>= fun _ => reference) ls) (furtherReference (meaningful ls)) :=
  .take (takes_sign .comma) (List.suffix_refl ls) fun _ _ hcomma =>
    .take (takes_sign .at) hcomma.suffix fun _ _ hat => .last (takes_identifierOf _) hat.suffix

theorem furtherReference_eq_none {ts : Tokens}
    (h : ∀ comma at_ name span rest, ts = ⟨.sign .comma, comma⟩ :: ⟨.sign .at, at_⟩ ::
      ⟨.identifier name, span⟩ :: rest → False) : furtherReference ts = .ok none := by
  unfold furtherReference
  rcases leading_cases (only? (.sign .comma)) ts _ with h₁ | ⟨⟨t, comma⟩, us, _, rfl, ht, h₁⟩
  · exact h₁
  obtain rfl := only?_eq_some.1 ht
  rcases leading_cases (only? (.sign .at)) us _ with h₂ | ⟨⟨u, at_⟩, vs, _, rfl, hu, h₂⟩
  · exact h₁.trans h₂
  obtain rfl := only?_eq_some.1 hu
  rcases leading_cases name? vs _ with h₃ | ⟨⟨v, span⟩, rest, name, rfl, hv, _⟩
  · exact h₁.trans (h₂.trans h₃)
  obtain rfl := name?_eq_some.1 hv
  exact (h comma at_ name span rest rfl).elim

theorem moreReferences_eq (ts : Tokens) : (.ok (moreReferences ts) : Read _) =
    repeating ts (furtherReference ts) fun ts => .ok (moreReferences ts) := by
  rw [moreReferences.eq_def]
  split
  · rfl
  · next hnot =>
    rw [furtherReference_eq_none hnot]
    rfl

theorem references_follow (hls : Leaves begin ls) :
    Follows begin (separated reference (sign .comma) ls)
      (readReferences (meaningful begin) (meaningful ls)) := by
  refine .bind (reference_follows hls) fun a rest hrest => ?_
  change Follows begin _
    ((.ok (moreReferences (meaningful rest)) : Read _) >>= fun q => .ok (a :: q.1, q.2))
  exact .bind (.many moreReferences_eq (fun ls _ => furtherReference_chooses ls) (Nat.le_refl _)
    hrest) fun _ _ hmore => .ok hmore

/-- A clause of references, if the word `is` comes next. -/
def clauseForm (ts : Tokens) : Read (Option (List (Spanned Ident) × Tokens)) :=
  leading (only? (.keyword .is)) ts fun _ rest => some <$> readReferences ts rest

theorem isClause_chooses (ls : Lexemes) :
    Chooses ls (isClause ls) (clauseForm (meaningful ls)) :=
  .take (takes_keyword .is) (List.suffix_refl ls) fun _ _ hrest =>
    .committed (references_follow hrest)

theorem optionalReferences_eq (ts : Tokens) : optionalReferences ts =
    (fun q => (q.1.getD [], q.2)) <$> orNothing ts (clauseForm ts) := by
  unfold optionalReferences
  split
  · next span ts =>
    change readReferences _ ts = _ <$> orNothing _ (some <$> readReferences _ ts)
    cases readReferences (⟨.keyword .is, span⟩ :: ts) ts <;> rfl
  · next hnot =>
    have hnone : clauseForm ts = .ok none := by
      rcases leading_cases (only? (.keyword .is)) ts _ with h | ⟨⟨t, span⟩, rest, _, rfl, ht, _⟩
      · exact h
      · obtain rfl := only?_eq_some.1 ht
        exact (hnot span rest rfl).elim
    rw [hnone]
    rfl

theorem maybeIsClause_follows (hls : Leaves begin ls) :
    Follows begin (maybeIsClause ls) (optionalReferences (meaningful ls)) := by
  rw [optionalReferences_eq]
  exact .map (Option.getD · []) (.maybe (isClause_chooses ls) hls)

/-! ## Statements without braces -/

def actorForm (ts : Tokens) : Read (Option (Spanned Statement × Tokens)) :=
  leading actorKind? ts fun kind rest => some <$> readActor kind ts rest

def noteForm (ts : Tokens) : Read (Option (Spanned Statement × Tokens)) :=
  leading (only? (.keyword .note)) ts fun word rest => some <$> readNote word.span ts rest

def assignmentForm (ts : Tokens) : Read (Option (Spanned Statement × Tokens)) :=
  leading name? ts fun target ts =>
    leading (only? (.keyword .is)) ts fun _ rest => some <$> readAssignment target ts rest

def callForm (ts : Tokens) : Read (Option (Spanned Statement × Tokens)) :=
  leading name? ts fun source rest =>
    leading (only? (.sign .dash)) rest fun _ rest =>
      leading (only? (.sign .leftParen)) rest fun _ rest => some <$> readCall source ts rest

def flowForm (ts : Tokens) : Read (Option (Spanned Statement × Tokens)) :=
  leading name? ts fun left rest =>
    leading flowKind? rest fun kind rest => some <$> readFlow kind.value left ts rest

theorem actorDecl_chooses (ls : Lexemes) :
    Chooses ls (actorDecl ls) (actorForm (meaningful ls)) := by
  refine .take (takes_pick actorKind?) (List.suffix_refl ls) fun _ _ hrest => .committed ?_
  refine .bind (.take (takes_textOf _) hrest.suffix) fun _ _ hrest => ?_
  refine .bind (.take (takes_keyword _) hrest.suffix) fun _ _ hrest => ?_
  refine .bind (.take (takes_identifierOf _) hrest.suffix) fun _ _ hrest => ?_
  exact .bind (maybeIsClause_follows hrest) fun _ _ hrest => .ok hrest

theorem noteDecl_chooses (ls : Lexemes) :
    Chooses ls (noteDecl ls) (noteForm (meaningful ls)) := by
  refine .take (takes_keyword .note) (List.suffix_refl ls) fun _ _ hrest => .committed ?_
  refine .bind (.take (takes_keyword _) hrest.suffix) fun _ _ hrest => ?_
  refine .bind (.take takes_identifier hrest.suffix) fun _ _ hrest => ?_
  refine .bind (.take (takes_sign _) hrest.suffix) fun _ _ hrest => ?_
  exact .bind (.take (takes_textOf _) hrest.suffix) fun _ _ hrest => .ok hrest

/-- The clause of an assignment begins after the target, and so do its failures. -/
theorem assignment_chooses (ls : Lexemes) :
    Chooses ls (assignment ls) (assignmentForm (meaningful ls)) := by
  refine .take takes_identifier (List.suffix_refl ls) fun target rest hrest => ?_
  have hform : (fun us => some <$> readAssignment target (meaningful rest) us) = fun us =>
      Option.map (fun q =>
        (⟨.assignment ⟨target, q.1⟩, spanTo target.span target.span q.1⟩, q.2)) <$>
          some <$> readReferences (meaningful rest) us := by
    funext us
    unfold readAssignment
    cases readReferences (meaningful rest) us <;> rfl
  rw [hform, ← map_leading]
  refine (Chooses.after (isClause_chooses rest) fun refs after => ?_).in_suffix hrest.suffix
  exact ⟨_, after, rfl, List.suffix_refl after, rfl⟩

theorem optionalText_eq (ts : Tokens) : optionalText ts = taking textValue? ts := by
  rcases ts with _ | ⟨⟨t, span⟩, ts⟩
  · rfl
  · cases t <;> rfl

theorem maybe_text (ls : Lexemes) : ∃ o rest, maybe text ls = .ok o rest ∧ rest <:+ ls ∧
    optionalText (meaningful ls) = (o, meaningful rest) := by
  rw [optionalText_eq]
  exact maybe_takes takes_text ls

theorem call_chooses (ls : Lexemes) : Chooses ls (call ls) (callForm (meaningful ls)) := by
  refine .take takes_identifier (List.suffix_refl ls) fun _ _ hrest => ?_
  refine .take (takes_sign .dash) hrest.suffix fun _ _ hrest => ?_
  refine .take (takes_sign .leftParen) hrest.suffix fun _ rest hrest => .committed ?_
  obtain ⟨message, after, hmessage, hafter, hread⟩ := maybe_text rest
  rw [bind_apply, hmessage, readCall, hread]
  refine .bind (.take (takes_sign _) (hafter.trans hrest.suffix)) fun _ _ hrest => ?_
  refine .bind (.take takes_channelArrow hrest.suffix) fun _ _ hrest => ?_
  exact .bind (.take (takes_identifierOf _) hrest.suffix) fun _ _ hrest => .ok hrest

theorem flow_chooses (ls : Lexemes) : Chooses ls (flow ls) (flowForm (meaningful ls)) := by
  refine .take takes_identifier (List.suffix_refl ls) fun _ _ hrest => ?_
  refine .take (takes_pick flowKind?) hrest.suffix fun _ _ hrest => .committed ?_
  exact .bind (.take (takes_identifierOf _) hrest.suffix) fun _ _ hrest => .ok hrest

/-! ## Blocks -/

theorem skipSemicolon_eq (ts : Tokens) :
    skipSemicolon ts = (taking (only? (.sign .semicolon)) ts).2 := by
  rcases ts with _ | ⟨⟨t, span⟩, ts⟩
  · rfl
  · cases t with
    | sign s => cases s <;> rfl
    | _ => rfl

theorem maybe_semicolon (ls : Lexemes) : ∃ o rest, maybe (sign .semicolon) ls = .ok o rest ∧
    rest <:+ ls ∧ skipSemicolon (meaningful ls) = meaningful rest := by
  obtain ⟨o, rest, hmaybe, hrest, htaking⟩ := maybe_takes (takes_sign .semicolon) ls
  exact ⟨o, rest, hmaybe, hrest, by rw [skipSemicolon_eq, htaking]⟩

/-- A block is read by its loop, as long as its items are on no more than `n` lexemes. -/
theorem block_follows {α : Type} {n : Nat} {item : Parser α}
    {r : Tokens → Read (Option (α × Tokens))} {more : Tokens → Read (List α × Tokens)}
    (hmore : ∀ ts, more ts = blockFrom ts (r ts) more)
    (hitem : ∀ ls, ls.length ≤ n → Chooses ls (item ls) (r (meaningful ls)))
    (hn : ls.length ≤ n) (hls : Leaves begin ls) :
    Follows begin (block item ls) (more (meaningful ls)) := by
  have hrepeating : ∀ ts, more ts = repeating ts
      (Option.map (fun q => (q.1, skipSemicolon q.2)) <$> r ts) more := by
    intro ts
    rw [hmore]
    cases r ts with
    | error x => rfl
    | ok o => cases o <;> rfl
  refine .many hrepeating (fun ls hn => ?_) hn hls
  refine Chooses.after (hitem ls hn) fun a rest => ?_
  obtain ⟨o, after, hmaybe, hafter, hskip⟩ := maybe_semicolon rest
  refine ⟨a, after, ?_, hafter, by rw [hskip]⟩
  rw [bind_apply, hmaybe]
  rfl

/-- A property from after its key. -/
def readValue (key : Spanned PropertyKey) (start ts : Tokens) : Read (PropertyDecl × Tokens) := do
  let (_, ts) ← readSign .colon start ts
  let (value, ts) ← readTextLiteral .propertyValue start ts
  return ({ key, value }, ts)

def propertyForm (ts : Tokens) : Read (Option (PropertyDecl × Tokens)) :=
  leading propertyKey? ts fun key rest => some <$> readValue key ts rest

theorem readProperty_eq_form (ts : Tokens) : readProperty ts = propertyForm ts := by
  cases ts with
  | nil => rfl
  | cons t ts =>
    simp only [readProperty, propertyForm, leading, propertyKey?]
    cases (name? t.value).bind PropertyKey.ofText? with
    | none => rfl
    | some key =>
      simp only [readValue]
      cases readSign .colon (t :: ts) ts with
      | error x => rfl
      | ok q =>
        simp only [bind, Except.bind]
        cases readTextLiteral .propertyValue (t :: ts) q.2 <;> rfl

theorem property_chooses (ls : Lexemes) :
    Chooses ls (property ls) (readProperty (meaningful ls)) := by
  rw [readProperty_eq_form]
  refine .take takes_propertyKey (List.suffix_refl ls) fun _ _ hrest => .committed ?_
  refine .bind (.take (takes_sign _) hrest.suffix) fun _ _ hrest => ?_
  exact .bind (.take (takes_textOf _) hrest.suffix) fun _ _ hrest => .ok hrest

def annotationForm (ts : Tokens) : Read (Option (Spanned Statement × Tokens)) :=
  leading (only? (.sign .at)) ts fun at_ rest => some <$> readAnnotationDef at_.span ts rest

theorem annotationDef_chooses (ls : Lexemes) :
    Chooses ls (annotationDef ls) (annotationForm (meaningful ls)) := by
  refine .take (takes_sign .at) (List.suffix_refl ls) fun _ _ hrest => .committed ?_
  refine .bind (.take (takes_identifierOf _) hrest.suffix) fun _ _ hrest => ?_
  refine .bind (.take (takes_sign _) hrest.suffix) fun _ _ hrest => ?_
  refine .bind (block_follows readProperties_eq (fun ls _ => property_chooses ls)
    (Nat.le_refl _) hrest) fun _ _ hrest => ?_
  exact .bind (.take (takes_blockEnd _) hrest.suffix) fun _ _ hrest => .ok hrest

/-! ### Steps -/

def requestForm (ts : Tokens) : Read (Option (Spanned StepDecl × Tokens)) :=
  leading name? ts fun source rest =>
    leading (only? (.sign .dash)) rest fun _ rest =>
      leading (only? (.sign .leftParen)) rest fun _ rest => some <$> readRequestStep source ts rest

def writeForm (ts : Tokens) : Read (Option (Spanned StepDecl × Tokens)) :=
  leading name? ts fun left rest =>
    leading (only? (.sign .dash)) rest fun _ rest =>
      leading textValue? rest fun message rest => some <$> readWriteStep left message ts rest

def responseForm (ts : Tokens) : Read (Option (Spanned StepDecl × Tokens)) :=
  leading name? ts fun requester rest =>
    leading (only? (.sign .doubleDash)) rest fun _ rest =>
      some <$> readResponseStep requester ts rest

def readForm (ts : Tokens) : Read (Option (Spanned StepDecl × Tokens)) :=
  leading name? ts fun left rest =>
    leading (only? (.sign .leftArrow)) rest fun _ rest => some <$> readReadStep left ts rest

theorem requestStep_chooses (ls : Lexemes) :
    Chooses ls (requestStep ls) (requestForm (meaningful ls)) := by
  refine .take takes_identifier (List.suffix_refl ls) fun _ _ hrest => ?_
  refine .take (takes_sign .dash) hrest.suffix fun _ _ hrest => ?_
  refine .take (takes_sign .leftParen) hrest.suffix fun _ rest hrest => .committed ?_
  obtain ⟨message, after, hmessage, hafter, hread⟩ := maybe_text rest
  rw [bind_apply, hmessage, readRequestStep, hread]
  refine .bind (.take (takes_sign _) (hafter.trans hrest.suffix)) fun _ _ hrest => ?_
  refine .bind (.take takes_channelArrow hrest.suffix) fun _ _ hrest => ?_
  exact .bind (.take takes_identifier hrest.suffix) fun _ _ hrest => .ok hrest

theorem writeStep_chooses (ls : Lexemes) :
    Chooses ls (writeStep ls) (writeForm (meaningful ls)) := by
  refine .take takes_identifier (List.suffix_refl ls) fun _ _ hrest => ?_
  refine .take (takes_sign .dash) hrest.suffix fun _ _ hrest => ?_
  refine .take takes_text hrest.suffix fun _ _ hrest => .committed ?_
  refine .bind (.take (takes_sign _) hrest.suffix) fun _ _ hrest => ?_
  exact .bind (.take takes_identifier hrest.suffix) fun _ _ hrest => .ok hrest

theorem responseStep_chooses (ls : Lexemes) :
    Chooses ls (responseStep ls) (responseForm (meaningful ls)) := by
  refine .take takes_identifier (List.suffix_refl ls) fun _ _ hrest => ?_
  refine .take (takes_sign .doubleDash) hrest.suffix fun _ _ hrest => .committed ?_
  refine .bind (.take (takes_sign _) hrest.suffix) fun _ rest hrest => ?_
  obtain ⟨message, after, hmessage, hafter, hread⟩ := maybe_text rest
  rw [bind_apply, hmessage]
  dsimp only
  rw [hread]
  refine .bind (.take (takes_sign _) (hafter.trans hrest.suffix)) fun _ _ hrest => ?_
  refine .bind (.take (takes_sign _) hrest.suffix) fun _ _ hrest => ?_
  exact .bind (.take takes_identifier hrest.suffix) fun _ _ hrest => .ok hrest

theorem readStep_chooses (ls : Lexemes) :
    Chooses ls (readStep ls) (readForm (meaningful ls)) := by
  refine .take takes_identifier (List.suffix_refl ls) fun _ _ hrest => ?_
  refine .take (takes_sign .leftArrow) hrest.suffix fun _ _ hrest => .committed ?_
  refine .bind (.take (takes_textOf _) hrest.suffix) fun _ _ hrest => ?_
  refine .bind (.take (takes_sign _) hrest.suffix) fun _ _ hrest => ?_
  exact .bind (.take takes_identifier hrest.suffix) fun _ _ hrest => .ok hrest

/-- The second and third tokens of a step tell its form. -/
theorem readStep_eq_forms (ts : Tokens) : Reader.readStep ts =
    orElse (requestForm ts) (orElse (writeForm ts) (orElse (responseForm ts) (readForm ts))) := by
  rcases ts with _ | ⟨⟨t, span⟩, _ | ⟨⟨u, at_⟩, ts⟩⟩
  · rfl
  · cases t <;> rfl
  cases t with
  | identifier name =>
    cases u with
    | sign s =>
      cases s with
      | dash =>
        rcases ts with _ | ⟨⟨v, place⟩, ts⟩
        · rfl
        cases v with
        | text value => exact (orElse_form _ _).symm
        | sign s =>
          cases s with
          | leftParen => exact (orElse_form _ _).symm
          | _ => rfl
        | _ => rfl
      | doubleDash => exact (orElse_form _ _).symm
      | _ => rfl
    | _ => rfl
  | _ => rfl

theorem step_chooses (ls : Lexemes) : Chooses ls (step ls) (Reader.readStep (meaningful ls)) := by
  rw [readStep_eq_forms]
  exact .alt (requestStep_chooses ls) (.alt (writeStep_chooses ls)
    (.alt (responseStep_chooses ls) (readStep_chooses ls)))

def scenarioForm (ts : Tokens) : Read (Option (Spanned Statement × Tokens)) :=
  leading textValue? ts fun name rest => some <$> readScenario name ts rest

theorem scenarioDef_chooses (ls : Lexemes) :
    Chooses ls (scenarioDef ls) (scenarioForm (meaningful ls)) := by
  refine .take takes_text (List.suffix_refl ls) fun _ _ hrest => .committed ?_
  refine .bind (.take takes_scenarioStart hrest.suffix) fun _ _ hrest => ?_
  refine .bind (block_follows readSteps_eq (fun ls _ => step_chooses ls)
    (Nat.le_refl _) hrest) fun _ _ hrest => ?_
  exact .bind (.take (takes_blockEnd _) hrest.suffix) fun _ _ hrest => .ok hrest

end Parser

end ArchScript
