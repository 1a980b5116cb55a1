/-
  Agendas: what a program still needs after its first tokens.

  An agenda lists the slots that are to be filled, the next one first. `step` gives the agenda
  after one more token, or nothing when no program goes on with it. A step sees one token,
  where the reader looks up to three ahead before it is bound to a form: so agendas tell at
  which token a beginning of a program ends. Every agenda that comes up can be completed
  (`exists_completion`), so what it admits so far is the beginning of a program.
-/
import ArchScript.Program.Fault
import ArchScript.Proofs.Grammar.Rules

namespace ArchScript

/-! ## Slots -/

/-- What the next tokens are for. -/
inductive Slot where
  /-- this token and no other -/
  | token (t : Token)
  | name
  | literal
  /-- the arrow of a channel -/
  | arrow
  /-- a statement, property or step -/
  | item (kind : BlockItem)
  /-- the statement after the name that it begins with -/
  | namedStatement
  /-- the call after its name and dash -/
  | dashedStatement
  /-- the step after the name that it begins with -/
  | namedStep
  /-- the step after its name and dash -/
  | dashedStep
  /-- the message of a reading step, and the dash after it -/
  | readMessage
  /-- the `@` of a further reference -/
  | anotherAt
  /-- the name of a further reference -/
  | anotherName
  | optionalText
  | optionalClause
  | optionalSemicolon
  | moreReferences
  /-- the items that are left in a pair of braces -/
  | block (kind : BlockItem)
  /-- the statements that are left of a program -/
  | program
deriving DecidableEq

namespace Slot

/-- The slots of an item after its first token. -/
def begins : BlockItem → Token → Option (List Slot)
  | .statement, .keyword .agent => some [literal, token (.keyword .as), name, optionalClause]
  | .statement, .keyword .store => some [literal, token (.keyword .as), name, optionalClause]
  | .statement, .keyword .user => some [literal, token (.keyword .as), name, optionalClause]
  | .statement, .keyword .note =>
    some [token (.keyword .for), name, token (.sign .colon), literal]
  | .statement, .keyword .container =>
    some [literal, token (.keyword .as), name, token (.sign .leftBrace), block .statement,
      token (.sign .rightBrace)]
  | .statement, .sign .at =>
    some [name, token (.sign .leftBrace), block .property, token (.sign .rightBrace)]
  | .statement, .text _ =>
    some [token (.sign .leftBrace), block .step, token (.sign .rightBrace)]
  | .statement, .identifier _ => some [namedStatement]
  | .property, .identifier x =>
    if (PropertyKey.ofText? x).isSome then some [token (.sign .colon), literal] else none
  | .step, .identifier _ => some [namedStep]
  | _, _ => none

/-- What is left of a slot after a token that it takes. -/
def take? (s : Slot) (t : Token) : Option (List Slot) :=
  match s with
  | token u => if t = u then some [] else none
  | name => match t with
    | .identifier _ => some []
    | _ => none
  | literal => match t with
    | .text _ => some []
    | _ => none
  | arrow => match t with
    | .sign .arrow => some []
    | .sign .asyncArrow => some []
    | _ => none
  | item kind => begins kind t
  | namedStatement => match t with
    | .keyword .is => some [token (.sign .at), name, moreReferences]
    | .sign .dash => some [dashedStatement]
    | .sign .writeArrow => some [name]
    | .sign .readArrow => some [name]
    | _ => none
  | dashedStatement => match t with
    | .sign .leftParen => some [optionalText, token (.sign .rightParen), arrow, name]
    | _ => none
  | namedStep => match t with
    | .sign .dash => some [dashedStep]
    | .sign .doubleDash =>
      some [token (.sign .leftParen), optionalText, token (.sign .rightParen),
        token (.sign .responseArrow), name]
    | .sign .leftArrow => some [readMessage]
    | _ => none
  | dashedStep => match t with
    | .sign .leftParen => some [optionalText, token (.sign .rightParen), arrow, name]
    | .text _ => some [token (.sign .arrow), name]
    | _ => none
  | readMessage => match t with
    | .text _ => some [token (.sign .dash), name]
    | _ => none
  | anotherAt => if t = .sign .at then some [anotherName] else none
  | anotherName => match t with
    | .identifier _ => some []
    | _ => none
  | optionalText => match t with
    | .text _ => some []
    | _ => none
  | optionalClause =>
    if t = .keyword .is then some [token (.sign .at), name, moreReferences] else none
  | optionalSemicolon => if t = .sign .semicolon then some [] else none
  | moreReferences => if t = .sign .comma then some [anotherAt, moreReferences] else none
  | block kind => (begins kind t).map (· ++ [optionalSemicolon, block kind])
  | program => (begins .statement t).map (· ++ [token (.sign .semicolon), program])

/-- The slot may stay empty. -/
def optional : Slot → Bool
  | optionalText => true
  | optionalClause => true
  | optionalSemicolon => true
  | moreReferences => true
  | block _ => true
  | program => true
  | _ => false

/-- How many tokens the reader gives back when nothing fills the slot: it is not bound to the
form that these tokens begin. -/
def pending : Slot → Nat
  | namedStatement => 1
  | dashedStatement => 2
  | namedStep => 1
  | dashedStep => 2
  | anotherAt => 1
  | anotherName => 2
  | _ => 0

end Slot

/-! ## Agendas -/

/-- The slots that are to be filled, the next one first. -/
abbrev Agenda := List Slot

namespace Agenda

/-- The agenda after one more token; optional slots that do not take it stay empty. -/
def step : Agenda → Token → Option Agenda
  | [], _ => none
  | s :: c, t =>
    match s.take? t with
    | some new => some (new ++ c)
    | none => if s.optional then step c t else none

/-- The agenda after more tokens. -/
def run : Agenda → List Token → Option Agenda
  | c, [] => some c
  | c, t :: ts => (step c t).bind fun d => run d ts

/-- How many tokens the reader gives back here. -/
def pending (c : Agenda) : Nat := (c.head?.map Slot.pending).getD 0

/-- Nothing more is needed. -/
def Done (c : Agenda) : Prop := ∀ s ∈ c, s.optional = true

variable {s : Slot} {c d : Agenda} {t : Token} {ts us : List Token}

@[simp] theorem run_nil (c : Agenda) : run c [] = some c := rfl

theorem run_cons (c : Agenda) (t : Token) (ts : List Token) :
    run c (t :: ts) = (step c t).bind fun d => run d ts := rfl

theorem step_take (h : s.take? t = some d) (c : Agenda) : step (s :: c) t = some (d ++ c) := by
  rw [step, h]

theorem step_skip (hs : s.optional = true) (h : s.take? t = none) (c : Agenda) :
    step (s :: c) t = step c t := by
  rw [step, h]
  exact if_pos hs

theorem step_eq_some_iff : step (s :: c) t = some d ↔
    (∃ new, s.take? t = some new ∧ d = new ++ c) ∨
      (s.take? t = none ∧ s.optional = true ∧ step c t = some d) := by
  rw [step]
  cases s.take? t with
  | none => cases s.optional <;> simp
  | some new => simp [eq_comm (a := d)]

/-- What stands below does not change how an agenda goes on. -/
theorem step_append (h : step c t = some d) (below : Agenda) :
    step (c ++ below) t = some (d ++ below) := by
  induction c with
  | nil => cases h
  | cons s c ih =>
    rw [List.cons_append, step_eq_some_iff]
    rcases step_eq_some_iff.1 h with ⟨new, hnew, rfl⟩ | ⟨hnone, hs, hstep⟩
    · exact Or.inl ⟨new, hnew, List.append_assoc _ _ _⟩
    · exact Or.inr ⟨hnone, hs, ih hstep⟩

theorem run_append (c : Agenda) (ts us : List Token) :
    run c (ts ++ us) = (run c ts).bind fun d => run d us := by
  induction ts generalizing c with
  | nil => rfl
  | cons t ts ih =>
    rw [List.cons_append, run_cons, run_cons, Option.bind_assoc]
    exact congrArg _ (funext fun d => ih d)

theorem run_append_of_eq (h : run c ts = some d) (us : List Token) :
    run c (ts ++ us) = run d us := by
  rw [run_append, h, Option.bind_some]

theorem run_below (h : run c ts = some d) (below : Agenda) :
    run (c ++ below) ts = some (d ++ below) := by
  induction ts generalizing c with
  | nil =>
    cases h
    rfl
  | cons t ts ih =>
    obtain ⟨mid, hmid, h⟩ := Option.bind_eq_some_iff.1 h
    rw [run_cons, step_append hmid, Option.bind_some]
    exact ih h

/-- An optional slot that does not take the first token changes nothing. -/
theorem run_skip (hs : s.optional = true) (h : s.take? t = none) (c : Agenda) (ts : List Token) :
    run (s :: c) (t :: ts) = run c (t :: ts) := by
  rw [run_cons, run_cons, step_skip hs h]

/-! ## Completion -/

end Agenda

namespace Slot

/-- Tokens that fill a slot which may not stay empty. -/
def filling : Slot → List Token
  | token t => [t]
  | name => [.identifier "x"]
  | literal => [.text "x"]
  | arrow => [.sign .arrow]
  | item .statement =>
    [.sign .at, .identifier "x", .sign .leftBrace, .sign .rightBrace]
  | item .property => [.identifier PropertyKey.color.text, .sign .colon, .text "x"]
  | item .step =>
    [.identifier "x", .sign .leftArrow, .text "x", .sign .dash, .identifier "x"]
  | namedStatement => [.sign .writeArrow, .identifier "x"]
  | dashedStatement =>
    [.sign .leftParen, .sign .rightParen, .sign .arrow, .identifier "x"]
  | namedStep => [.sign .leftArrow, .text "x", .sign .dash, .identifier "x"]
  | dashedStep => [.text "x", .sign .arrow, .identifier "x"]
  | readMessage => [.text "x", .sign .dash, .identifier "x"]
  | anotherAt => [.sign .at, .identifier "x"]
  | anotherName => [.identifier "x"]
  | _ => []

/-- The slot may stand before the required token `next?`; `none` is the end of the program. -/
def Before (s : Slot) (next? : Option Token) : Prop :=
  match s with
  | optionalText => next? = some (.sign .rightParen)
  | optionalSemicolon => next? = some (.sign .rightBrace)
  | block _ => next? = some (.sign .rightBrace)
  | program => next? = none
  | item _ => next? = some (.sign .semicolon) ∨ next? = some (.sign .rightBrace)
  | namedStatement => next? = some (.sign .semicolon) ∨ next? = some (.sign .rightBrace)
  | optionalClause => next? = some (.sign .semicolon) ∨ next? = some (.sign .rightBrace)
  | moreReferences => next? = some (.sign .semicolon) ∨ next? = some (.sign .rightBrace)
  | _ => True

/-- An optional slot does not take the token that it stands before. -/
theorem Before.take?_eq_none {s : Slot} {t : Token} (h : s.Before (some t))
    (hs : s.optional = true) : s.take? t = none := by
  cases s with
  | optionalText => cases h; rfl
  | optionalSemicolon => cases h; rfl
  | block kind => cases h; cases kind <;> rfl
  | program => cases h
  | optionalClause => rcases h with h | h <;> cases h <;> rfl
  | moreReferences => rcases h with h | h <;> cases h <;> rfl
  | _ => cases hs

end Slot

namespace Agenda

variable {s : Slot} {c d : Agenda} {t : Token} {ts us : List Token}

/-- Tokens that fill the slots that may not stay empty. -/
def filling (c : Agenda) : List Token := c.flatMap Slot.filling

/-- Every slot of the agenda may stand before what is filled in below it. -/
def Fits : Agenda → Prop
  | [] => True
  | s :: c => s.Before (filling c).head? ∧ Fits c

theorem filling_cons (s : Slot) (c : Agenda) : filling (s :: c) = s.filling ++ filling c := rfl

theorem filling_eq_nil_iff {s : Slot} : s.filling = [] ↔ s.optional = true := by
  cases s with
  | item kind => cases kind <;> simp [Slot.filling, Slot.optional]
  | _ => simp [Slot.filling, Slot.optional]

theorem run_filling (hs : s.optional = false) (c : Agenda) : run (s :: c) s.filling = some c := by
  cases s with
  | token t => simp [Slot.filling, run_cons, step, Slot.take?]
  | item kind => cases kind <;> rfl
  | optionalText => cases hs
  | optionalClause => cases hs
  | optionalSemicolon => cases hs
  | moreReferences => cases hs
  | block kind => cases hs
  | program => cases hs
  | _ => rfl

/-- An agenda that fits is done after its filling. -/
theorem exists_completion (h : Fits c) : ∃ d, run c (filling c) = some d ∧ Done d := by
  induction c with
  | nil => exact ⟨[], rfl, by simp [Done]⟩
  | cons s c ih =>
    obtain ⟨hbefore, hc⟩ := h
    obtain ⟨d, hd, hdone⟩ := ih hc
    rw [filling_cons]
    cases hs : s.optional with
    | false =>
      refine ⟨d, ?_, hdone⟩
      rw [run_append_of_eq (run_filling hs c)]
      exact hd
    | true =>
      rw [filling_eq_nil_iff.2 hs, List.nil_append]
      cases hfill : filling c with
      | nil =>
        rw [hfill] at hd
        cases hd
        exact ⟨s :: c, rfl, List.forall_mem_cons.2 ⟨hs, hdone⟩⟩
      | cons t ts =>
        rw [hfill] at hd hbefore
        exact ⟨d, (run_skip hs (hbefore.take?_eq_none hs) c ts).trans hd, hdone⟩

theorem fits_cons_iff : Fits (s :: c) ↔ s.Before (filling c).head? ∧ Fits c := Iff.rfl

/-- The slots that an item needs after its first token fit where the item did. -/
theorem Fits.begins {kind : BlockItem} {new : Agenda} (h : Slot.begins kind t = some new)
    (hbefore : (Slot.item kind).Before (filling c).head?) (hc : Fits c) : Fits (new ++ c) := by
  unfold Slot.begins at h
  split at h
  case h_9 =>
    split at h
    · cases h
      simp [fits_cons_iff, Slot.Before, hc]
    · cases h
  all_goals cases h
  all_goals simp_all [fits_cons_iff, Slot.Before, filling_cons, Slot.filling]

/-- What is left of a slot fits where the slot did. -/
theorem Fits.take {new : Agenda} (hfits : Fits (s :: c)) (h : s.take? t = some new) :
    Fits (new ++ c) := by
  obtain ⟨hbefore, hc⟩ := hfits
  cases s with
  | item kind => exact hc.begins h hbefore
  | block kind =>
    obtain ⟨new, hnew, rfl⟩ := Option.map_eq_some_iff.1 h
    rw [List.append_assoc]
    have hbelow : Fits ([.optionalSemicolon, .block kind] ++ c) := ⟨hbefore, hbefore, hc⟩
    exact hbelow.begins hnew (Or.inr hbefore)
  | program =>
    obtain ⟨new, hnew, rfl⟩ := Option.map_eq_some_iff.1 h
    rw [List.append_assoc]
    have hbelow : Fits ([.token (.sign .semicolon), .program] ++ c) := ⟨trivial, hbefore, hc⟩
    exact hbelow.begins hnew (Or.inl rfl)
  | token u =>
    simp only [Slot.take?] at h
    split at h <;> cases h
    exact hc
  | _ =>
    simp only [Slot.take?] at h
    split at h <;> cases h <;>
      simp_all [fits_cons_iff, Slot.Before, filling_cons, Slot.filling]

theorem Fits.step (hfits : Fits c) (h : Agenda.step c t = some d) : Fits d := by
  induction c with
  | nil => cases h
  | cons s c ih =>
    rcases step_eq_some_iff.1 h with ⟨new, hnew, rfl⟩ | ⟨_, _, hstep⟩
    · exact hfits.take hnew
    · exact ih hfits.2 hstep

theorem Fits.run (hfits : Fits c) (h : Agenda.run c ts = some d) : Fits d := by
  induction ts generalizing c with
  | nil =>
    cases h
    exact hfits
  | cons t ts ih =>
    obtain ⟨mid, hmid, h⟩ := Option.bind_eq_some_iff.1 h
    exact ih (hfits.step hmid) h

/-! ## The slot that takes a token -/

/-- A step skips optional slots up to the one that takes the token. -/
theorem exists_take (h : step c t = some d) : ∃ skipped s below new,
    c = skipped ++ s :: below ∧ s.take? t = some new ∧ d = new ++ below := by
  induction c with
  | nil => cases h
  | cons s c ih =>
    rcases step_eq_some_iff.1 h with ⟨new, hnew, rfl⟩ | ⟨_, _, hstep⟩
    · exact ⟨[], s, c, new, rfl, hnew, rfl⟩
    · obtain ⟨skipped, s', below, new, rfl, hnew, rfl⟩ := ih hstep
      exact ⟨s :: skipped, s', below, new, rfl, hnew, rfl⟩

end Agenda

end ArchScript
