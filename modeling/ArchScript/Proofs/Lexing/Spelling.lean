/-
  How lexemes are written.

  `Spells l w` says that the characters `w` write the lexeme `l`: class by class, for `w` as
  a whole, and with no word about the text around it. The first character tells the class
  (`Spells.group_eq`), a lexeme is known by its characters (`Spells.unique`), and so is the
  longest lexeme at the front of a text (`Longest.unique`).
-/
import ArchScript.Token.Lexer
import Mathlib.Data.List.Basic
import Mathlib.Data.List.TakeWhile
import Mathlib.Tactic.SplitIfs

namespace ArchScript

/-! ## Text literals -/

/-- After a backslash the first character stands for the second. -/
def escapes : List (Char × Char) := [('\'', '\''), ('\\', '\\'), ('n', '\n'), ('t', '\t')]

/-- Between the quotes of a text literal `w` stands for the text `v`. Any character but a
line feed may stand there; a quote and a backslash are escaped. -/
inductive Inside : List Char → List Char → Prop
  | nil : Inside [] []
  | plain {c : Char} {v w : List Char} (hquote : c ≠ '\'') (hslash : c ≠ '\\') (hline : c ≠ '\n')
    (h : Inside v w) : Inside (c :: v) (c :: w)
  | escape {e x : Char} {v w : List Char} (he : (e, x) ∈ escapes) (h : Inside v w) :
    Inside (x :: v) ('\\' :: e :: w)

theorem escaped?_eq_some_iff {e x : Char} : Lexer.escaped? e = some x ↔ (e, x) ∈ escapes := by
  unfold Lexer.escaped?
  constructor
  · intro h
    split_ifs at h with h₁ h₂ h₃ h₄
    · subst h₁
      cases h
      decide
    · subst h₂
      cases h
      decide
    · subst h₃
      cases h
      decide
    · subst h₄
      cases h
      decide
  · intro h
    simp only [escapes, List.mem_cons, Prod.mk.injEq, List.not_mem_nil, or_false] at h
    rcases h with ⟨rfl, rfl⟩ | ⟨rfl, rfl⟩ | ⟨rfl, rfl⟩ | ⟨rfl, rfl⟩ <;> rfl

/-- A text literal ends at one quote, and what stands before it has one meaning. -/
theorem Inside.unique {v v' w w' r r' : List Char} (h : Inside v w) (h' : Inside v' w')
    (e : w ++ '\'' :: r = w' ++ '\'' :: r') : v = v' ∧ w = w' := by
  induction h generalizing v' w' with
  | nil =>
    cases h' with
    | nil => exact ⟨rfl, rfl⟩
    | plain hquote _ _ _ =>
      obtain ⟨rfl, _⟩ := List.cons.inj e
      exact (hquote rfl).elim
    | escape _ _ => cases (List.cons.inj e).1
  | plain hquote hslash _ _ ih =>
    cases h' with
    | nil =>
      obtain ⟨rfl, _⟩ := List.cons.inj e
      exact (hquote rfl).elim
    | plain _ _ _ h' =>
      obtain ⟨rfl, ht⟩ := List.cons.inj e
      obtain ⟨rfl, rfl⟩ := ih h' ht
      exact ⟨rfl, rfl⟩
    | escape _ _ =>
      obtain ⟨rfl, _⟩ := List.cons.inj e
      exact (hslash rfl).elim
  | escape he _ ih =>
    cases h' with
    | nil => cases (List.cons.inj e).1
    | plain _ hslash _ _ =>
      obtain ⟨rfl, _⟩ := List.cons.inj e
      exact (hslash rfl).elim
    | escape he' h' =>
      obtain ⟨_, e⟩ := List.cons.inj e
      obtain ⟨rfl, ht⟩ := List.cons.inj e
      obtain ⟨rfl, rfl⟩ := ih h' ht
      rw [← escaped?_eq_some_iff] at he he'
      rw [he] at he'
      cases he'
      exact ⟨rfl, rfl⟩

/-! ## Lexemes -/

/-- The characters `w` write the lexeme `l`. -/
inductive Spells : Lexeme → List Char → Prop
  | comment (text : List Char) (h : '\n' ∉ text) :
    Spells (.comment (String.ofList text)) ('/' :: '/' :: text)
  | text {v w : List Char} (h : Inside v w) :
    Spells (.token (.text (String.ofList v))) ('\'' :: (w ++ ['\'']))
  | sign (s : Sign) : Spells (.token (.sign s)) s.spelling
  | keyword (k : Keyword) : Spells (.token (.keyword k)) k.text.toList
  | identifier {c : Char} {cs : List Char} (hc : Lexer.isWordStart c = true)
    (hcs : ∀ d ∈ cs, Lexer.isWordChar d = true)
    (hfree : ∀ k : Keyword, k.text ≠ String.ofList (c :: cs)) :
    Spells (.token (.identifier (String.ofList (c :: cs)))) (c :: cs)
  | lineBreak : Spells .lineBreak ['\n']
  | blanks {w : List Char} (hne : w ≠ []) (h : ∀ c ∈ w, Text.isBlank c = true ∧ c ≠ '\n') :
    Spells .blanks w

/-- The classes of lexemes that their first characters tell apart. -/
inductive LexemeGroup where
  | comment
  | text
  | word
  | lineBreak
  | blanks
  | sign
deriving DecidableEq

def Lexeme.group : Lexeme → LexemeGroup
  | token (.keyword _) => .word
  | token (.identifier _) => .word
  | token (.text _) => .text
  | token (.sign _) => .sign
  | comment _ => .comment
  | blanks => .blanks
  | lineBreak => .lineBreak

/-- The class of the lexemes that begin with a character, if any do. -/
def groupOf (c : Char) : LexemeGroup :=
  if c = '/' then .comment
  else if c = '\'' then .text
  else if Lexer.isWordStart c then .word
  else if c = '\n' then .lineBreak
  else if Text.isBlank c then .blanks
  else .sign

/-- No word begins with a blank. -/
theorem isWordStart_eq_false_of_isBlank {c : Char} (h : Text.isBlank c = true) :
    Lexer.isWordStart c = false := by
  rw [Text.isBlank_iff] at h
  obtain ⟨r, hr, hlow, hhigh⟩ := h
  rw [Bool.eq_false_iff]
  intro hc
  simp only [Lexer.isWordStart, Lexer.isLetter, Bool.or_eq_true, Bool.and_eq_true,
    decide_eq_true_eq, beq_iff_eq, Char.le_def, UInt32.le_iff_toNat_le] at hc
  have hletter : 0x41 ≤ c.toNat ∧ c.toNat ≤ 0x7A := by
    rcases hc with (⟨h₁, h₂⟩ | ⟨h₁, h₂⟩) | rfl
    · exact ⟨Nat.le_trans (by decide) h₁, Nat.le_trans h₂ (by decide)⟩
    · exact ⟨Nat.le_trans (by decide) h₁, Nat.le_trans h₂ (by decide)⟩
    · decide
  simp only [Text.blankRanges, List.mem_cons, List.not_mem_nil, or_false] at hr
  rcases hr with rfl | rfl | rfl | rfl | rfl | rfl | rfl | rfl | rfl | rfl <;>
    (dsimp only at hlow hhigh; omega)

theorem groupOf_of_isWordStart {c : Char} (h : Lexer.isWordStart c = true) :
    groupOf c = .word := by
  have hslash : c ≠ '/' := by
    rintro rfl
    cases h
  have hquote : c ≠ '\'' := by
    rintro rfl
    cases h
  rw [groupOf, if_neg hslash, if_neg hquote, if_pos h]

theorem groupOf_of_isBlank {c : Char} (h : Text.isBlank c = true) (hline : c ≠ '\n') :
    groupOf c = .blanks := by
  have hslash : c ≠ '/' := by
    rintro rfl
    exact absurd h (by decide)
  have hquote : c ≠ '\'' := by
    rintro rfl
    exact absurd h (by decide)
  simp [groupOf, hslash, hquote, isWordStart_eq_false_of_isBlank h, hline, h]

namespace Spells

variable {l l' : Lexeme} {w : List Char}

theorem ne_nil (h : Spells l w) : w ≠ [] := by
  cases h with
  | sign s => exact s.spelling_ne_nil
  | keyword k => cases k <;> decide
  | blanks hne _ => exact hne
  | _ => simp

/-- The first character of a lexeme tells its class. -/
theorem group_eq {c : Char} (h : Spells l (c :: w)) : l.group = groupOf c := by
  generalize hw : c :: w = cs at h
  cases h with
  | comment text h =>
    cases hw
    rfl
  | text h =>
    cases hw
    rfl
  | sign s => cases s <;> (cases hw; decide)
  | keyword k => cases k <;> (cases hw; decide)
  | identifier hc _ _ =>
    cases hw
    exact (groupOf_of_isWordStart hc).symm
  | lineBreak =>
    cases hw
    decide
  | blanks _ h =>
    cases hw
    obtain ⟨hc, hline⟩ := h c List.mem_cons_self
    exact (groupOf_of_isBlank hc hline).symm

/-- The first character of a text tells the class of a lexeme at its front. -/
theorem group_of_front {c : Char} {cs : List Char} (h : Spells l w) (hw : w <+: c :: cs) :
    l.group = groupOf c := by
  cases w with
  | nil => exact (h.ne_nil rfl).elim
  | cons d w =>
    obtain ⟨rfl, _⟩ := List.cons_prefix_cons.1 hw
    exact h.group_eq

/-- A lexeme is known by its characters. -/
theorem unique {w' : List Char} (h : Spells l w) (h' : Spells l' w') (e : w = w') : l = l' := by
  have hgroup : l.group = l'.group := by
    obtain ⟨c, cs, rfl⟩ := List.exists_cons_of_ne_nil h.ne_nil
    subst e
    exact h.group_eq.trans h'.group_eq.symm
  cases h with
  | comment text _ =>
    cases h' with
    | comment _ _ =>
      cases e
      rfl
    | _ => cases hgroup
  | text h =>
    cases h' with
    | text h' =>
      obtain ⟨rfl, _⟩ := h.unique h' (List.cons.inj e).2
      rfl
    | _ => cases hgroup
  | sign s =>
    cases h' with
    | sign t => rw [Sign.spelling_injective e]
    | _ => cases hgroup
  | keyword k =>
    cases h' with
    | keyword k' =>
      have hk := congrArg Keyword.ofText? (String.toList_inj.1 e)
      rw [Keyword.ofText?_text, Keyword.ofText?_text] at hk
      cases hk
      rfl
    | identifier _ _ hfree => exact (hfree k (String.toList_inj.1 (by simp [e]))).elim
    | _ => cases hgroup
  | identifier _ _ hfree =>
    cases h' with
    | keyword k => exact (hfree k (String.toList_inj.1 (by simp [e]))).elim
    | identifier _ _ _ => rw [e]
    | _ => cases hgroup
  | lineBreak =>
    cases h' with
    | lineBreak => rfl
    | _ => cases hgroup
  | blanks _ _ =>
    cases h' with
    | blanks _ _ => rfl
    | _ => cases hgroup

end Spells

/-! ## Longest lexemes -/

/-- The longest lexeme at the front of `cs` is `l`, and its characters are `w`. -/
structure Longest (l : Lexeme) (w cs : List Char) : Prop where
  spells : Spells l w
  front : w <+: cs
  longest : ∀ l' w', Spells l' w' → w' <+: cs → w'.length ≤ w.length

theorem Longest.unique {l l' : Lexeme} {w w' cs : List Char} (h : Longest l w cs)
    (h' : Longest l' w' cs) : l = l' ∧ w = w' := by
  have hlength : w.length = w'.length :=
    Nat.le_antisymm (h'.longest l w h.spells h.front) (h.longest l' w' h'.spells h'.front)
  have hw : w = w' :=
    (List.prefix_of_prefix_length_le h.front h'.front (Nat.le_of_eq hlength)).eq_of_length hlength
  exact ⟨h.spells.unique h'.spells hw, hw⟩

/-- A text literal is the longest lexeme where it stands. -/
theorem Inside.longest {v w : List Char} (h : Inside v w) (rest : List Char) :
    Longest (.token (.text (String.ofList v))) ('\'' :: (w ++ ['\'']))
      ('\'' :: (w ++ '\'' :: rest)) := by
  refine ⟨.text h, ⟨rest, by simp⟩, fun l w' hl hw' => ?_⟩
  have hgroup := hl.group_of_front hw'
  cases hl with
  | text h' =>
    obtain ⟨rest', hrest⟩ := (List.cons_prefix_cons.1 hw').2
    rw [List.append_assoc] at hrest
    obtain ⟨_, rfl⟩ := h'.unique h hrest
    exact Nat.le_refl _
  | _ => cases hgroup

/-- A longest lexeme that is a word is reserved as a whole or not at all. -/
theorem Longest.keyword_iff {l : Lexeme} {w cs : List Char} (h : Longest l w cs) (k : Keyword) :
    l = .token (.keyword k) ↔ String.ofList w = k.text := by
  constructor
  · rintro rfl
    generalize hl : Lexeme.token (.keyword k) = l at h
    cases h.spells with
    | keyword k' =>
      cases hl
      exact String.ofList_toList
    | _ => cases hl
  · intro hw
    refine h.spells.unique (.keyword k) ?_
    rw [← hw, String.toList_ofList]

end ArchScript
