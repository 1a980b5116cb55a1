/-
  One character of look-ahead decides.

  If a text goes on from one lexeme to a longer one, then its next character already makes a
  lexeme of it (`Spells.exists_next`). So a lexeme is the longest where it stands exactly when
  the one character behind it continues no lexeme (`longest_iff_next`), and pieces that are cut
  off before a character are cut off before it in every other text (`Greedy.relocate`). No
  token is continued by a closing sign (`Spells.longest_before_closer`).
-/
import ArchScript.Proofs.Lexing.Greedy

namespace ArchScript

/-! ## The next character -/

/-- A sign that begins a longer one is itself continued, character by character, by signs. -/
theorem exists_sign_next : ∀ s ∈ Sign.all, ∀ t ∈ Sign.all, s.spelling <+: t.spelling → s ≠ t →
    ∃ u ∈ Sign.all, u.spelling = t.spelling.take (s.spelling.length + 1) := by decide

theorem isWordStart_of_group {c : Char} (h : groupOf c = .word) : Lexer.isWordStart c = true := by
  unfold groupOf at h
  split_ifs at h with _ _ hword
  exact hword

/-- A lexeme that begins with another is of its class. -/
theorem Spells.group_of_append {l l' : Lexeme} {w v : List Char} (h : Spells l w)
    (h' : Spells l' (w ++ v)) : l'.group = l.group := by
  obtain ⟨d, ds, rfl⟩ := List.exists_cons_of_ne_nil h.ne_nil
  exact (h'.group_of_front (List.prefix_refl _)).trans h.group_eq.symm

/-- A text literal ends at its quote and is the beginning of no longer lexeme. -/
theorem Inside.not_spells_append {v w r : List Char} {l : Lexeme} {c : Char} (h : Inside v w) :
    ¬ Spells l ('\'' :: (w ++ ['\'']) ++ c :: r) := by
  intro hl
  have hfront : '\'' :: (w ++ ['\'']) ++ c :: r <+: '\'' :: (w ++ '\'' :: c :: r) := by simp
  have hlength := (h.longest (c :: r)).longest l _ hl hfront
  simp only [List.length_append, List.length_cons] at hlength
  omega

/-- A word that is the beginning of a longer one is continued by a word. -/
theorem Spells.exists_next_word {l l' : Lexeme} {w r : List Char} {c : Char}
    (hl : l.group = .word) (h : Spells l w) (h' : Spells l' (w ++ c :: r))
    (hl' : l'.group = .word) : ∃ l'', Spells l'' (w ++ [c]) := by
  have hall := Lexer.isWordChar_of_word h' hl'
  obtain ⟨d, ds, rfl⟩ := List.exists_cons_of_ne_nil h.ne_nil
  refine ⟨_, Lexer.spells_wordToken (isWordStart_of_group (h.group_eq.symm.trans hl))
    fun e he => hall e (List.mem_cons_of_mem d ?_)⟩
  rw [List.append_eq, List.append_cons]
  exact List.mem_append_left r he

/-- Where a text goes on from a lexeme to a longer one, its next character makes a lexeme. -/
theorem Spells.exists_next {l l' : Lexeme} {w r : List Char} {c : Char} (h : Spells l w)
    (h' : Spells l' (w ++ c :: r)) : ∃ l'', Spells l'' (w ++ [c]) := by
  have hgroup := h.group_of_append h'
  generalize hu : w ++ c :: r = u at h'
  cases h with
  | comment text hline =>
    cases h' with
    | comment text' hline' =>
      obtain rfl : text ++ c :: r = text' := (List.cons.inj (List.cons.inj hu).2).2
      refine ⟨_, .comment (text ++ [c]) fun hmem => hline' ?_⟩
      rw [List.append_cons]
      exact List.mem_append_left r hmem
    | _ => cases hgroup
  | text hinside => exact (hinside.not_spells_append (hu ▸ h')).elim
  | sign s =>
    cases h' with
    | sign t =>
      have hprefix : s.spelling <+: t.spelling := ⟨c :: r, hu⟩
      have hne : s ≠ t := by
        rintro rfl
        simp at hu
      obtain ⟨v, _, hv⟩ := exists_sign_next s s.mem_all t t.mem_all hprefix hne
      refine ⟨.token (.sign v), ?_⟩
      have htake : s.spelling ++ [c] = v.spelling := by
        rw [hv, ← hu, List.take_length_add_append, List.take_succ_cons, List.take_zero]
      rw [htake]
      exact .sign v
    | _ => cases hgroup
  | lineBreak =>
    cases h' with
    | lineBreak => cases (List.cons.inj hu).2
    | _ => cases hgroup
  | blanks hne hblank =>
    cases h' with
    | blanks _ hblank' =>
      refine ⟨.blanks, .blanks (by simp) fun d hd => hblank' d ?_⟩
      rw [← hu, List.append_cons]
      exact List.mem_append_left r hd
    | _ => cases hgroup
  | keyword k => exact exists_next_word rfl (.keyword k) (hu ▸ h') hgroup
  | identifier hc hcs hfree =>
    exact exists_next_word rfl (.identifier hc hcs hfree) (hu ▸ h') hgroup

/-- A lexeme is the longest where the next character continues no lexeme with it. -/
theorem longest_iff_next {l : Lexeme} {w r : List Char} {c : Char} :
    Longest l w (w ++ c :: r) ↔ Spells l w ∧ ∀ l', ¬ Spells l' (w ++ [c]) := by
  constructor
  · intro h
    refine ⟨h.spells, fun l' hl' => ?_⟩
    have hfront : w ++ [c] <+: w ++ c :: r := ⟨r, (List.append_cons w c r).symm⟩
    have hlength := h.longest l' _ hl' hfront
    rw [List.length_append, List.length_singleton] at hlength
    omega
  · rintro ⟨hspells, hnext⟩
    refine ⟨hspells, List.prefix_append w _, fun l' w' hl' hw' => ?_⟩
    by_contra hlonger
    rw [Nat.not_le] at hlonger
    -- the longer lexeme begins with `w` and goes on with `c`
    obtain ⟨v, rfl⟩ := List.prefix_of_prefix_length_le (List.prefix_append w (c :: r)) hw'
      (Nat.le_of_lt hlonger)
    cases v with
    | nil => simp at hlonger
    | cons d v =>
      obtain ⟨rfl, _⟩ := List.cons_prefix_cons.1 ((List.prefix_append_right_inj w).1 hw')
      obtain ⟨l'', hl''⟩ := hspells.exists_next hl'
      exact hnext l'' hl''

/-! ## Before closing signs -/

/-- The signs that close statements and blocks. -/
def closers : List Char := [';', '}']

theorem isWordChar_closer {c : Char} (hc : c ∈ closers) : Lexer.isWordChar c = false := by
  simp only [closers, List.mem_cons, List.not_mem_nil, or_false] at hc
  rcases hc with rfl | rfl <;> decide

/-- No sign goes on with a closing sign. -/
theorem spelling_ne_append_closer (s t : Sign) {c : Char} (hc : c ∈ closers) :
    t.spelling ≠ s.spelling ++ [c] := by
  simp only [closers, List.mem_cons, List.not_mem_nil, or_false] at hc
  intro h
  have hlast := congrArg List.getLast? h
  have hlength := congrArg List.length h
  have hpos := List.length_pos_iff.2 s.spelling_ne_nil
  rw [List.getLast?_concat] at hlast
  rw [List.length_append, List.length_singleton] at hlength
  have hlong : 2 ≤ t.spelling.length := by omega
  rcases hc with rfl | rfl <;> cases t <;> revert hlast hlong <;> decide

/-- A closing sign continues no token. -/
theorem Spells.not_append_closer {t : Token} {l : Lexeme} {w : List Char} {c : Char}
    (h : Spells (.token t) w) (hc : c ∈ closers) : ¬ Spells l (w ++ [c]) := by
  intro h'
  have hgroup := h.group_of_append h'
  have hword : l.group ≠ .word := by
    intro hl
    have hall := Lexer.isWordChar_of_word h' hl c (by simp)
    rw [isWordChar_closer hc] at hall
    cases hall
  cases t with
  | keyword k => exact hword hgroup
  | identifier x => exact hword hgroup
  | text x =>
    cases h with
    | text hinside => exact hinside.not_spells_append h'
  | sign s =>
    cases h with
    | sign =>
      generalize hu : s.spelling ++ [c] = u at h'
      cases h' with
      | sign t => exact spelling_ne_append_closer s t hc hu.symm
      | _ => cases hgroup

/-- A token is the longest lexeme before a closing sign. -/
theorem Spells.longest_before_closer {t : Token} {w : List Char} {c : Char}
    (h : Spells (.token t) w) (hc : c ∈ closers) (r : List Char) :
    Longest (.token t) w (w ++ c :: r) :=
  longest_iff_next.2 ⟨h, fun _ => h.not_append_closer hc⟩

/-! ## Pieces in another text -/

/-- The text that pieces make up. -/
def textOf (ps : List Piece) : List Char := ps.flatMap Piece.chars

@[simp] theorem textOf_nil : textOf [] = [] := rfl

@[simp] theorem textOf_cons (p : Piece) (ps : List Piece) :
    textOf (p :: ps) = p.chars ++ textOf ps := rfl

@[simp] theorem textOf_append (ps qs : List Piece) :
    textOf (ps ++ qs) = textOf ps ++ textOf qs := List.flatMap_append

theorem Greedy.textOf_eq {cs : List Char} {ps : List Piece} (h : Greedy cs ps) :
    textOf ps = cs := by
  induction h with
  | nil => rfl
  | cons hcs _ _ ih => rw [textOf_cons, ih, hcs]

theorem greedy_append_iff {p : Piece} {ps : List Piece} {cs : List Char} :
    Greedy (p.chars ++ cs) (p :: ps) ↔ Longest p.lexeme p.chars (p.chars ++ cs) ∧ Greedy cs ps := by
  constructor
  · intro h
    generalize htext : p.chars ++ cs = text at h ⊢
    cases h with
    | cons hcs hp hrest =>
      obtain rfl := List.append_cancel_left (hcs.trans htext.symm)
      exact ⟨hp, hrest⟩
  · rintro ⟨hp, hrest⟩
    exact .cons rfl hp hrest

/-- What is left when pieces are cut off is cut up into the others. -/
theorem Greedy.drop {ps qs : List Piece} {r : List Char}
    (h : Greedy (textOf ps ++ r) (ps ++ qs)) : Greedy r qs := by
  induction ps with
  | nil => exact h
  | cons p ps ih =>
    rw [textOf_cons, List.append_assoc] at h
    exact ih (greedy_append_iff.1 h).2

/-- Pieces that are cut off at the front are those of the text that they make up. -/
theorem Greedy.take {ps qs : List Piece} {r : List Char}
    (h : Greedy (textOf ps ++ r) (ps ++ qs)) : Greedy (textOf ps) ps := by
  induction ps with
  | nil => exact .nil
  | cons p ps ih =>
    rw [textOf_cons, List.append_assoc] at h
    obtain ⟨hp, hrest⟩ := greedy_append_iff.1 h
    refine greedy_append_iff.2 ⟨⟨hp.spells, List.prefix_append _ _, fun l w hl hw => ?_⟩, ih hrest⟩
    refine hp.longest l w hl (hw.trans ?_)
    rw [← List.append_assoc]
    exact List.prefix_append _ r

/-- What is cut up before a character is cut up alike before this character in another text. -/
theorem Greedy.relocate {ps qs qs' : List Piece} {c : Char} {r r' : List Char}
    (h : Greedy (textOf ps ++ c :: r) (ps ++ qs)) (h' : Greedy (c :: r') qs') :
    Greedy (textOf ps ++ c :: r') (ps ++ qs') := by
  induction ps with
  | nil => exact h'
  | cons p ps ih =>
    rw [textOf_cons, List.append_assoc] at h ⊢
    obtain ⟨hp, hrest⟩ := greedy_append_iff.1 h
    refine greedy_append_iff.2 ⟨?_, ih hrest⟩
    -- the character behind the piece is the same in both texts
    cases htext : textOf ps with
    | nil =>
      rw [htext] at hp
      exact longest_iff_next.2 (longest_iff_next.1 hp)
    | cons d ds =>
      rw [htext] at hp
      exact longest_iff_next.2 (longest_iff_next.1 hp)

end ArchScript
