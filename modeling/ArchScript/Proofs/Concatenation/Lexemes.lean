/-
  The lexemes of two sources with a line break between them.

  A line feed is in no lexeme but the line break (`Spells.eq_of_lineFeed`), so nothing that
  begins in the first source reaches into the second, a comment at its end included: the
  longest lexeme stays the longest (`Longest.append_line`), and the pieces of the whole are those
  of the two sources (`Greedy.append_line`). The second source is what it was, its spans moved
  (`tokenize_append_line`).
-/
import ArchScript.Proofs.Layout.Moved
import ArchScript.Proofs.Lexing.Greedy

namespace ArchScript

/-! ## Line feeds -/

theorem Inside.lineFeed_not_mem {v w : List Char} (h : Inside v w) : '\n' ∉ w := by
  induction h with
  | nil => exact List.not_mem_nil
  | plain _ _ hline _ ih =>
    exact fun hmem => (List.mem_cons.1 hmem).elim (fun heq => hline heq.symm) ih
  | @escape e _ _ _ he _ ih =>
    have hne : '\n' ≠ e := by
      rintro rfl
      simp [escapes] at he
    simp [hne, ih]

/-- A line feed is in no lexeme but the line break. -/
theorem Spells.eq_of_lineFeed {l : Lexeme} {w : List Char} (h : Spells l w) (hmem : '\n' ∈ w) :
    w = ['\n'] := by
  cases h with
  | comment text hline => simp [hline] at hmem
  | text h => simp [h.lineFeed_not_mem] at hmem
  | sign s =>
    revert hmem
    cases s <;> decide
  | keyword k =>
    revert hmem
    cases k <;> decide
  | identifier hc hcs _ =>
    rcases List.mem_cons.1 hmem with rfl | hmem
    · exact absurd hc (by decide)
    · exact absurd (hcs _ hmem) (by decide)
  | lineBreak => rfl
  | blanks _ h => exact ((h '\n' hmem).2 rfl).elim

/-- A lexeme at the front of a text with a line feed in it ends before the line feed, or is it. -/
theorem Spells.front_of_append_line {l : Lexeme} {w cs ds : List Char} (h : Spells l w)
    (hw : w <+: cs ++ '\n' :: ds) : w <+: cs ∨ w = ['\n'] := by
  rcases Nat.lt_or_ge cs.length w.length with hlt | hle
  · have hline : cs ++ ['\n'] <+: w := by
      refine List.prefix_of_prefix_length_le ⟨ds, by simp⟩ hw ?_
      rw [List.length_append, List.length_singleton]
      omega
    exact Or.inr (h.eq_of_lineFeed (hline.subset (by simp)))
  · exact Or.inl (List.prefix_of_prefix_length_le hw (List.prefix_append _ _) hle)

/-- A line feed ends every lexeme. -/
theorem Longest.append_line {l : Lexeme} {w cs : List Char} (h : Longest l w cs) (ds : List Char) :
    Longest l w (cs ++ '\n' :: ds) := by
  refine ⟨h.spells, h.front.trans (List.prefix_append _ _), fun l' w' hw' hfront => ?_⟩
  rcases hw'.front_of_append_line hfront with hfront | rfl
  · exact h.longest l' w' hw' hfront
  · exact List.length_pos_iff.2 h.spells.ne_nil

theorem longest_lineBreak (ds : List Char) : Longest .lineBreak ['\n'] ('\n' :: ds) :=
  (Lexer.readLineBreak_cuts 0 ds).1

/-! ## Pieces -/

/-- The line break between two sources. -/
def linePiece : Piece := ⟨.lineBreak, ['\n']⟩

/-- The pieces of two sources with a line feed between them. -/
theorem Greedy.append_line {cs ds : List Char} {ps qs : List Piece} (h : Greedy cs ps)
    (h' : Greedy ds qs) : Greedy (cs ++ '\n' :: ds) (ps ++ linePiece :: qs) := by
  induction h with
  | nil => exact .cons rfl (longest_lineBreak ds) h'
  | cons hcs hp _ ih =>
    subst hcs
    refine .cons ?_ (hp.append_line ds) ih
    rw [List.append_assoc]

/-- A span that is moved back by `n` bytes. -/
def Span.shift (n : Nat) (s : Span) : Span where
  start := s.start + n
  stop := s.stop + n
  start_le_stop := Nat.add_le_add_right s.start_le_stop n

theorem Span.shift_union (n : Nat) (s t : Span) :
    (s.union t).shift n = (s.shift n).union (t.shift n) := by
  simp only [shift, union, Span.mk.injEq]
  omega

theorem placed_shift (pos n : Nat) (ps : List Piece) :
    placed (n + pos) ps = (placed pos ps).map (Spanned.moved (Span.shift n)) := by
  induction ps generalizing pos with
  | nil => rfl
  | cons p ps ih =>
    rw [placed, placed, List.map_cons, Nat.add_assoc, ih]
    congr 1
    simp only [Spanned.moved, Span.shift, Span.ofSize, Spanned.mk.injEq, Span.mk.injEq, true_and]
    omega

theorem Greedy.placed_append {cs : List Char} {ps : List Piece} (h : Greedy cs ps) (pos : Nat)
    (qs : List Piece) :
    placed pos (ps ++ qs) = placed pos ps ++ placed (pos + Text.byteLength cs) qs := by
  induction h generalizing pos with
  | nil => rfl
  | cons hcs _ _ ih =>
    rw [← hcs, List.cons_append, placed, placed, List.cons_append, ih, Text.byteLength_append,
      Nat.add_assoc]

/-! ## Sources -/

/-- Two sources with a line break between them have the lexemes of the first, the line break,
and the lexemes of the second, moved back. -/
theorem tokenize_append_line {a b : String} {la lb : List (Spanned Lexeme)}
    (ha : tokenize a = .ok la) (hb : tokenize b = .ok lb) :
    tokenize (a ++ "\n" ++ b) = .ok (la ++ ⟨.lineBreak, .ofSize a.utf8ByteSize 1⟩ ::
      lb.map (Spanned.moved (Span.shift (a.utf8ByteSize + 1)))) := by
  obtain ⟨ps, hps, hunbroken, rfl⟩ := tokenize_eq_ok_iff_greedy.1 ha
  obtain ⟨qs, hqs, hunbroken', rfl⟩ := tokenize_eq_ok_iff_greedy.1 hb
  refine tokenize_eq_ok_iff_greedy.2 ⟨ps ++ linePiece :: qs, ?_, ?_, ?_⟩
  · have htext : (a ++ "\n" ++ b).toList = a.toList ++ '\n' :: b.toList := by simp
    rw [htext]
    exact hps.append_line hqs
  · refine List.forall_mem_append.2 ⟨hunbroken, List.forall_mem_cons.2 ⟨trivial, hunbroken'⟩⟩
  · rw [hps.placed_append, Text.byteLength_toList, Nat.zero_add, placed, ← placed_shift]
    rfl

theorem meaningful_append_line (la lb : List (Spanned Lexeme)) (span : Span) (f : Span → Span) :
    meaningful (la ++ ⟨.lineBreak, span⟩ :: lb.map (Spanned.moved f)) =
      meaningful la ++ (meaningful lb).map (Spanned.moved f) := by
  have hmoved : meaningful (lb.map (Spanned.moved f)) =
      (meaningful lb).map (Spanned.moved f) := by
    unfold meaningful
    rw [List.filterMap_map, List.map_filterMap]
    refine List.filterMap_congr fun l _ => ?_
    simp only [Function.comp_apply, Option.map_map]
    rfl
  rw [← hmoved]
  exact List.filterMap_append

end ArchScript
