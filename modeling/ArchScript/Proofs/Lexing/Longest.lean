/-
  The lexer cuts off the longest lexeme.

  The reader tries the classes of lexemes in an order and takes the first that fits. Each
  lemma `*_cuts` follows one reader: what it takes is the longest lexeme that any class has at
  the front, and where it finds a fault no class has one, a text literal with a carriage
  return apart. `readFront_cuts` is their sum.
-/
import ArchScript.Proofs.Lexing.Spelling
import ArchScript.Proofs.Names.Words

namespace ArchScript

/-- The lexeme is no text with a carriage return in it. -/
def Lexeme.Unbroken : Lexeme → Prop
  | token (.text t) => '\r' ∉ t.toList
  | _ => True

namespace Lexer

/-- A reading at the offset `pos` finds the longest lexeme where it stands, or a fault where
no lexeme stands that is unbroken. -/
def Reading.Cuts {cs : List Char} (r : Reading cs) (pos : Nat) : Prop :=
  match r.found.value with
  | .lexeme l =>
    Longest l r.taken cs ∧ l.Unbroken ∧ r.found.span = .ofSize pos (Text.byteLength r.taken)
  | .fault _ => ∀ l w, Spells l w → w <+: cs → ¬ l.Unbroken

/-! ## Runs -/

/-- A run of a class at the front of a text is part of the maximal one. -/
theorem length_le_takeWhile {p : Char → Bool} {w cs : List Char} (hw : w <+: cs)
    (h : ∀ c ∈ w, p c = true) : w.length ≤ (cs.takeWhile p).length := by
  obtain ⟨rest, rfl⟩ := hw
  rw [List.takeWhile_append_of_pos h, List.length_append]
  omega

/-- A maximal run is the longest lexeme when all lexemes of its class are runs. -/
theorem readRun_longest {pos : Nat} {p : Char → Bool} (lexeme : List Char → Lexeme) {c : Char}
    {cs : List Char} (hc : p c = true)
    (hspells : Spells (lexeme (c :: cs.takeWhile p)) (c :: cs.takeWhile p))
    (hrun : ∀ l w, Spells l w → l.group = groupOf c → ∀ d ∈ w, p d = true) :
    Longest (lexeme (c :: cs.takeWhile p)) (readRun pos p lexeme c cs).taken (c :: cs) := by
  refine ⟨hspells, ⟨_, (readRun pos p lexeme c cs).split⟩, fun l w h hw => ?_⟩
  have hlength := length_le_takeWhile hw (hrun l w h (h.group_of_front hw))
  rw [List.takeWhile_cons_of_pos hc] at hlength
  exact hlength

theorem readComment_cuts (pos : Nat) (cs : List Char) : (readComment pos cs).Cuts pos := by
  refine ⟨⟨.comment _ fun h => ?_, ⟨_, (readComment pos cs).split⟩, fun l w h hw => ?_⟩, trivial,
    rfl⟩
  · have hline := List.mem_takeWhile_imp h
    cases hline
  · have hgroup := h.group_of_front hw
    cases h with
    | comment text hline =>
      rw [List.cons_prefix_cons, List.cons_prefix_cons] at hw
      have hlength := length_le_takeWhile (p := (· != '\n')) hw.2.2 fun c hc => by
        rw [bne_iff_ne]
        rintro rfl
        exact hline hc
      simp only [readComment, Reading.ofLexeme, List.length_cons]
      omega
    | _ => cases hgroup

/-- A run that begins like a word is a keyword or an identifier. -/
theorem spells_wordToken {c : Char} {cs : List Char} (hc : isWordStart c = true)
    (hcs : ∀ d ∈ cs, isWordChar d = true) : Spells (.token (wordToken (c :: cs))) (c :: cs) := by
  unfold wordToken
  split
  · next k hk =>
    have htext : k.text = String.ofList (c :: cs) := by simpa using List.find?_some hk
    have hspell := Spells.keyword k
    rw [htext, String.toList_ofList] at hspell
    exact hspell
  · next hk =>
    refine .identifier hc hcs fun k htext => ?_
    have hne := List.find?_eq_none.1 hk k k.mem_all
    exact hne (beq_iff_eq.2 htext)

theorem unbroken_wordToken (w : List Char) : (Lexeme.token (wordToken w)).Unbroken := by
  unfold wordToken
  split <;> trivial

theorem isWordChar_of_word {l : Lexeme} {w : List Char} (h : Spells l w) (hl : l.group = .word) :
    ∀ d ∈ w, isWordChar d = true := by
  cases h with
  | keyword k => cases k <;> exact List.all_eq_true.1 (by decide)
  | identifier hc hcs _ => exact List.forall_mem_cons.2 ⟨isWordChar_of_isWordStart hc, hcs⟩
  | _ => cases hl

theorem readWord_cuts (pos : Nat) {c : Char} (hc : isWordStart c = true) (cs : List Char) :
    (readRun pos isWordChar (fun w => .token (wordToken w)) c cs).Cuts pos := by
  have hspells : Spells (.token (wordToken (c :: cs.takeWhile isWordChar)))
      (c :: cs.takeWhile isWordChar) :=
    spells_wordToken hc fun d hd => List.mem_takeWhile_imp hd
  refine ⟨readRun_longest (fun w => .token (wordToken w)) (isWordChar_of_isWordStart hc) hspells
    fun l w h hl => ?_, unbroken_wordToken _, rfl⟩
  rw [groupOf_of_isWordStart hc] at hl
  exact isWordChar_of_word h hl

theorem readBlanks_cuts (pos : Nat) {c : Char} (hc : Text.isBlank c = true) (hline : c ≠ '\n')
    (cs : List Char) :
    (readRun pos (fun d => Text.isBlank d && d != '\n') (fun _ => .blanks) c cs).Cuts pos := by
  have hblank : ∀ d, (Text.isBlank d && d != '\n') = true ↔ Text.isBlank d = true ∧ d ≠ '\n' := by
    intro d
    rw [Bool.and_eq_true, bne_iff_ne]
  have hspells : Spells .blanks (c :: cs.takeWhile fun d => Text.isBlank d && d != '\n') := by
    refine .blanks (List.cons_ne_nil _ _) (List.forall_mem_cons.2 ⟨⟨hc, hline⟩, fun d hd => ?_⟩)
    have hd := List.mem_takeWhile_imp hd
    exact (hblank d).1 hd
  refine ⟨readRun_longest (fun _ => .blanks) ((hblank c).2 ⟨hc, hline⟩) hspells
    fun l w h hl => ?_, trivial, rfl⟩
  rw [groupOf_of_isBlank hc hline] at hl
  cases h with
  | blanks _ h => exact fun d hd => (hblank d).2 (h d hd)
  | _ => cases hl

theorem readLineBreak_cuts (pos : Nat) (cs : List Char) :
    (Reading.ofLexeme pos .lineBreak '\n' [] cs rfl : Reading ('\n' :: cs)).Cuts pos := by
  refine ⟨⟨.lineBreak, ⟨cs, rfl⟩, fun l w h hw => ?_⟩, trivial, rfl⟩
  have hgroup := h.group_of_front hw
  cases h with
  | lineBreak => exact Nat.le_refl _
  | _ => cases hgroup

/-! ## Signs -/

/-- No sign is tried before a longer one that begins with it. -/
theorem pairwise_signs : Sign.all.Pairwise fun s t =>
    s.spelling <+: t.spelling → t.spelling.length ≤ s.spelling.length := by decide

/-- The sign that is found is the longest at the front. -/
theorem length_le_of_sign? {cs : List Char} {s t : Sign} (h : sign? cs = some s)
    (ht : t.spelling <+: cs) : t.spelling.length ≤ s.spelling.length := by
  obtain ⟨hs, before, after, hall, hbefore⟩ := List.find?_eq_some_iff_append.1 h
  have hpairs := pairwise_signs
  rw [hall] at hpairs
  have hmem : t ∈ before ++ s :: after := hall ▸ t.mem_all
  rcases List.mem_append.1 hmem with hmem | hmem
  · -- a sign that is tried earlier is not at the front
    have hnot := hbefore t hmem
    rw [List.isPrefixOf_iff_prefix.2 ht] at hnot
    cases hnot
  · rcases List.mem_cons.1 hmem with rfl | hmem
    · exact Nat.le_refl _
    · have hafter := (List.pairwise_cons.1 (List.pairwise_append.1 hpairs).2.1).1 t hmem
      rcases Nat.le_total t.spelling.length s.spelling.length with hle | hle
      · exact hle
      · exact hafter (List.prefix_of_prefix_length_le (List.isPrefixOf_iff_prefix.1 hs) ht hle)

theorem readSign_cuts (pos : Nat) {c : Char} {cs : List Char}
    (hgroup : groupOf c = .sign ∨ groupOf c = .comment) (hcomment : ¬ ['/', '/'] <+: c :: cs) :
    (readSign pos c cs).Cuts pos := by
  unfold readSign
  split
  · next s hs =>
    have hfront : s.spelling <+: c :: cs := ⟨_, spelling_append_of_sign? hs⟩
    refine ⟨⟨.sign s, hfront, fun l w h hw => ?_⟩, trivial, rfl⟩
    have hl : l.group = .sign :=
      (h.group_of_front hw).trans ((Spells.sign s).group_of_front hfront).symm
    cases h with
    | sign t => exact length_le_of_sign? hs hw
    | _ => cases hl
  · next hs =>
    intro l w h hw _
    rw [← h.group_of_front hw] at hgroup
    cases h with
    | comment text _ => exact hcomment ((List.prefix_append ['/', '/'] text).trans hw)
    | sign t =>
      have hnot := List.find?_eq_none.1 hs t t.mem_all
      exact hnot (List.isPrefixOf_iff_prefix.2 hw)
    | _ => rcases hgroup with hgroup | hgroup <;> cases hgroup

/-! ## Text literals -/

theorem escape_ne_return {e x : Char} (h : (e, x) ∈ escapes) : x ≠ '\r' := by
  rintro rfl
  simp [escapes] at h

/-- A character in a text that begins neither kind of escape is no backslash. -/
theorem ne_backslash {c : Char} {cs : List Char} (hlast : c = '\\' → cs = [] → False)
    (hescape : ∀ e es, c = '\\' → cs = e :: es → False) : c ≠ '\\' := by
  rintro rfl
  cases cs with
  | nil => exact hlast rfl rfl
  | cons e es => exact hescape e es rfl rfl

/-- What is read to a closing quote is the inside of a text literal on one line. -/
theorem inside_of_scanText {cs : List Char} (h : (scanText cs).ending = .closed) :
    ∃ w, (scanText cs).taken = w ++ ['\''] ∧ Inside (scanText cs).value w ∧
      '\r' ∉ (scanText cs).value := by
  fun_induction scanText cs with
  | case1 => cases h
  | case2 cs => exact ⟨[], rfl, .nil, List.not_mem_nil⟩
  | case3 => cases h
  | case4 e cs x hx ih =>
    obtain ⟨w, htaken, hinside, hreturn⟩ := ih h
    have he := escaped?_eq_some_iff.1 hx
    refine ⟨'\\' :: e :: w, ?_, .escape he hinside, ?_⟩
    · simp only [TextScan.push, htaken]
      rfl
    · exact List.not_mem_cons_of_ne_of_not_mem (escape_ne_return he).symm hreturn
  | case5 => cases h
  | case6 => cases h
  | case7 c cs hquote hlast hslash hline ih =>
    obtain ⟨w, htaken, hinside, hreturn⟩ := ih h
    rw [isLineEnd, Bool.or_eq_true, beq_iff_eq, beq_iff_eq, not_or] at hline
    refine ⟨c :: w, ?_, .plain hquote (ne_backslash hlast hslash) hline.1 hinside, ?_⟩
    · simp only [TextScan.push, htaken]
      rfl
    · exact List.not_mem_cons_of_ne_of_not_mem (Ne.symm hline.2) hreturn

/-- The inside of a text literal on one line is read, and then what follows it. -/
theorem scanText_append {v w : List Char} (h : Inside v w) (hreturn : '\r' ∉ v)
    (cs : List Char) :
    scanText (w ++ cs) =
      { scanText cs with
        value := v ++ (scanText cs).value
        taken := w ++ (scanText cs).taken } := by
  induction h with
  | nil => rfl
  | @plain c v w hquote hslash hline _ ih =>
    rw [List.mem_cons, not_or] at hreturn
    have hend : isLineEnd c = false := by
      rw [isLineEnd, Bool.or_eq_false_iff, beq_eq_false_iff_ne, beq_eq_false_iff_ne]
      exact ⟨hline, Ne.symm hreturn.1⟩
    rw [List.cons_append, scanText, ih hreturn.2]
    · simp [hend, TextScan.push]
    · exact hquote
    · exact fun hc _ => hslash hc
    · exact fun _ _ hc _ => hslash hc
  | @escape e x v w he _ ih =>
    rw [List.mem_cons, not_or] at hreturn
    rw [List.cons_append, List.cons_append, scanText, escaped?_eq_some_iff.2 he]
    simp [ih hreturn.2, TextScan.push]

/-- The inside of a text literal on one line is read to its closing quote. -/
theorem scanText_of_inside {v w : List Char} (h : Inside v w) (hreturn : '\r' ∉ v)
    (rest : List Char) :
    scanText (w ++ '\'' :: rest) =
      { ending := .closed, value := v, taken := w ++ ['\''], rest } := by
  rw [scanText_append h hreturn, scanText, List.append_nil]

/-- A text literal at the front stands on one line only if it is read to its closing quote. -/
theorem not_unbroken_of_scanText {cs : List Char} (h : (scanText cs).ending ≠ .closed)
    {l : Lexeme} {w : List Char} (hl : Spells l w) (hw : w <+: '\'' :: cs) : ¬ l.Unbroken := by
  have hgroup := hl.group_of_front hw
  cases hl with
  | @text v u hinside =>
    intro hreturn
    rw [Lexeme.Unbroken, String.toList_ofList] at hreturn
    obtain ⟨rest, hrest⟩ := (List.cons_prefix_cons.1 hw).2
    rw [List.append_assoc] at hrest
    rw [← hrest, List.singleton_append, scanText_of_inside hinside hreturn] at h
    exact h rfl
  | _ => cases hgroup

theorem readText_cuts (pos : Nat) (cs : List Char) : (readText pos cs).Cuts pos := by
  have hsplit := scanText_split cs
  unfold readText
  dsimp only
  split
  · next hend =>
    obtain ⟨u, htaken, hinside, hreturn⟩ := inside_of_scanText hend
    have hlongest := hinside.longest (scanText cs).rest
    rw [List.append_cons u '\'' (scanText cs).rest, ← htaken, hsplit] at hlongest
    refine ⟨hlongest, ?_, rfl⟩
    rw [Lexeme.Unbroken, String.toList_ofList]
    exact hreturn
  · next hend =>
    exact fun l w h hw => not_unbroken_of_scanText (by rw [hend]; nofun) h hw
  · next hend =>
    exact fun l w h hw => not_unbroken_of_scanText (by rw [hend]; nofun) h hw

/-! ## The front of a source -/

theorem readFront_cuts (pos : Nat) (c : Char) (cs : List Char) :
    (readFront pos c cs).Cuts pos := by
  unfold readFront
  split
  · exact readComment_cuts pos _
  · exact readText_cuts pos _
  · next hquote hcomment =>
    split
    · next hword => exact readWord_cuts pos hword _
    · next hword =>
      split
      · next hline =>
        subst hline
        exact readLineBreak_cuts pos _
      · next hline =>
        split
        · next hblank => exact readBlanks_cuts pos hblank hline _
        · next hblank =>
          refine readSign_cuts pos ?_ fun hslashes => ?_
          · unfold groupOf
            rw [if_neg hquote, if_neg hword, if_neg hline, if_neg hblank]
            exact (ite_eq_or_eq _ _ _).symm
          · rw [List.cons_prefix_cons] at hslashes
            obtain ⟨rest, hrest⟩ := hslashes.2
            exact hcomment rest hslashes.1.symm hrest.symm

end Lexer

end ArchScript
