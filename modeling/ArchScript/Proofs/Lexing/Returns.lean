/-
  Carriage returns before line feeds are not heard.

  A carriage return is blank between two lexemes, part of a comment, the end of a text literal
  that is not closed, and an ordinary character after a bad escape. Before a line feed it makes
  no difference to any of them: each reader finds the same there, or layout instead of layout
  (`Lexer.readFront_returns`). So a scan finds the same tokens and faults in the same order
  (`Lexer.substance_scan`).
-/
import ArchScript.Proofs.Grammar.Rules
import ArchScript.Proofs.Lexing.Lines

namespace ArchScript

/-- The second text is the first with carriage returns put before some of its line feeds. -/
inductive WithReturns : List Char → List Char → Prop
  | nil : WithReturns [] []
  | keep (c : Char) {cs ds : List Char} (h : WithReturns cs ds) : WithReturns (c :: cs) (c :: ds)
  | line {cs ds : List Char} (h : WithReturns cs ds) :
    WithReturns ('\n' :: cs) ('\r' :: '\n' :: ds)

namespace WithReturns

variable {p : Char → Bool} {w cs ds : List Char}

/-- Nothing is put into what has no line feed. -/
theorem of_append (hw : '\n' ∉ w) (h : WithReturns (w ++ cs) ds) :
    ∃ ds', ds = w ++ ds' ∧ WithReturns cs ds' := by
  induction w generalizing ds with
  | nil => exact ⟨ds, rfl, h⟩
  | cons c w ih =>
    rw [List.mem_cons, not_or] at hw
    cases h with
    | keep _ h =>
      obtain ⟨ds', rfl, hrest⟩ := ih hw.2 h
      exact ⟨ds', rfl, hrest⟩
    | line h => exact (hw.1 rfl).elim

/-- What has no carriage return was there before. -/
theorem of_append_right (hw : '\r' ∉ w) (h : WithReturns cs (w ++ ds)) :
    ∃ cs', cs = w ++ cs' ∧ WithReturns cs' ds := by
  induction w generalizing cs with
  | nil => exact ⟨cs, rfl, h⟩
  | cons c w ih =>
    rw [List.mem_cons, not_or] at hw
    rw [List.cons_append] at h
    generalize hd : w ++ ds = d at h
    cases h with
    | keep _ h =>
      subst hd
      obtain ⟨cs', rfl, hrest⟩ := ih hw.2 h
      exact ⟨cs', rfl, hrest⟩
    | line h => exact (hw.1 rfl).elim

theorem dropWhile (hp : p '\n' = false) (h : WithReturns cs ds) :
    WithReturns (cs.dropWhile p) (ds.dropWhile p) := by
  induction h with
  | nil => exact .nil
  | keep c h ih =>
    cases hc : p c with
    | true => simpa [hc] using ih
    | false => simpa [hc] using h.keep c
  | line h ih =>
    -- the carriage return is dropped or not, the line feed stays
    cases hreturn : p '\r' with
    | true => simpa [hp, hreturn] using h.keep '\n'
    | false => simpa [hp, hreturn] using h.line

theorem takeWhile (hp : p '\n' = false) (hreturn : p '\r' = false) (h : WithReturns cs ds) :
    ds.takeWhile p = cs.takeWhile p := by
  induction h with
  | nil => rfl
  | keep c h ih => cases hc : p c <;> simp [hc, ih]
  | line h ih => simp [hp, hreturn]

end WithReturns

namespace Lexer

/-! ## What is found, layout apart -/

/-- The token that was found; `none` for layout and faults. -/
def Finding.token? : Finding → Option Token
  | .lexeme l => l.token?
  | .fault _ => none

/-- The fault that was found; `none` for lexemes. -/
def Finding.fault? : Finding → Option LexicalFault
  | .lexeme _ => none
  | .fault f => some f

def Finding.isLayout (x : Finding) : Bool := x.token?.isNone && x.fault?.isNone

/-- The tokens and faults in their order, without their places. -/
def substance (fs : List (Spanned Finding)) : List Finding :=
  (fs.map Spanned.value).filter fun x => !x.isLayout

theorem substance_cons (f : Spanned Finding) (fs : List (Spanned Finding)) :
    substance (f :: fs) = substance [f] ++ substance fs := by
  unfold substance
  rw [List.map_cons, ← List.singleton_append, List.filter_append]
  rfl

/-- Layout is all that is not told by a property of tokens and faults. -/
theorem filterMap_substance {α : Type} {g : Finding → Option α}
    (hg : ∀ x : Finding, x.isLayout = true → g x = none) (fs : List (Spanned Finding)) :
    (substance fs).filterMap g = fs.filterMap fun f => g f.value := by
  unfold substance
  rw [List.filterMap_filter, List.filterMap_map]
  refine List.filterMap_congr fun f _ => ?_
  cases hf : f.value.isLayout with
  | true => simp [hf, hg f.value hf]
  | false => simp [hf]

theorem values_faults (fs : List (Spanned Finding)) :
    (faults fs).map Spanned.value = (substance fs).filterMap Finding.fault? := by
  rw [filterMap_substance fun x hx => Option.isNone_iff_eq_none.1 (Bool.and_eq_true_iff.1 hx).2,
    faults, List.map_filterMap]
  refine List.filterMap_congr fun f _ => ?_
  cases h : f.value <;> simp [Finding.fault?]

theorem values_lexemes (fs : List (Spanned Finding)) :
    values (meaningful (lexemes fs)) = (substance fs).filterMap Finding.token? := by
  rw [filterMap_substance fun x hx => Option.isNone_iff_eq_none.1 (Bool.and_eq_true_iff.1 hx).1,
    values, meaningful, lexemes, List.map_filterMap, List.filterMap_filterMap]
  refine List.filterMap_congr fun f _ => ?_
  cases h : f.value with
  | lexeme l => cases l <;> rfl
  | fault x => rfl

/-! ## Readings -/

/-- The two readings find the same, or layout each. The second leaves what the first leaves
with carriage returns, or a line feed more. -/
def Reading.Returns {cs ds : List Char} (r : Reading cs) (r' : Reading ds) : Prop :=
  substance [r'.found] = substance [r.found] ∧
    (WithReturns r.rest r'.rest ∨ ∃ ds', r'.rest = '\n' :: ds' ∧ WithReturns r.rest ds')

variable {c : Char} {cs ds : List Char} (pos pos' : Nat)

theorem readComment_returns (h : WithReturns cs ds) :
    (readComment pos cs).Returns (readComment pos' ds) :=
  ⟨rfl, Or.inl (h.dropWhile rfl)⟩

theorem readWord_returns (h : WithReturns cs ds) :
    (readRun pos isWordChar (fun w => .token (wordToken w)) c cs).Returns
      (readRun pos' isWordChar (fun w => .token (wordToken w)) c ds) := by
  refine ⟨?_, Or.inl (h.dropWhile (by decide))⟩
  simp only [readRun, Reading.ofLexeme, h.takeWhile (p := isWordChar) (by decide) (by decide)]
  rfl

theorem readBlanks_returns (h : WithReturns cs ds) :
    (readRun pos (fun d => Text.isBlank d && d != '\n') (fun _ => .blanks) c cs).Returns
      (readRun pos' (fun d => Text.isBlank d && d != '\n') (fun _ => .blanks) c ds) :=
  ⟨rfl, Or.inl (h.dropWhile isBlank_lineFeed)⟩

/-! ## Signs -/

theorem line_end_not_mem_spelling (s : Sign) : '\n' ∉ s.spelling ∧ '\r' ∉ s.spelling := by
  cases s <;> decide

theorem sign?_returns (h : WithReturns cs ds) : sign? ds = sign? cs := by
  unfold sign?
  congr 1
  funext s
  obtain ⟨hline, hreturn⟩ := line_end_not_mem_spelling s
  rw [Bool.eq_iff_iff, List.isPrefixOf_iff_prefix, List.isPrefixOf_iff_prefix]
  constructor
  · rintro ⟨ds', rfl⟩
    obtain ⟨cs', rfl, _⟩ := h.of_append_right hreturn
    exact List.prefix_append _ _
  · rintro ⟨cs', rfl⟩
    obtain ⟨ds', rfl, _⟩ := h.of_append hline
    exact List.prefix_append _ _

theorem readSign_returns (h : WithReturns cs ds) :
    (readSign pos c cs).Returns (readSign pos' c ds) := by
  have hsign : sign? (c :: ds) = sign? (c :: cs) := sign?_returns (h.keep c)
  unfold readSign
  split
  · next s hs =>
    split
    · next s' hs' =>
      obtain rfl := Option.some.inj (hs.symm.trans (hsign.symm.trans hs'))
      have hall := h.keep c
      rw [← spelling_append_of_sign? hs] at hall
      obtain ⟨ds', hds, hrest⟩ := hall.of_append (line_end_not_mem_spelling s).1
      have hdrop : (c :: ds).drop s.spelling.length = ds' := by rw [hds, List.drop_left]
      exact ⟨rfl, Or.inl (hdrop ▸ hrest)⟩
    · next hs' => cases hs.symm.trans (hsign.symm.trans hs')
  · next hs =>
    split
    · next s' hs' => cases hs'.symm.trans (hsign.trans hs)
    · exact ⟨rfl, Or.inl h⟩

/-! ## Text literals -/

/-- A text literal ends in the same way with the same text. -/
theorem scanText_returns (h : WithReturns cs ds) :
    (scanText ds).ending = (scanText cs).ending ∧ (scanText ds).value = (scanText cs).value ∧
      WithReturns (scanText cs).rest (scanText ds).rest := by
  fun_induction scanText cs generalizing ds with
  | case1 =>
    cases h
    exact ⟨rfl, rfl, .nil⟩
  | case2 cs =>
    cases h with
    | keep _ h => exact ⟨rfl, rfl, h⟩
  | case3 =>
    cases h with
    | keep _ h =>
      cases h
      exact ⟨rfl, rfl, .nil⟩
  | case4 e cs v hv ih =>
    cases h with
    | keep _ h =>
      cases h with
      | keep _ h =>
        obtain ⟨hending, hvalue, hrest⟩ := ih h
        rw [scanText, hv]
        exact ⟨hending, congrArg (v :: ·) hvalue, hrest⟩
      | line h => cases hv
  | case5 e cs hv =>
    cases h with
    | keep _ h =>
      cases h with
      | keep _ h =>
        rw [scanText, hv]
        exact ⟨rfl, rfl, h.keep e⟩
      | line h => exact ⟨rfl, rfl, h.line⟩
  | case6 c cs hquote hlast hslash hend =>
    cases h with
    | keep _ h =>
      have hplain := ne_backslash hlast hslash
      rw [scanText, if_pos hend]
      · exact ⟨rfl, rfl, h.keep c⟩
      · exact hquote
      · exact fun hc _ => hplain hc
      · exact fun _ _ hc _ => hplain hc
    | line h => exact ⟨rfl, rfl, h.line⟩
  | case7 c cs hquote hlast hslash hend ih =>
    cases h with
    | keep _ h =>
      have hplain := ne_backslash hlast hslash
      obtain ⟨hending, hvalue, hrest⟩ := ih h
      rw [scanText, if_neg hend]
      · exact ⟨hending, congrArg (c :: ·) hvalue, hrest⟩
      · exact hquote
      · exact fun hc _ => hplain hc
      · exact fun _ _ hc _ => hplain hc
    | line h => exact (hend rfl).elim

theorem afterBrokenText_returns (h : WithReturns cs ds) :
    WithReturns (afterBrokenText cs) (afterBrokenText ds) := by
  induction h with
  | nil => exact .nil
  | keep c h ih =>
    rw [afterBrokenText, afterBrokenText]
    split
    · exact h.keep c
    · split
      · exact h
      · exact ih
  | line h ih => exact h.keep '\n'

theorem readText_returns (h : WithReturns cs ds) :
    (readText pos cs).Returns (readText pos' ds) := by
  obtain ⟨hending, hvalue, hleft⟩ := scanText_returns h
  cases hend : (scanText cs).ending with
  | closed =>
    obtain ⟨hfound, hrest⟩ := readText_closed pos hend
    obtain ⟨hfound', hrest'⟩ := readText_closed pos' (hending.trans hend)
    rw [Reading.Returns, hfound, hfound', hrest, hrest', hvalue]
    exact ⟨rfl, Or.inl hleft⟩
  | unterminated =>
    obtain ⟨hfound, hrest⟩ := readText_unterminated pos hend
    obtain ⟨hfound', hrest'⟩ := readText_unterminated pos' (hending.trans hend)
    rw [Reading.Returns, hfound, hfound', hrest, hrest']
    refine ⟨rfl, ?_⟩
    -- the literal takes the line feed along, or the carriage return that was put before it
    generalize (scanText cs).rest = rest at hleft
    generalize (scanText ds).rest = rest' at hleft
    cases hleft with
    | nil => exact Or.inl .nil
    | keep _ hleft => exact Or.inl hleft
    | line hleft => exact Or.inr ⟨_, rfl, hleft⟩
  | badEscape =>
    obtain ⟨hfound, hrest⟩ := readText_badEscape pos hend
    obtain ⟨hfound', hrest'⟩ := readText_badEscape pos' (hending.trans hend)
    rw [Reading.Returns, hfound, hfound', hrest, hrest']
    exact ⟨rfl, Or.inl (afterBrokenText_returns hleft)⟩

/-! ## The front of a source -/

theorem readFront_returns (h : WithReturns cs ds) :
    (readFront pos c cs).Returns (readFront pos' c ds) := by
  by_cases hcomment : ∃ rest, c = '/' ∧ cs = '/' :: rest
  · obtain ⟨rest, rfl, rfl⟩ := hcomment
    cases h with
    | keep _ h => exact readComment_returns pos pos' h
  by_cases hquote : c = '\''
  · subst hquote
    exact readText_returns pos pos' h
  have hcomment' : ∀ rest, c = '/' → ds = '/' :: rest → False := by
    rintro rest hc rfl
    cases h with
    | keep _ _ => exact hcomment ⟨_, hc, rfl⟩
  rw [readFront_plain pos hquote fun rest hc hcs => hcomment ⟨rest, hc, hcs⟩,
    readFront_plain pos' hquote hcomment']
  split
  · exact readWord_returns pos pos' h
  · split
    · exact ⟨rfl, Or.inl h⟩
    · split
      · exact readBlanks_returns pos pos' h
      · exact readSign_returns pos pos' h

/-- A line feed at the front is not heard. -/
theorem substance_scan_line :
    substance (scan pos ('\n' :: cs)) = substance (scan (pos + 1) cs) := by
  rw [scan, substance_cons]
  rfl

/-- A scan finds the same tokens and faults in the same order. -/
theorem substance_scan (pos pos' : Nat) {cs ds : List Char} (h : WithReturns cs ds) :
    substance (scan pos' ds) = substance (scan pos cs) := by
  fun_induction scan pos cs generalizing ds pos' with
  | case1 =>
    cases h
    rw [scan]
  | case2 pos c cs r ih =>
    cases h with
    | keep _ h =>
      obtain ⟨hfound, hrest⟩ : r.Returns _ := readFront_returns pos pos' h
      rw [scan, substance_cons, hfound, substance_cons r.found (scan _ _)]
      congr 1
      rcases hrest with hrest | ⟨ds', hrest, h⟩
      · exact ih _ hrest
      · rw [hrest, substance_scan_line]
        exact ih _ h
    | @line _ ds h =>
      -- the carriage return is a run of blanks, the line feed behind it the same line break
      have hblanks : substance (scan pos' ('\r' :: '\n' :: ds)) =
          substance (scan (pos' + 1) ('\n' :: ds)) := by
        rw [scan, substance_cons]
        rfl
      rw [hblanks, substance_scan_line, substance_cons]
      exact ih _ h

end Lexer

end ArchScript
