/-
  The lexer reads line by line.

  A line feed ends whatever the lexer is in the middle of: each reader finds in front of a line
  feed what it finds at the end of a source (`Lexer.readFront_append_line`). It leaves the line
  feed to the line break that follows, but a text literal that is not closed takes it along.
  So a scan of two texts with a line feed between them is a scan of the first, at most a line
  break, and a scan of the second (`Lexer.scan_append_line`), whose spans are moved and nothing
  else (`Lexer.scan_shift`).
-/
import ArchScript.Proofs.Concatenation.Lexemes
import ArchScript.Proofs.Lexing.Faults

namespace ArchScript

/-! ## Diagnostics of letters -/

/-- What is wrong with the letters of a source; nothing when it is cut into lexemes. -/
def lexicalDiagnostics (source : String) : List Diagnostic :=
  match tokenize source with
  | .ok _ => []
  | .error fs => fs.map LexicalFault.diagnostic

/-- The diagnostic with every label moved. -/
def Diagnostic.moved (f : Span → Span) (d : Diagnostic) : Diagnostic :=
  { d with labels := d.labels.map fun l => { l with span := f l.span } }

theorem lexicalDiagnostics_eq (source : String) :
    lexicalDiagnostics source =
      (Lexer.faults (Lexer.scan 0 source.toList)).map LexicalFault.diagnostic := by
  unfold lexicalDiagnostics
  cases h : tokenize source with
  | ok ls => rw [(tokenize_eq_ok_iff.1 h).1, List.map_nil]
  | error fs => rw [(tokenize_eq_error_iff.1 h).2]

namespace Lexer

/-! ## Moving a text -/

/-- The reading of the same characters `n` bytes further on. -/
def Reading.shift {cs : List Char} (n : Nat) (r : Reading cs) : Reading cs :=
  { r with found := r.found.moved (.shift n) }

theorem ofLexeme_shift (n pos : Nat) (l : Lexeme) (c : Char) (more rest : List Char)
    {cs : List Char} (h : c :: more ++ rest = cs) :
    Reading.ofLexeme (n + pos) l c more rest h =
      (Reading.ofLexeme pos l c more rest h).shift n := by
  simp only [Reading.ofLexeme, Reading.shift, Spanned.moved, Span.shift, Span.ofSize,
    Reading.mk.injEq, Spanned.mk.injEq, Span.mk.injEq, true_and, and_true]
  omega

theorem readText_shift (n pos : Nat) (cs : List Char) :
    readText (n + pos) cs = (readText pos cs).shift n := by
  unfold readText
  dsimp only
  split
  · exact ofLexeme_shift n pos _ _ _ _ _
  · simp only [Reading.shift, Spanned.moved, Span.shift, Span.ofBounds, Reading.mk.injEq,
      Spanned.mk.injEq, Span.mk.injEq, true_and, and_true]
    omega
  · simp only [Reading.shift, Spanned.moved, Span.shift, Span.ofBounds, Reading.mk.injEq,
      Spanned.mk.injEq, Span.mk.injEq, true_and, and_true]
    omega

theorem readSign_shift (n pos : Nat) (c : Char) (cs : List Char) :
    readSign (n + pos) c cs = (readSign pos c cs).shift n := by
  unfold readSign
  split
  · simp only [Reading.shift, Spanned.moved, Span.shift, Span.ofSize, Reading.mk.injEq,
      Spanned.mk.injEq, Span.mk.injEq, true_and, and_true]
    omega
  · simp only [Reading.shift, Spanned.moved, Span.shift, Span.ofSize, Reading.mk.injEq,
      Spanned.mk.injEq, Span.mk.injEq, true_and, and_true]
    omega

theorem readFront_shift (n pos : Nat) (c : Char) (cs : List Char) :
    readFront (n + pos) c cs = (readFront pos c cs).shift n := by
  unfold readFront
  split
  · exact ofLexeme_shift n pos _ _ _ _ _
  · exact readText_shift n pos _
  · split
    · exact ofLexeme_shift n pos _ _ _ _ _
    · split
      · exact ofLexeme_shift n pos _ _ _ _ _
      · split
        · exact ofLexeme_shift n pos _ _ _ _ _
        · exact readSign_shift n pos _ _

/-- What is found in a text depends on its place in nothing but the spans. -/
theorem scan_shift (n pos : Nat) (cs : List Char) :
    scan (n + pos) cs = (scan pos cs).map (Spanned.moved (.shift n)) := by
  fun_induction scan pos cs with
  | case1 =>
    rw [scan]
    rfl
  | case2 pos c cs r ih =>
    rw [scan, readFront_shift, List.map_cons, ← ih, ← Nat.add_assoc]
    rfl

theorem faults_map_moved (f : Span → Span) (fs : List (Spanned Finding)) :
    faults (fs.map (Spanned.moved f)) = (faults fs).map (Spanned.moved f) := by
  induction fs with
  | nil => rfl
  | cons x fs ih =>
    rw [List.map_cons]
    cases h : x.value with
    | lexeme l =>
      have hmoved : (x.moved f).value = .lexeme l := h
      rw [faults_cons_lexeme h, faults_cons_lexeme hmoved, ih]
    | fault y =>
      have hmoved : (x.moved f).value = .fault y := h
      rw [faults_cons_fault h, faults_cons_fault hmoved, ih]
      rfl

/-! ## In front of a line feed -/

section

variable (pos : Nat) (ds : List Char)

/-- The reading `r'`, of a text that goes on with a line feed and `ds`, finds what `r` finds. It
leaves the line feed where it is, or it takes it along when `r` comes to the end. -/
def Reading.BeforeLine {cs cs' : List Char} (r : Reading cs) (r' : Reading cs') : Prop :=
  r'.found = r.found ∧
    (r'.rest = r.rest ++ '\n' :: ds ∨ r.rest = [] ∧ r'.rest = ds)

theorem isBlank_lineFeed : (Text.isBlank '\n' && '\n' != '\n') = false := by decide

theorem takeWhile_append_line {p : Char → Bool} (hp : p '\n' = false) (cs : List Char) :
    (cs ++ '\n' :: ds).takeWhile p = cs.takeWhile p ∧
      (cs ++ '\n' :: ds).dropWhile p = cs.dropWhile p ++ '\n' :: ds := by
  induction cs with
  | nil => simp [hp]
  | cons c cs ih => cases hc : p c <;> simp [hc, ih]

theorem readRun_append_line {p : Char → Bool} (hp : p '\n' = false) (lexeme : List Char → Lexeme)
    (c : Char) (cs : List Char) :
    (readRun pos p lexeme c cs).BeforeLine ds (readRun pos p lexeme c (cs ++ '\n' :: ds)) := by
  obtain ⟨htake, hdrop⟩ := takeWhile_append_line ds hp cs
  unfold readRun
  refine ⟨?_, Or.inl hdrop⟩
  simp only [Reading.ofLexeme, htake]

theorem readComment_append_line (cs : List Char) :
    (readComment pos cs).BeforeLine ds (readComment pos (cs ++ '\n' :: ds)) := by
  obtain ⟨htake, hdrop⟩ := takeWhile_append_line ds (p := (· != '\n')) rfl cs
  unfold readComment
  refine ⟨?_, Or.inl hdrop⟩
  simp only [Reading.ofLexeme, htake]

/-- No sign reaches over a line feed. -/
theorem sign?_append_line (cs : List Char) : sign? (cs ++ '\n' :: ds) = sign? cs := by
  unfold sign?
  congr 1
  funext s
  rw [Bool.eq_iff_iff, List.isPrefixOf_iff_prefix, List.isPrefixOf_iff_prefix]
  refine ⟨fun h => ?_, fun h => h.trans (List.prefix_append _ _)⟩
  rcases (Spells.sign s).front_of_append_line h with hfront | hline
  · exact hfront
  · exact absurd hline (by cases s <;> decide)

theorem readSign_append_line (c : Char) (cs : List Char) :
    (readSign pos c cs).BeforeLine ds (readSign pos c (cs ++ '\n' :: ds)) := by
  have hsign : sign? (c :: (cs ++ '\n' :: ds)) = sign? (c :: cs) := sign?_append_line ds (c :: cs)
  unfold readSign
  split
  · next s hs =>
    split
    · next s' hs' =>
      obtain rfl := Option.some.inj (hs.symm.trans (hsign.symm.trans hs'))
      refine ⟨rfl, Or.inl ((List.append_right_inj s.spelling).1 ?_)⟩
      rw [spelling_append_of_sign? hs', ← List.append_assoc, spelling_append_of_sign? hs,
        List.cons_append]
    · next hs' => cases hs.symm.trans (hsign.symm.trans hs')
  · next hs =>
    split
    · next s' hs' => cases hs.symm.trans (hsign.symm.trans hs')
    · exact ⟨rfl, Or.inl rfl⟩

/-! ## Text literals -/

/-- A text literal ends before the line feed, however it ends. -/
theorem scanText_append_line (cs : List Char) :
    scanText (cs ++ '\n' :: ds) =
      { scanText cs with rest := (scanText cs).rest ++ '\n' :: ds } := by
  fun_induction scanText cs with
  | case1 => rfl
  | case2 cs => rfl
  | case3 => rfl
  | case4 e cs v hv ih =>
    rw [List.cons_append, List.cons_append, scanText, hv]
    simp only [ih]
    rfl
  | case5 e cs hv =>
    rw [List.cons_append, List.cons_append, scanText, hv]
  | case6 c cs hquote hlast hslash hend =>
    rw [List.cons_append, scanText, if_pos hend]
    · exact hquote
    · exact fun hc _ => ne_backslash hlast hslash hc
    · exact fun _ _ hc _ => ne_backslash hlast hslash hc
  | case7 c cs hquote hlast hslash hend ih =>
    rw [List.cons_append, scanText, if_neg hend, ih]
    · rfl
    · exact hquote
    · exact fun hc _ => ne_backslash hlast hslash hc
    · exact fun _ _ hc _ => ne_backslash hlast hslash hc

theorem readText_closed (pos : Nat) {cs : List Char} (h : (scanText cs).ending = .closed) :
    (readText pos cs).found = ⟨.lexeme (.token (.text (String.ofList (scanText cs).value))),
      .ofSize pos (Text.byteLength ('\'' :: (scanText cs).taken))⟩ ∧
    (readText pos cs).rest = (scanText cs).rest := by
  unfold readText
  dsimp only
  split
  · exact ⟨rfl, rfl⟩
  · next hend => cases h.symm.trans hend
  · next hend => cases h.symm.trans hend

theorem readText_unterminated (pos : Nat) {cs : List Char}
    (h : (scanText cs).ending = .unterminated) :
    (readText pos cs).found = ⟨.fault .unterminatedText,
      .ofBounds pos (pos + 1 + Text.byteLength (scanText cs).taken)⟩ ∧
    (readText pos cs).rest = (scanText cs).rest.drop 1 := by
  unfold readText
  dsimp only
  split
  · next hend => cases h.symm.trans hend
  · exact ⟨rfl, rfl⟩
  · next hend => cases h.symm.trans hend

theorem readText_badEscape (pos : Nat) {cs : List Char} (h : (scanText cs).ending = .badEscape) :
    (readText pos cs).found = ⟨.fault .invalidEscape,
      .ofBounds (pos + 1 + Text.byteLength (scanText cs).taken - 1)
        (pos + 1 + Text.byteLength (scanText cs).taken)⟩ ∧
    (readText pos cs).rest = afterBrokenText (scanText cs).rest := by
  unfold readText
  dsimp only
  split
  · next hend => cases h.symm.trans hend
  · next hend => cases h.symm.trans hend
  · exact ⟨rfl, rfl⟩

theorem afterBrokenText_append_line (cs : List Char) :
    afterBrokenText (cs ++ '\n' :: ds) = afterBrokenText cs ++ '\n' :: ds := by
  induction cs with
  | nil => simp [afterBrokenText]
  | cons c cs ih =>
    rw [List.cons_append, afterBrokenText, afterBrokenText, ih]
    split
    · rfl
    · split <;> rfl

theorem readText_append_line (cs : List Char) :
    (readText pos cs).BeforeLine ds (readText pos (cs ++ '\n' :: ds)) := by
  have hscan := scanText_append_line ds cs
  have hending : (scanText (cs ++ '\n' :: ds)).ending = (scanText cs).ending := by rw [hscan]
  cases hend : (scanText cs).ending with
  | closed =>
    obtain ⟨hfound, hrest⟩ := readText_closed pos hend
    obtain ⟨hfound', hrest'⟩ := readText_closed pos (hending.trans hend)
    rw [hscan] at hfound' hrest'
    exact ⟨hfound'.trans hfound.symm, Or.inl (by rw [hrest', hrest])⟩
  | unterminated =>
    obtain ⟨hfound, hrest⟩ := readText_unterminated pos hend
    obtain ⟨hfound', hrest'⟩ := readText_unterminated pos (hending.trans hend)
    rw [hscan] at hfound' hrest'
    refine ⟨hfound'.trans hfound.symm, ?_⟩
    -- at the end of the text it is the line feed that the literal takes
    cases hleft : (scanText cs).rest with
    | nil => exact Or.inr ⟨by rw [hrest, hleft]; rfl, by rw [hrest', hleft]; rfl⟩
    | cons d rest => exact Or.inl (by rw [hrest, hrest', hleft]; rfl)
  | badEscape =>
    obtain ⟨hfound, hrest⟩ := readText_badEscape pos hend
    obtain ⟨hfound', hrest'⟩ := readText_badEscape pos (hending.trans hend)
    rw [hscan] at hfound' hrest'
    refine ⟨hfound'.trans hfound.symm, Or.inl ?_⟩
    rw [hrest', hrest]
    exact afterBrokenText_append_line ds _

/-- What begins neither a comment nor a text literal is told by its first character. -/
theorem readFront_plain {c : Char} {cs : List Char} (hquote : c ≠ '\'')
    (hcomment : ∀ rest, c = '/' → cs = '/' :: rest → False) :
    readFront pos c cs =
      if isWordStart c then readRun pos isWordChar (fun w => .token (wordToken w)) c cs
      else if c = '\n' then .ofLexeme pos .lineBreak c [] cs rfl
      else if Text.isBlank c then
        readRun pos (fun d => Text.isBlank d && d != '\n') (fun _ => .blanks) c cs
      else readSign pos c cs := by
  rw [readFront]
  · exact hquote
  · exact hcomment

/-- In front of a line feed the lexer finds what it finds at the end of a source. -/
theorem readFront_append_line (c : Char) (cs : List Char) :
    (readFront pos c cs).BeforeLine ds (readFront pos c (cs ++ '\n' :: ds)) := by
  by_cases hcomment : ∃ rest, c = '/' ∧ cs = '/' :: rest
  · obtain ⟨rest, rfl, rfl⟩ := hcomment
    exact readComment_append_line pos ds rest
  by_cases hquote : c = '\''
  · subst hquote
    exact readText_append_line pos ds cs
  have hcomment' : ∀ rest, c = '/' → cs ++ '\n' :: ds = '/' :: rest → False := by
    rintro rest hc hcs
    cases cs with
    | nil => cases hcs
    | cons d cs => exact hcomment ⟨cs, hc, by rw [(List.cons.inj hcs).1]⟩
  rw [readFront_plain pos hquote hcomment',
    readFront_plain pos hquote fun rest hc hcs => hcomment ⟨rest, hc, hcs⟩]
  split
  · exact readRun_append_line pos ds (by decide) _ c cs
  · split
    · exact ⟨rfl, Or.inl rfl⟩
    · split
      · exact readRun_append_line pos ds isBlank_lineFeed _ c cs
      · exact readSign_append_line pos ds c cs

end

/-! ## Two lines -/

theorem Reading.byteLength_split {cs : List Char} (r : Reading cs) :
    Text.byteLength r.taken + Text.byteLength r.rest = Text.byteLength cs := by
  rw [← Text.byteLength_append, r.split]

theorem byteLength_append_line (cs ds : List Char) :
    Text.byteLength (cs ++ '\n' :: ds) = Text.byteLength cs + 1 + Text.byteLength ds := by
  rw [Text.byteLength_append, Text.byteLength_cons, ← Nat.add_assoc]
  rfl

/-- A scan of two texts with a line feed between them is the scan of the first and the scan of
the second, with at most a line break between them. -/
theorem scan_append_line (pos : Nat) (cs ds : List Char) :
    ∃ link, scan pos (cs ++ '\n' :: ds) =
        scan pos cs ++ (link ++ scan (pos + Text.byteLength cs + 1) ds) ∧
      (link = [⟨.lexeme .lineBreak, .ofSize (pos + Text.byteLength cs) 1⟩] ∨ link = []) := by
  fun_induction scan pos cs with
  | case1 pos =>
    refine ⟨_, ?_, Or.inl rfl⟩
    rw [List.nil_append, scan]
    rfl
  | case2 pos c cs r ih =>
    obtain ⟨hfound, hrest⟩ : r.BeforeLine ds _ := readFront_append_line pos ds c cs
    have hsize := r.byteLength_split
    have hsize' := (readFront pos c (cs ++ '\n' :: ds)).byteLength_split
    have hall : Text.byteLength (c :: (cs ++ '\n' :: ds)) =
        Text.byteLength (c :: cs) + 1 + Text.byteLength ds := byteLength_append_line (c :: cs) ds
    rw [List.cons_append, scan, hfound]
    rcases hrest with hrest | ⟨hnil, hrest⟩
    · -- the reading uses up what it does without the line feed, and the rest goes on
      have htaken : Text.byteLength (readFront pos c (cs ++ '\n' :: ds)).taken =
          Text.byteLength r.taken := by
        rw [hrest, byteLength_append_line] at hsize'
        omega
      obtain ⟨link, hscan, hlink⟩ := ih
      rw [← hsize, ← Nat.add_assoc, htaken, hrest, hscan]
      exact ⟨link, rfl, hlink⟩
    · -- the reading uses up the line feed too
      have htaken : pos + Text.byteLength (readFront pos c (cs ++ '\n' :: ds)).taken =
          pos + Text.byteLength (c :: cs) + 1 := by
        rw [hrest] at hsize'
        omega
      rw [htaken, hrest, hnil, scan]
      exact ⟨[], rfl, Or.inr rfl⟩

theorem faults_append (fs gs : List (Spanned Finding)) :
    faults (fs ++ gs) = faults fs ++ faults gs := List.filterMap_append

end Lexer

/-! ## Sources -/

/-- What is wrong with the letters of a source that begins `n` bytes further on. -/
theorem lexicalDiagnostics_scan (n : Nat) (source : String) :
    (Lexer.faults (Lexer.scan n source.toList)).map LexicalFault.diagnostic =
      (lexicalDiagnostics source).map (Diagnostic.moved (.shift n)) := by
  rw [lexicalDiagnostics_eq, ← Nat.add_zero n, Lexer.scan_shift, Lexer.faults_map_moved,
    List.map_map, List.map_map]
  rfl

/-- What is wrong with the letters of two sources with a line feed between them is what is wrong
with the first, and then what is wrong with the second, moved back. If nothing is, the lexemes
are those of the first, a line break, and those of the second, moved back. -/
theorem lexicalDiagnostics_append_line (a b : String) :
    lexicalDiagnostics (a ++ "\n" ++ b) =
      lexicalDiagnostics a ++
        (lexicalDiagnostics b).map (Diagnostic.moved (.shift (a.utf8ByteSize + 1))) ∧
    ∀ la lb, tokenize a = .ok la → tokenize b = .ok lb →
      tokenize (a ++ "\n" ++ b) = .ok (la ++ ⟨.lineBreak, .ofSize a.utf8ByteSize 1⟩ ::
        lb.map (Spanned.moved (.shift (a.utf8ByteSize + 1)))) := by
  refine ⟨?_, fun la lb => tokenize_append_line⟩
  have htext : (a ++ "\n" ++ b).toList = a.toList ++ '\n' :: b.toList := by simp
  obtain ⟨link, hscan, hlink⟩ := Lexer.scan_append_line 0 a.toList b.toList
  have hnone : Lexer.faults link = [] := by
    rcases hlink with rfl | rfl <;> rfl
  rw [lexicalDiagnostics_eq, lexicalDiagnostics_eq a, htext, hscan, Lexer.faults_append,
    Lexer.faults_append, hnone, List.nil_append, List.map_append, lexicalDiagnostics_scan _ b,
    Text.byteLength_toList, Nat.zero_add]

/-- A line with a stray character that breaks off after a backslash in a text literal. -/
def brokenLine : String := "é 'a\\"

/-- A line with a text literal that is not closed. -/
def openLine : String := "'b"

/-- A line with a quote in a comment. -/
def commentLine : String := "a // 'b"

/-- The faults of both lines are found where they are, and a quote in a comment opens nothing that
the line below could close. -/
theorem lexicalDiagnostics_append_line_broken :
    (lexicalDiagnostics (brokenLine ++ "\n" ++ openLine) =
        lexicalDiagnostics brokenLine ++
          (lexicalDiagnostics openLine).map (Diagnostic.moved (.shift 7)) ∧
      (lexicalDiagnostics (brokenLine ++ "\n" ++ openLine)).map
        (fun d => (d.code, d.labels.map Label.span)) =
        [(some .unexpectedCharacter, [.ofSize 0 1]), (some .invalidEscape, [.ofSize 5 1]),
          (some .unterminatedText, [.ofSize 7 2])]) ∧
    ∃ la lb, tokenize commentLine = .ok la ∧ tokenize "'c'" = .ok lb ∧
      tokenize (commentLine ++ "\n" ++ "'c'") = .ok (la ++ ⟨.lineBreak, .ofSize 7 1⟩ ::
        lb.map (Spanned.moved (.shift 8))) ∧
      lb = [⟨.token (.text "c"), .ofSize 0 3⟩] := by
  obtain ⟨la, ha, _⟩ := exists_ok_of_toOption (r := tokenize commentLine) (f := fun _ => ())
    (b := ()) (by decide +kernel)
  obtain ⟨lb, hb, hlexemes⟩ := exists_ok_of_toOption (r := tokenize "'c'") (f := id)
    (b := [⟨.token (.text "c"), .ofSize 0 3⟩]) (by decide +kernel)
  refine ⟨⟨(lexicalDiagnostics_append_line brokenLine openLine).1, by decide +kernel⟩, la, lb, ha,
    hb, ?_, hlexemes⟩
  exact (lexicalDiagnostics_append_line commentLine "'c'").2 la lb ha hb

end ArchScript
