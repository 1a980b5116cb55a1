/-
  Where the lexer goes on after a bad escape.

  The rest of a text literal behind a bad escape is not read as a literal: it is skipped through
  the next quote (`Lexer.afterBrokenText_of_not_mem`). So the lexer goes on behind the literal if
  no quote is escaped between the bad escape and the end, and else in the middle of it, behind
  the first such quote (`lexicalDiagnostics_badEscape`). What stands before the literal is cut up
  as it is on its own, if no comment reaches the quote (`Greedy.faults_append_quote`).
-/
import ArchScript.Proofs.Lexing.Lines

namespace ArchScript

/-! ## In front of a quote -/

/-- A quote is in no lexeme but comments and text literals. -/
theorem Spells.group_of_quote {l : Lexeme} {w : List Char} (h : Spells l w) (hmem : '\'' ∈ w) :
    l.group = .comment ∨ l.group = .text := by
  cases h with
  | comment text hline => exact Or.inl rfl
  | text h => exact Or.inr rfl
  | sign s =>
    revert hmem
    cases s <;> decide
  | keyword k =>
    revert hmem
    cases k <;> decide
  | identifier hc hcs _ =>
    rcases List.mem_cons.1 hmem with rfl | hmem
    · exact absurd hc (by decide)
    · exact absurd (hcs _ hmem) (by decide)
  | lineBreak => exact absurd hmem (by decide)
  | blanks _ h => exact absurd (h '\'' hmem).1 (by decide)

theorem Spells.exists_of_comment {l : Lexeme} {w : List Char} (h : Spells l w)
    (hl : l.group = .comment) : ∃ text, w = '/' :: '/' :: text ∧ '\n' ∉ text := by
  cases h with
  | comment text hline => exact ⟨text, rfl, hline⟩
  | _ => cases hl

theorem Spells.exists_of_text {l : Lexeme} {w : List Char} (h : Spells l w)
    (hl : l.group = .text) : ∃ v u, w = '\'' :: (u ++ ['\'']) ∧ Inside v u := by
  cases h with
  | @text v u hinside => exact ⟨v, u, rfl, hinside⟩
  | _ => cases hl

/-- A quote ends every lexeme but a comment. -/
theorem Longest.append_quote {l : Lexeme} {w cs : List Char} (h : Longest l w cs)
    (hend : l.group = .comment → w ≠ cs) (ds : List Char) : Longest l w (cs ++ '\'' :: ds) := by
  refine ⟨h.spells, h.front.trans (List.prefix_append _ _), fun l' u hu hfront => ?_⟩
  rcases Nat.lt_or_ge cs.length u.length with hlt | hle
  · have hquote : cs ++ ['\''] <+: u := by
      refine List.prefix_of_prefix_length_le ⟨ds, by simp⟩ hfront ?_
      rw [List.length_append, List.length_singleton]
      omega
    have hgroup : l.group = l'.group := by
      obtain ⟨c, w, rfl⟩ := List.exists_cons_of_ne_nil h.spells.ne_nil
      obtain ⟨behind, rfl⟩ := h.front
      exact h.spells.group_eq.trans (hu.group_of_front hfront).symm
    obtain ⟨behind, rfl⟩ := h.front
    rcases hu.group_of_quote (hquote.subset (by simp)) with hcomment | htext
    · -- a comment that reaches the quote is one up to it, and no longer than the first
      obtain ⟨t, rfl, _⟩ := h.spells.exists_of_comment (hgroup.trans hcomment)
      obtain ⟨t', rfl, hline⟩ := hu.exists_of_comment hcomment
      have hpart : t ++ behind <+: t' := by
        have hall := (List.prefix_append _ _).trans hquote
        simp only [List.cons_append, List.cons_prefix_cons] at hall
        exact hall.2.2
      have hle := h.longest _ ('/' :: '/' :: (t ++ behind))
        (.comment _ fun hmem => hline (hpart.subset hmem)) (List.prefix_refl _)
      have hnil : behind = [] := by
        simp only [List.length_cons, List.length_append] at hle
        exact List.length_eq_zero_iff.1 (by omega)
      exact (hend (hgroup.trans hcomment) (by rw [hnil, List.append_nil])).elim
    · -- a text literal ends with its own quote
      obtain ⟨v, inner, rfl, hinside⟩ := h.spells.exists_of_text (hgroup.trans htext)
      refine (hinside.longest (behind ++ '\'' :: ds)).longest l' u hu ?_
      simpa using hfront
  · exact h.longest l' u hu (List.prefix_of_prefix_length_le hfront (List.prefix_append _ _) hle)

/-- What is cut up and does not end in a comment has no faults in front of a quote, and the
lexer comes to the quote. -/
theorem Greedy.faults_append_quote {cs : List Char} {ps : List Piece} (h : Greedy cs ps)
    (hunbroken : ∀ p ∈ ps, p.lexeme.Unbroken)
    (hend : ∀ p, ps.getLast? = some p → p.lexeme.group ≠ .comment) (pos : Nat) (ds : List Char) :
    Lexer.faults (Lexer.scan pos (cs ++ '\'' :: ds)) =
      Lexer.faults (Lexer.scan (pos + Text.byteLength cs) ('\'' :: ds)) := by
  induction h generalizing pos with
  | nil => rfl
  | @cons p cs rest ps hcs hp hrest ih =>
    obtain ⟨hp', hunbroken⟩ := List.forall_mem_cons.1 hunbroken
    have hlongest : Longest p.lexeme p.chars (cs ++ '\'' :: ds) := by
      refine hp.append_quote (fun hcomment hall => ?_) ds
      -- a comment that is all of the text is its last piece
      have hnil : rest = [] := List.append_right_eq_self.1 (hcs.trans hall.symm)
      subst hnil
      cases hrest with
      | nil => exact hend p rfl hcomment
      | cons hnil hq _ => exact hq.spells.ne_nil (List.append_eq_nil_iff.1 hnil).1
    have hend' : ∀ q, ps.getLast? = some q → q.lexeme.group ≠ .comment := fun q hq =>
      hend q (by rw [List.getLast?_cons, hq]; rfl)
    have hsplit : p.chars ++ (rest ++ '\'' :: ds) = cs ++ '\'' :: ds := by
      rw [← hcs, List.append_assoc]
    rw [Lexer.scan_of_longest pos hlongest hp' hsplit, Lexer.faults_cons_lexeme rfl,
      ih hunbroken hend', ← hcs, Text.byteLength_append, Nat.add_assoc]

/-! ## Broken literals -/

/-- What stands between the quotes of a text literal: characters, and characters behind a
backslash. -/
inductive TextItem where
  | plain (c : Char)
  | escape (c : Char)
deriving DecidableEq

namespace TextItem

def chars : TextItem → List Char
  | plain c => [c]
  | escape c => ['\\', c]

/-- The item ends neither the literal nor the line. -/
def OnLine : TextItem → Prop
  | plain c => c ≠ '\'' ∧ c ≠ '\\' ∧ c ≠ '\n' ∧ c ≠ '\r'
  | escape c => c ≠ '\n' ∧ c ≠ '\r'

/-- The item is a backslash in front of a character that makes no escape with it. -/
def isBad : TextItem → Bool
  | plain _ => false
  | escape c => escapes.all fun p => p.1 != c

/-- The items in front of the first bad escape. -/
def sound (items : List TextItem) : List TextItem := items.takeWhile fun x => !x.isBad

/-- The items from the first bad escape on. -/
def broken (items : List TextItem) : List TextItem := items.dropWhile fun x => !x.isBad

/-- A text literal, from quote to quote. -/
def literal (items : List TextItem) : String :=
  String.ofList ('\'' :: (items.flatMap chars ++ ['\'']))

instance decidableOnLine : DecidablePred OnLine
  | plain c => inferInstanceAs (Decidable (c ≠ '\'' ∧ c ≠ '\\' ∧ c ≠ '\n' ∧ c ≠ '\r'))
  | escape c => inferInstanceAs (Decidable (c ≠ '\n' ∧ c ≠ '\r'))

theorem isBad_escape_iff {c : Char} : (escape c).isBad = true ↔ Lexer.escaped? c = none := by
  rw [isBad, List.all_eq_true, Option.eq_none_iff_forall_ne_some]
  refine ⟨fun h x hx => ?_, fun h p hp => ?_⟩
  · have hne := h _ (escaped?_eq_some_iff.1 hx)
    exact bne_iff_ne.1 hne rfl
  · refine bne_iff_ne.2 fun hc => h p.2 (escaped?_eq_some_iff.2 ?_)
    rw [← hc]
    exact hp

theorem sound_append_broken (items : List TextItem) : sound items ++ broken items = items :=
  List.takeWhile_append_dropWhile

theorem flatMap_chars_eq {items after : List TextItem} {e : Char}
    (h : broken items = escape e :: after) :
    items.flatMap chars = (sound items).flatMap chars ++ '\\' :: e :: after.flatMap chars := by
  have hitems := sound_append_broken items
  rw [h] at hitems
  conv_lhs => rw [← hitems, List.flatMap_append, List.flatMap_cons]
  rfl

theorem isBad_of_mem_sound {items : List TextItem} {x : TextItem} (h : x ∈ sound items) :
    x.isBad = false := by
  have hx := List.mem_takeWhile_imp h
  rwa [Bool.not_eq_true'] at hx

/-- What is broken begins with a bad escape. -/
theorem broken_eq {items : List TextItem} (h : ∃ x ∈ items, x.isBad = true) :
    ∃ e after, broken items = escape e :: after ∧ Lexer.escaped? e = none := by
  obtain ⟨x, hx, hbad⟩ := h
  have hne : broken items ≠ [] := fun hnil => by
    have hsound := List.dropWhile_eq_nil_iff.1 hnil x hx
    rw [hbad] at hsound
    cases hsound
  have hhead : (!((broken items).head hne).isBad) = false :=
    List.head_dropWhile_not (fun x : TextItem => !x.isBad) (l := items) hne
  rw [Bool.not_eq_false'] at hhead
  obtain ⟨y, after, hitems⟩ := List.exists_cons_of_ne_nil hne
  simp only [hitems, List.head_cons] at hhead
  cases y with
  | plain c => cases hhead
  | escape e => exact ⟨e, after, hitems, isBad_escape_iff.1 hhead⟩

/-- Items without a bad escape stand for a text on one line. -/
theorem exists_inside {items : List TextItem} (hline : ∀ x ∈ items, x.OnLine)
    (hgood : ∀ x ∈ items, x.isBad = false) :
    ∃ v, Inside v (items.flatMap chars) ∧ '\r' ∉ v := by
  induction items with
  | nil => exact ⟨[], .nil, List.not_mem_nil⟩
  | cons x items ih =>
    obtain ⟨hx, hline⟩ := List.forall_mem_cons.1 hline
    obtain ⟨hx', hgood⟩ := List.forall_mem_cons.1 hgood
    obtain ⟨v, hinside, hreturn⟩ := ih hline hgood
    cases x with
    | plain c =>
      exact ⟨c :: v, .plain hx.1 hx.2.1 hx.2.2.1 hinside,
        List.not_mem_cons_of_ne_of_not_mem (Ne.symm hx.2.2.2) hreturn⟩
    | escape c =>
      have hsome : Lexer.escaped? c ≠ none := fun hnone => by
        rw [isBad_escape_iff.2 hnone] at hx'
        cases hx'
      obtain ⟨y, hy⟩ := Option.ne_none_iff_exists'.1 hsome
      have hmem := escaped?_eq_some_iff.1 hy
      exact ⟨y :: v, .escape hmem hinside,
        List.not_mem_cons_of_ne_of_not_mem (Lexer.escape_ne_return hmem).symm hreturn⟩

/-- Items on a line without an escaped quote have no quote and no line feed. -/
theorem ne_of_mem_chars {items : List TextItem} (hline : ∀ x ∈ items, x.OnLine)
    (hquote : escape '\'' ∉ items) {c : Char} (hc : c ∈ items.flatMap chars) :
    c ≠ '\'' ∧ c ≠ '\n' := by
  obtain ⟨x, hx, hc⟩ := List.mem_flatMap.1 hc
  have hx' := hline x hx
  cases x with
  | plain d =>
    obtain rfl := List.mem_singleton.1 hc
    exact ⟨hx'.1, hx'.2.2.1⟩
  | escape d =>
    rcases List.mem_cons.1 hc with rfl | hc
    · decide
    · obtain rfl := List.mem_singleton.1 hc
      refine ⟨?_, hx'.1⟩
      rintro rfl
      exact hquote hx

end TextItem

namespace Lexer

/-- The text literal is skipped through the next quote. -/
theorem afterBrokenText_of_not_mem {skipped : List Char}
    (h : ∀ c ∈ skipped, c ≠ '\'' ∧ c ≠ '\n') (left : List Char) :
    afterBrokenText (skipped ++ '\'' :: left) = left := by
  induction skipped with
  | nil => rfl
  | cons c skipped ih =>
    obtain ⟨hc, hskipped⟩ := List.forall_mem_cons.1 h
    rw [List.cons_append, afterBrokenText, if_neg hc.2, if_neg hc.1, ih hskipped]

/-- A bad escape in a text literal is one fault, and the lexer goes on behind the next quote. -/
theorem faults_badEscape (pos : Nat) {v w : List Char} (h : Inside v w) (hreturn : '\r' ∉ v)
    {e : Char} (he : escaped? e = none) {skipped : List Char}
    (hskipped : ∀ c ∈ e :: skipped, c ≠ '\'' ∧ c ≠ '\n') (left : List Char) :
    faults (scan pos ('\'' :: (w ++ '\\' :: e :: (skipped ++ '\'' :: left)))) =
      ⟨.invalidEscape, .ofSize (pos + 1 + Text.byteLength w) 1⟩ ::
        faults (scan
          (pos + Text.byteLength ('\'' :: (w ++ '\\' :: e :: (skipped ++ ['\''])))) left) := by
  have hscan : scanText (w ++ '\\' :: e :: (skipped ++ '\'' :: left)) =
      { ending := .badEscape, value := v ++ [], taken := w ++ ['\\'],
        rest := e :: (skipped ++ '\'' :: left) } := by
    rw [scanText_append h hreturn, scanText, he]
  have hend := congrArg TextScan.ending hscan
  obtain ⟨hfound, hrest⟩ := readText_badEscape pos hend
  have hsize := (readText pos (w ++ '\\' :: e :: (skipped ++ '\'' :: left))).byteLength_split
  have hspan : Span.ofBounds (pos + 1 + Text.byteLength (w ++ ['\\']) - 1)
      (pos + 1 + Text.byteLength (w ++ ['\\'])) = .ofSize (pos + 1 + Text.byteLength w) 1 := by
    have hslash : Text.byteLength ['\\'] = 1 := rfl
    simp only [Text.byteLength_append, hslash, Span.ofBounds, Span.ofSize, Span.mk.injEq]
    omega
  simp only [hscan] at hfound hrest
  rw [hspan] at hfound
  have hskip := hrest.trans (afterBrokenText_of_not_mem hskipped left)
  have hplace : pos +
      Text.byteLength (readText pos (w ++ '\\' :: e :: (skipped ++ '\'' :: left))).taken =
      pos + Text.byteLength ('\'' :: (w ++ '\\' :: e :: (skipped ++ ['\'']))) := by
    rw [hskip] at hsize
    simp only [Text.byteLength_cons, Text.byteLength_append, Text.byteLength_nil] at hsize ⊢
    omega
  have hfront : readFront pos '\'' (w ++ '\\' :: e :: (skipped ++ '\'' :: left)) =
      readText pos (w ++ '\\' :: e :: (skipped ++ '\'' :: left)) := rfl
  rw [scan, hfront, hskip, hplace, hfound]
  rfl

end Lexer

/-! ## Sources -/

section

variable {u : String} {lu : List (Spanned Lexeme)}

/-- In a source that is cut up and does not end in a comment, a bad escape in a text literal
behind it is the first fault, and the lexer goes on behind the next quote. -/
theorem lexicalDiagnostics_skipped (hu : tokenize u = .ok lu)
    (hopen : ∀ l, lu.getLast? = some l → l.value.group ≠ .comment) {v w : List Char}
    (h : Inside v w) (hreturn : '\r' ∉ v) {e : Char} (he : Lexer.escaped? e = none)
    {skipped : List Char} (hskipped : ∀ c ∈ e :: skipped, c ≠ '\'' ∧ c ≠ '\n')
    {source left : String} (hsource : source.toList =
      u.toList ++ '\'' :: (w ++ '\\' :: e :: (skipped ++ '\'' :: left.toList))) :
    lexicalDiagnostics source =
      LexicalFault.diagnostic
          ⟨.invalidEscape, .ofSize (u.utf8ByteSize + 1 + Text.byteLength w) 1⟩ ::
        (lexicalDiagnostics left).map (Diagnostic.moved (.shift (u.utf8ByteSize +
          Text.byteLength ('\'' :: (w ++ '\\' :: e :: (skipped ++ ['\''])))))) := by
  obtain ⟨ps, hgreedy, hunbroken, rfl⟩ := tokenize_eq_ok_iff_greedy.1 hu
  have hend : ∀ p, ps.getLast? = some p → p.lexeme.group ≠ .comment := by
    intro p hp
    have hlast := congrArg List.getLast? (placed_map_value 0 ps)
    rw [List.getLast?_map, List.getLast?_map, hp] at hlast
    obtain ⟨l, hl, hvalue⟩ := Option.map_eq_some_iff.1 hlast
    rw [← hvalue]
    exact hopen l hl
  rw [lexicalDiagnostics_eq, hsource, hgreedy.faults_append_quote hunbroken hend,
    Lexer.faults_badEscape _ h hreturn he hskipped, List.map_cons, lexicalDiagnostics_scan,
    Text.byteLength_toList, Nat.zero_add]

/-- What is wrong in a broken literal is its first bad escape. If no quote is escaped behind it,
the lexer goes on behind the literal, and else behind the first such quote. -/
theorem lexicalDiagnostics_badEscape (hu : tokenize u = .ok lu)
    (hopen : ∀ l, lu.getLast? = some l → l.value.group ≠ .comment) {items : List TextItem}
    (hline : ∀ x ∈ items, x.OnLine) (hbad : ∃ x ∈ items, x.isBad = true) (v : String) :
    (TextItem.escape '\'' ∉ TextItem.broken items →
      lexicalDiagnostics (u ++ TextItem.literal items ++ v) =
        LexicalFault.diagnostic ⟨.invalidEscape, .ofSize (u.utf8ByteSize + 1 +
            Text.byteLength ((TextItem.sound items).flatMap TextItem.chars)) 1⟩ ::
          (lexicalDiagnostics v).map
            (Diagnostic.moved (.shift (u ++ TextItem.literal items).utf8ByteSize))) ∧
    ∀ skipped rest, TextItem.broken items = skipped ++ .escape '\'' :: rest →
      TextItem.escape '\'' ∉ skipped →
      lexicalDiagnostics (u ++ TextItem.literal items ++ v) =
        LexicalFault.diagnostic ⟨.invalidEscape, .ofSize (u.utf8ByteSize + 1 +
            Text.byteLength ((TextItem.sound items).flatMap TextItem.chars)) 1⟩ ::
          (lexicalDiagnostics (String.ofList (rest.flatMap TextItem.chars ++ ['\'']) ++ v)).map
            (Diagnostic.moved (.shift (u.utf8ByteSize +
              Text.byteLength ('\'' :: (TextItem.sound items ++ skipped ++
                [TextItem.escape '\'']).flatMap TextItem.chars)))) := by
  obtain ⟨e, after, hbroken, he⟩ := TextItem.broken_eq hbad
  have hchars := TextItem.flatMap_chars_eq hbroken
  rw [← TextItem.sound_append_broken items] at hline
  obtain ⟨hlineSound, hlineBroken⟩ := List.forall_mem_append.1 hline
  obtain ⟨text, hinside, hreturn⟩ :=
    TextItem.exists_inside hlineSound fun x => TextItem.isBad_of_mem_sound
  rw [hbroken] at hlineBroken ⊢
  constructor
  · intro hquote
    have hskipped : ∀ c ∈ e :: after.flatMap TextItem.chars, c ≠ '\'' ∧ c ≠ '\n' := fun c hc =>
      TextItem.ne_of_mem_chars hlineBroken hquote (List.mem_cons_of_mem '\\' hc)
    have hsource : (u ++ TextItem.literal items ++ v).toList = u.toList ++ '\'' ::
        ((TextItem.sound items).flatMap TextItem.chars ++ '\\' :: e ::
          (after.flatMap TextItem.chars ++ '\'' :: v.toList)) := by
      simp [TextItem.literal, hchars]
    rw [lexicalDiagnostics_skipped hu hopen hinside hreturn he hskipped hsource,
      String.utf8ByteSize_append, TextItem.literal, Text.utf8ByteSize_ofList, hchars,
      List.append_assoc]
    rfl
  · intro skipped rest hsplit hquote
    cases skipped with
    | nil =>
      -- the bad escape itself is no escaped quote
      obtain ⟨hquoteBad, _⟩ := List.cons.inj hsplit
      cases hquoteBad
      cases he
    | cons x skipped =>
      obtain ⟨rfl, rfl⟩ := List.cons.inj hsplit
      have hlineSkipped : ∀ x ∈ TextItem.escape e :: skipped, x.OnLine := fun x hx =>
        hlineBroken x (List.mem_append_left _ hx)
      have hskipped : ∀ c ∈ e :: (skipped.flatMap TextItem.chars ++ ['\\']),
          c ≠ '\'' ∧ c ≠ '\n' := by
        rw [← List.cons_append]
        refine List.forall_mem_append.2 ⟨fun c hc => ?_, List.forall_mem_singleton.2 (by decide)⟩
        exact TextItem.ne_of_mem_chars hlineSkipped hquote (List.mem_cons_of_mem '\\' hc)
      have hsource : (u ++ TextItem.literal items ++ v).toList = u.toList ++ '\'' ::
          ((TextItem.sound items).flatMap TextItem.chars ++ '\\' :: e ::
            (skipped.flatMap TextItem.chars ++ ['\\'] ++ '\'' ::
              (String.ofList (rest.flatMap TextItem.chars ++ ['\'']) ++ v).toList)) := by
        simp [TextItem.literal, hchars, TextItem.chars]
      rw [lexicalDiagnostics_skipped hu hopen hinside hreturn he hskipped hsource]
      simp [TextItem.chars]

end

theorem tokenize_empty : tokenize "" = .ok [] :=
  tokenize_eq_ok_iff_greedy.2 ⟨[], .nil, nofun, rfl⟩

/-- A line with a comment, and the beginning of the next. -/
def lineBefore : String := "a // 'b\n"

/-- The third item is a bad escape. -/
def brokenItems : List TextItem := [.plain 'é', .escape 'n', .escape 'q', .escape '\\']

/-- A bad escape and an escaped quote. -/
def escapedQuote : List TextItem := [.escape 'q', .escape '\'']

/-- A literal with a bad escape behind a line with a comment, and one with an escaped quote behind
the bad escape. -/
theorem lexicalDiagnostics_badEscape_bothEnds :
    (∃ lu, tokenize lineBefore = .ok lu ∧ (∀ l, lu.getLast? = some l → l.value.group ≠ .comment) ∧
      (∀ x ∈ brokenItems, x.OnLine) ∧ (∃ x ∈ brokenItems, x.isBad = true) ∧
      TextItem.escape '\'' ∉ TextItem.broken brokenItems ∧
      lexicalDiagnostics (lineBefore ++ TextItem.literal brokenItems ++ "é") =
        LexicalFault.diagnostic ⟨.invalidEscape, .ofSize 13 1⟩ ::
          (lexicalDiagnostics "é").map (Diagnostic.moved (.shift 18))) ∧
    tokenize "" = .ok [] ∧ (∀ x ∈ escapedQuote, x.OnLine) ∧ (∃ x ∈ escapedQuote, x.isBad = true) ∧
      lexicalDiagnostics ("" ++ TextItem.literal escapedQuote ++ "") =
        LexicalFault.diagnostic ⟨.invalidEscape, .ofSize 1 1⟩ ::
          (lexicalDiagnostics (String.ofList ['\''] ++ "")).map (Diagnostic.moved (.shift 5)) := by
  obtain ⟨lu, hu, hlast⟩ := exists_ok_of_toOption (r := tokenize lineBefore)
    (f := fun lu => (lu.getLast?.map fun l => l.value.group)) (b := some .lineBreak)
    (by decide +kernel)
  have hopen : ∀ l, lu.getLast? = some l → l.value.group ≠ .comment := fun l hl hcomment => by
    rw [hl, Option.map_some, hcomment] at hlast
    cases hlast
  have hline : ∀ x ∈ escapedQuote, x.OnLine := by decide
  have hbad : ∃ x ∈ escapedQuote, x.isBad = true := by decide
  refine ⟨⟨lu, hu, hopen, by decide +kernel, by decide, by decide, ?_⟩, tokenize_empty, hline, hbad,
    ?_⟩
  · exact (lexicalDiagnostics_badEscape hu hopen (by decide +kernel) (by decide) "é").1 (by decide)
  · exact (lexicalDiagnostics_badEscape tokenize_empty nofun hline hbad "").2 [.escape 'q'] [] rfl
      (by decide)

/-- Behind an escaped quote the closing quote of the literal opens another one, which is not
closed. -/
theorem escapedQuote_opens :
    (tokenize "" = .ok [] ∧ (∀ x ∈ escapedQuote, x.OnLine) ∧
      ∃ x ∈ escapedQuote, x.isBad = true) ∧
    (lexicalDiagnostics ("" ++ TextItem.literal escapedQuote ++ "")).map
        (fun d => (d.code, d.labels.map Label.span)) =
      [(some .invalidEscape, [.ofSize 1 1]), (some .unterminatedText, [.ofSize 5 1])] ∧
    lexicalDiagnostics ("" ++ TextItem.literal escapedQuote ++ "") ≠
      LexicalFault.diagnostic ⟨.invalidEscape, .ofSize 1 1⟩ ::
        (lexicalDiagnostics "").map (Diagnostic.moved (.shift 6)) := by
  have hfound : (lexicalDiagnostics ("" ++ TextItem.literal escapedQuote ++ "")).map
      (fun d => (d.code, d.labels.map Label.span)) =
      [(some .invalidEscape, [.ofSize 1 1]), (some .unterminatedText, [.ofSize 5 1])] := by
    decide +kernel
  refine ⟨⟨tokenize_empty, by decide, by decide⟩, hfound, fun hone => ?_⟩
  rw [hone] at hfound
  exact absurd hfound (by decide +kernel)

end ArchScript
