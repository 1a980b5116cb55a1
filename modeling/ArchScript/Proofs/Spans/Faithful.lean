/-
  The spans of statements and steps are faithful.

  What a source holds at the span of a statement is the text of its phrase. Cut out of the
  source this text keeps its tokens, whatever a closing sign begins behind it (`Excerpt`,
  `excerpt_of_hasPhrase`). So a semicolon makes it a program of this one statement, and the
  braces of a scenario make the text of a step a scenario of this one step, up to spans
  (`spans_faithful`).
-/
import ArchScript.Proofs.Diagnostics.Phases
import ArchScript.Proofs.Diagnostics.Slices
import ArchScript.Proofs.Lexing.Lookahead
import ArchScript.Proofs.Lexing.Slice
import ArchScript.Proofs.Spans.Readers

namespace ArchScript

open Grammar

/-! ## The pieces of tokens -/

/-- The tokens among pieces. -/
def tokensOf (ps : List Piece) : List Token := ps.filterMap fun p => p.lexeme.token?

theorem tokensOf_append (ps qs : List Piece) :
    tokensOf (ps ++ qs) = tokensOf ps ++ tokensOf qs := List.filterMap_append

theorem tokensOf_cons_token {p : Piece} {t : Token} (h : p.lexeme = .token t) (ps : List Piece) :
    tokensOf (p :: ps) = t :: tokensOf ps := List.filterMap_cons_some (congrArg Lexeme.token? h)

theorem values_meaningful_placed (pos : Nat) (ps : List Piece) :
    values (meaningful (placed pos ps)) = tokensOf ps :=
  (values_meaningful _).trans (spelled_placed pos ps)

/-- A token of a source is one of its lexemes. -/
theorem exists_lexeme {lexemes : List (Spanned Lexeme)} {before after : Tokens}
    {t : Spanned Token} (h : meaningful lexemes = before ++ t :: after) :
    ∃ ls l ls', lexemes = ls ++ l :: ls' ∧ l.value = .token t.value ∧ l.span = t.span ∧
      meaningful ls = before ∧ meaningful ls' = after := by
  obtain ⟨ls, rest, rfl, hbefore, hrest⟩ := List.filterMap_eq_append_iff.1 h
  obtain ⟨layout, l, ls', rfl, hlayout, hl, hafter⟩ := List.filterMap_eq_cons_iff.1 hrest
  obtain ⟨u, hu, rfl⟩ := Option.map_eq_some_iff.1 hl
  refine ⟨ls ++ layout, l, ls', (List.append_assoc _ _ _).symm, ?_, rfl, ?_, hafter⟩
  · cases hvalue : l.value <;> rw [hvalue] at hu <;> cases hu
    rfl
  · have hnone : meaningful layout = [] := List.filterMap_eq_nil_iff.2 hlayout
    unfold meaningful at hnone ⊢
    rw [List.filterMap_append, hbefore, hnone, List.append_nil]

/-- A lexeme of a text is one of its pieces. -/
theorem exists_piece {pos : Nat} {ps : List Piece} {ls ls' : List (Spanned Lexeme)}
    {l : Spanned Lexeme} (h : placed pos ps = ls ++ l :: ls') :
    ∃ front q back, ps = front ++ q :: back ∧ q.lexeme = l.value ∧
      l.span = .ofSize (pos + Text.byteLength (textOf front)) (Text.byteLength q.chars) ∧
      placed pos front = ls ∧
      placed (pos + Text.byteLength (textOf front) + Text.byteLength q.chars) back = ls' := by
  induction ps generalizing pos ls with
  | nil => cases ls <;> cases h
  | cons p ps ih =>
    cases ls with
    | nil =>
      obtain ⟨rfl, hback⟩ := List.cons.inj h
      exact ⟨[], p, ps, rfl, rfl, rfl, rfl, hback⟩
    | cons m ls =>
      obtain ⟨rfl, hrest⟩ := List.cons.inj h
      obtain ⟨front, q, back, rfl, hq, hspan, hfront, hback⟩ := ih hrest
      have hpos : pos + Text.byteLength (textOf (p :: front)) =
          pos + Text.byteLength p.chars + Text.byteLength (textOf front) := by
        rw [textOf_cons, Text.byteLength_append, Nat.add_assoc]
      refine ⟨p :: front, q, back, rfl, hq, ?_, ?_, ?_⟩
      · rw [hspan, hpos]
      · rw [placed, hfront]
      · rw [hpos, hback]

/-- Tokens that stand one after the other are the tokens of pieces that do, and the span from the
first to the last is that of these pieces. -/
theorem exists_pieces {ps : List Piece} {before middle after : Tokens} {first last : Spanned Token}
    (h : meaningful (placed 0 ps) = before ++ first :: (middle ++ last :: after)) :
    ∃ outside inside q back, ps = outside ++ (inside ++ q :: back) ∧
      q.lexeme = .token last.value ∧
      tokensOf (inside ++ [q]) = values (first :: (middle ++ [last])) ∧
      first.span.union last.span = .ofSize (Text.byteLength (textOf outside))
        (Text.byteLength (textOf (inside ++ [q]))) := by
  have hlast : meaningful (placed 0 ps) = (before ++ first :: middle) ++ last :: after := by
    rw [h, List.append_assoc, List.cons_append]
  obtain ⟨ls, l, _, hls, hl, hlspan, hfirst, _⟩ := exists_lexeme hlast
  obtain ⟨front, q, back, rfl, hq, hqspan, rfl, _⟩ := exists_piece hls
  obtain ⟨ms, m, _, hms, hm, hmspan, _, rfl⟩ := exists_lexeme hfirst
  obtain ⟨outside, o, inside, rfl, ho, hospan, rfl, rfl⟩ := exists_piece hms
  rw [hl] at hq
  rw [hm] at ho
  refine ⟨outside, o :: inside, q, back, List.append_assoc _ _ _, hq, ?_, ?_⟩
  · rw [List.cons_append, tokensOf_cons_token ho, tokensOf_append, tokensOf_cons_token hq, values,
      List.map_cons, List.map_append, ← values_meaningful_placed]
    rfl
  · rw [← hmspan, ← hlspan, hospan, hqspan]
    simp only [Span.union, Span.ofSize, textOf_append, textOf_cons, textOf_nil,
      Text.byteLength_append, Text.byteLength_nil, Span.mk.injEq]
    omega

/-! ## Excerpts -/

/-- The text is cut up into pieces with these tokens, whatever a closing sign begins behind it. -/
def Excerpt (text : String) (ws : List Token) : Prop :=
  ∃ ps, textOf ps = text.toList ∧ (∀ p ∈ ps, p.lexeme.Unbroken) ∧ tokensOf ps = ws ∧
    ∀ {c r qs}, c ∈ closers → Greedy (c :: r) qs → Greedy (textOf ps ++ c :: r) (ps ++ qs)

/-- The pieces up to a token are cut off alike before every closing sign. -/
theorem Greedy.before_closer {ps back : List Piece} {q : Piece} {t : Token}
    (h : Greedy (textOf (ps ++ q :: back)) (ps ++ q :: back)) (hq : q.lexeme = .token t)
    {c : Char} {r : List Char} {qs : List Piece} (hc : c ∈ closers) (hqs : Greedy (c :: r) qs) :
    Greedy (textOf (ps ++ [q]) ++ c :: r) (ps ++ [q] ++ qs) := by
  rw [textOf_append] at h
  have htoken := (greedy_append_iff.1 h.drop).1
  have hspells := htoken.spells
  rw [hq] at hspells
  have hclosed : Greedy (q.chars ++ c :: r) (q :: qs) := by
    refine greedy_append_iff.2 ⟨?_, hqs⟩
    rw [hq]
    exact hspells.longest_before_closer hc r
  obtain ⟨d, ds, hchars⟩ := List.exists_cons_of_ne_nil hspells.ne_nil
  rw [textOf_cons, hchars] at h
  rw [hchars] at hclosed
  have hwhole := h.relocate hclosed
  rw [textOf_append, textOf_cons, textOf_nil, List.append_nil, hchars]
  simpa using hwhole

/-- The text of a phrase is an excerpt with its tokens. -/
theorem excerpt_of_hasPhrase {α : Type} {Rule : List Token → α → Prop} {bare : α → α}
    {source : String} {lexemes : List (Spanned Lexeme)} {x : Spanned α}
    (ht : tokenize source = .ok lexemes) (hx : HasPhrase Rule bare (meaningful lexemes) x) :
    ∃ ws, Rule ws (bare x.value) ∧ Excerpt (x.span.slice source) ws := by
  obtain ⟨us, ⟨before, after, hus⟩, hphrase⟩ := hx
  obtain ⟨ps, hps, hunbroken, rfl⟩ := tokenize_eq_ok_iff_greedy.1 ht
  obtain ⟨first, middle, last, rfl, hspan⟩ := hphrase.span
  have htokens : meaningful (placed 0 ps) = before ++ first :: (middle ++ last :: after) := by
    rw [← hus]
    simp
  obtain ⟨outside, inside, q, back, rfl, hq, hws, hunion⟩ := exists_pieces htokens
  have hsource : source.toList =
      textOf outside ++ (textOf (inside ++ [q]) ++ textOf back) := by
    rw [← hps.textOf_eq]
    simp
  have hcut : Greedy (textOf (inside ++ q :: back)) (inside ++ q :: back) := by
    rw [← hps.textOf_eq, textOf_append] at hps
    exact hps.drop
  refine ⟨_, hphrase.rule, inside ++ [q], ?_, fun p hp => hunbroken p ?_, hws, ?_⟩
  · rw [hspan, hunion, slice_of_append hsource, String.toList_ofList]
  · rw [List.append_cons]
    exact List.mem_append_right _ (List.mem_append_left back hp)
  · exact hcut.before_closer hq

/-! ## Excerpts in other texts -/

/-- A scenario with the text between its braces. -/
def inScenario (text : String) : String := "'s' \x7b" ++ text ++ "\x7d"

/-- The piece of a sign. -/
def signPiece (s : Sign) : Piece := ⟨.token (.sign s), s.spelling⟩

/-- A sign at the end of a text is its last piece. -/
theorem greedy_sign (s : Sign) : Greedy s.spelling [signPiece s] :=
  .cons (List.append_nil _) ⟨.sign s, List.prefix_refl _, fun _ _ _ hw => hw.length_le⟩ .nil

/-- The text, the blank and the brace that begin a scenario. -/
def scenarioStart : List Piece :=
  [⟨.token (.text "s"), ['\'', 's', '\'']⟩, ⟨.blanks, [' ']⟩, signPiece .leftBrace]

theorem longest_blank_leftBrace (cs : List Char) :
    Longest .blanks [' '] ([' '] ++ '\x7b' :: cs) := by
  refine longest_iff_next.2 ⟨.blanks (by simp) (List.forall_mem_singleton.2 (by decide)), ?_⟩
  intro l h
  have hgroup : l.group = .blanks := h.group_eq
  generalize hw : [' '] ++ ['\x7b'] = w at h
  cases h with
  | blanks _ hblank =>
    subst hw
    exact absurd (hblank '\x7b' (by simp)).1 (by decide)
  | _ => cases hgroup

theorem longest_leftBrace (c : Char) (cs : List Char) :
    Longest (.token (.sign .leftBrace)) ['\x7b'] (['\x7b'] ++ c :: cs) := by
  refine longest_iff_next.2 ⟨.sign .leftBrace, fun l h => ?_⟩
  have hgroup : l.group = .sign := h.group_eq
  generalize hw : ['\x7b'] ++ [c] = w at h
  cases h with
  | sign t => cases t <;> cases hw
  | _ => cases hgroup

/-- The beginning of a scenario is cut off before whatever follows. -/
theorem greedy_scenarioStart {cs : List Char} {ps : List Piece} (h : Greedy cs ps)
    (hne : cs ≠ []) : Greedy (textOf scenarioStart ++ cs) (scenarioStart ++ ps) := by
  obtain ⟨c, cs, rfl⟩ := List.exists_cons_of_ne_nil hne
  have hname : Inside ['s'] ['s'] := .plain (by decide) (by decide) (by decide) .nil
  exact .cons rfl (hname.longest _) (.cons rfl (longest_blank_leftBrace _)
    (.cons rfl (longest_leftBrace c cs) h))

namespace Excerpt

variable {text : String} {ws : List Token}

theorem hasTokens (h : Excerpt text ws) : HasTokens text ws := by
  obtain ⟨ps, htext, hunbroken, hws, hcut⟩ := h
  have hbefore := hcut (c := ';') (by decide) (greedy_sign .semicolon)
  exact ⟨ps, htext ▸ hbefore.take, hunbroken, hws.symm⟩

/-- An excerpt with a semicolon behind it. -/
theorem closed (h : Excerpt text ws) : HasTokens (text ++ ";") (ws ++ [.sign .semicolon]) := by
  obtain ⟨ps, htext, hunbroken, rfl, hcut⟩ := h
  refine ⟨ps ++ [signPiece .semicolon], ?_, ?_, ?_⟩
  · rw [String.toList_append, ← htext]
    exact hcut (c := ';') (by decide) (greedy_sign .semicolon)
  · exact List.forall_mem_append.2 ⟨hunbroken, List.forall_mem_singleton.2 trivial⟩
  · exact (tokensOf_append ps [signPiece .semicolon]).symm

/-- A scenario with an excerpt between its braces is an excerpt of its own. -/
theorem scenario (h : Excerpt text ws) :
    Excerpt (inScenario text) (.text "s" :: .sign .leftBrace :: (ws ++ [.sign .rightBrace])) := by
  obtain ⟨ps, htext, hunbroken, rfl, hcut⟩ := h
  refine ⟨scenarioStart ++ (ps ++ [signPiece .rightBrace]), ?_, ?_, ?_, ?_⟩
  · rw [textOf_append, textOf_append, htext, inScenario, String.toList_append,
      String.toList_append, List.append_assoc]
    rfl
  · refine List.forall_mem_append.2 ⟨?_, List.forall_mem_append.2 ⟨hunbroken, ?_⟩⟩
    · simp [scenarioStart, signPiece, Lexeme.Unbroken]
    · exact List.forall_mem_singleton.2 trivial
  · rw [tokensOf_append, tokensOf_append]
    rfl
  · intro c r qs hc hqs
    have hbrace : Greedy ('\x7d' :: c :: r) (signPiece .rightBrace :: qs) :=
      .cons rfl ((Spells.sign .rightBrace).longest_before_closer hc r) hqs
    have hwhole := greedy_scenarioStart (hcut (by decide) hbrace) (by simp)
    have htext : textOf (ps ++ [signPiece .rightBrace]) ++ c :: r =
        textOf ps ++ '\x7d' :: c :: r := by
      rw [textOf_append, List.append_assoc]
      rfl
    rw [textOf_append, List.append_assoc, htext, List.append_assoc, List.append_assoc]
    exact hwhole

end Excerpt

/-! ## Reading excerpts -/

/-- The text is cut up and read as a program of the one statement, up to spans. -/
def IsProgramOf (text : String) (x : Statement) : Prop :=
  ∃ lexemes y, tokenize text = .ok lexemes ∧
    Program.ofTokens (meaningful lexemes) = .ok [y] ∧ y.value.bare = x.bare

/-- The text is cut up and read to its end as the statement, up to spans. -/
def IsTextOf (text : String) (x : Statement) : Prop :=
  ∃ lexemes, tokenize text = .ok lexemes ∧ Reader.Reads (meaningful lexemes) x.bare []

theorem Excerpt.isTextOf {text : String} {ws : List Token} {x : Statement} (h : Excerpt text ws)
    (hx : StatementRule ws x.bare) : IsTextOf text x := by
  obtain ⟨lexemes, ht, hws⟩ := hasTokens_iff.1 h.hasTokens
  refine ⟨lexemes, ht, Reader.readStatement_complete hx ?_ ⟨nofun, nofun⟩⟩
  rw [values_meaningful, hws, List.append_nil]

theorem Excerpt.isProgramOf {text : String} {ws : List Token} {x : Statement}
    (h : Excerpt text ws) (hx : StatementRule ws x.bare) : IsProgramOf (text ++ ";") x := by
  obtain ⟨lexemes, ht, hws⟩ := hasTokens_iff.1 h.closed
  obtain ⟨p, hp, hbare⟩ := Reader.readProgram_complete (.cons hx .nil)
    ((values_meaningful lexemes).trans hws)
  rw [Program.bare, bareAll_eq_map, List.map_map] at hbare
  obtain ⟨y, rfl, hy⟩ := List.map_eq_singleton_iff.1 hbare
  exact ⟨lexemes, y, ht, hp, congrArg Spanned.value hy⟩

/-- A step between braces is a scenario of this step. -/
theorem scenarioRule_of_step {ws : List Token} {x : Spanned StepDecl}
    (h : StepRule ws x.value.bare) :
    StatementRule (.text "s" :: .sign .leftBrace :: (ws ++ [.sign .rightBrace]))
      (Statement.scenario ⟨unplaced "s", [x]⟩).bare := by
  have hrule := StatementRule.scenario "s" (Block.cons h .nil)
  rw [List.append_nil] at hrule
  exact hrule

/-! ## Sources -/

/-- The statement is faithful to its span: the span is a piece of the source, and with a
semicolon behind it this piece is a program of the statement alone. -/
def FaithfulStatement (source : String) (x : Spanned Statement) : Prop :=
  x.span.Slices source ∧ IsProgramOf (x.span.slice source ++ ";") x.value

/-- The step is faithful to its span: the span is a piece of the source, and between the braces
of a scenario this piece is a scenario of the step alone. -/
def FaithfulStep (source : String) (x : Spanned StepDecl) : Prop :=
  x.span.Slices source ∧
    IsTextOf (inScenario (x.span.slice source)) (.scenario ⟨unplaced "s", [x]⟩) ∧
    IsProgramOf (inScenario (x.span.slice source) ++ ";") (.scenario ⟨unplaced "s", [x]⟩)

/-- Every statement, at whatever level, and every step is faithful to its span. Statements of one
level follow one another, and a container spans those in it. -/
structure Program.SpansFaithful (source : String) (p : Program) : Prop where
  statements : ∀ x ∈ statementsOf p, FaithfulStatement source x
  steps : ∀ x ∈ stepsOf p, FaithfulStep source x
  apart : Apart p
  encloses : ∀ x ∈ statementsOf p, Encloses x

theorem ordered_of_tokenize {source : String} {lexemes : List (Spanned Lexeme)}
    (ht : tokenize source = .ok lexemes) : Ordered (meaningful lexemes) := by
  obtain ⟨ps, hps, _, rfl⟩ := tokenize_eq_ok_iff_greedy.1 ht
  exact List.pairwise_map.1 ((hps.covers 0).apart.sublist (spans_meaningful_sublist _))

/-- The span of a phrase is a piece of the source. -/
theorem HasPhrase.slices {α : Type} {Rule : List Token → α → Prop} {bare : α → α}
    {source : String} {lexemes : List (Spanned Lexeme)} {x : Spanned α}
    (hx : HasPhrase Rule bare (meaningful lexemes) x) (ht : tokenize source = .ok lexemes) :
    x.span.Slices source := by
  obtain ⟨t, ht', u, hu, hspan⟩ := hx.span
  rw [hspan]
  exact (slices_of_mem_meaningful ht t ht').union (slices_of_mem_meaningful ht u hu)

/-- The spans of every program that is read from a source are faithful. -/
theorem spans_faithful {source : String} {lexemes : List (Spanned Lexeme)} {p : Program}
    (ht : tokenize source = .ok lexemes) (hp : Program.ofTokens (meaningful lexemes) = .ok p) :
    p.SpansFaithful source := by
  have hordered := ordered_of_tokenize ht
  have hlaid : LaidOut (meaningful lexemes) p := Reader.readProgram_laidOut hp
  refine ⟨fun x hx => ?_, fun x hx => ?_, hlaid.apart hordered, hlaid.encloses hordered⟩
  · have hphrase := hlaid.phrases x hx
    obtain ⟨ws, hrule, hexcerpt⟩ := excerpt_of_hasPhrase ht hphrase
    exact ⟨hphrase.slices ht, hexcerpt.isProgramOf hrule⟩
  · have hphrase := hlaid.stepPhrases x hx
    obtain ⟨ws, hrule, hexcerpt⟩ := excerpt_of_hasPhrase ht hphrase
    have hscenario := scenarioRule_of_step hrule
    exact ⟨hphrase.slices ht, hexcerpt.scenario.isTextOf hscenario,
      hexcerpt.scenario.isProgramOf hscenario⟩

/-- Containers in one another, with comments and characters of several bytes inside and between
the statements. -/
def nestedSpans : String :=
  "// é\nagent 'É' as a is @X, // €\n @Y ;container 'C' as c \x7b container '\x7d' as d \x7b" ++
  "'s' \x7ba --('é') // --<\n --< a ; a <-'x'- a\x7d \x7d a\nis @X\x7d;"

/-- The statements and the steps stand at their spans. -/
theorem spans_faithful_nestedSpans :
    ∃ lexemes p, tokenize nestedSpans = .ok lexemes ∧
      Program.ofTokens (meaningful lexemes) = .ok p ∧ p.SpansFaithful nestedSpans ∧
      (statementsOf p).length = 5 ∧
      (stepsOf p).map (fun x => x.span.slice nestedSpans) =
        ["a --('é') // --<\n --< a", "a <-'x'- a"] := by
  have hseen : (tokenize nestedSpans).toOption.map (fun l =>
      (Program.ofTokens (meaningful l)).toOption.map fun p => ((statementsOf p).length,
        (stepsOf p).map fun x => x.span.slice nestedSpans)) =
      some (some (5, ["a --('é') // --<\n --< a", "a <-'x'- a"])) := by
    decide +kernel
  obtain ⟨lexemes, ht, hprogram⟩ := exists_ok_of_toOption hseen
  obtain ⟨p, hp, hvalues⟩ := exists_ok_of_toOption hprogram
  obtain ⟨hlength, hslices⟩ := Prod.mk.inj hvalues
  exact ⟨lexemes, p, ht, hp, spans_faithful ht hp, hlength, hslices⟩

end ArchScript
