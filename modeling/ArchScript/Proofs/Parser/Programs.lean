/-
  Parsing a source reads its tokens.

  Containers hold statements again: the parser of statements is followed by induction on how
  many of them may stand in one another, a bound that no source reaches (`statement_chooses`).
  Then a whole parse has the program of the tokens, or the diagnostic of their fault
  (`Program.parse_eq`), although layout is among the lexemes that it counts.
-/
import ArchScript.Proofs.Parser.Forms

namespace ArchScript

namespace Parser

open Reader

variable {begin ls rest : Lexemes}

/-! ## Statements -/

theorem containerHead_follows (hls : Leaves begin ls) :
    Follows begin (containerHead ls) (readContainerHead (meaningful begin) (meaningful ls)) := by
  refine .bind (.take (takes_textOf _) hls.suffix) fun _ _ hrest => ?_
  refine .bind (.take (takes_keyword _) hrest.suffix) fun _ _ hrest => ?_
  refine .bind (.take (takes_identifierOf _) hrest.suffix) fun _ _ hrest => ?_
  exact .bind (.take (takes_sign _) hrest.suffix) fun _ _ hrest => .ok hrest

/-- A container from after its first word. -/
def readContainer (word : Span) (start ts : Tokens) : Read (Spanned Statement × Tokens) := do
  let (head, inner) ← readContainerHead start ts
  let (body, tail) ← bodyOf inner
  let (close, after) ← readBlockEnd .statement start tail
  return (⟨.container head body, word.union close.span⟩, after)

def containerForm (ts : Tokens) : Read (Option (Spanned Statement × Tokens)) :=
  leading (only? (.keyword .container)) ts fun word rest =>
    some <$> readContainer word.span ts rest

theorem containerDef_chooses {n : Nat} {item : Parser (Spanned Statement)}
    (hitem : ∀ ls, ls.length ≤ n → Chooses ls (item ls) (statementOf (meaningful ls)))
    (hn : ls.length ≤ n + 1) :
    Chooses ls (containerDef item ls) (containerForm (meaningful ls)) := by
  refine .take (takes_keyword .container) (List.suffix_refl ls) fun _ _ hrest => .committed ?_
  refine .bind (containerHead_follows hrest) fun _ inner hinner => ?_
  -- the body is shorter than the container, so the bound on its statements suffices
  have hlength := hinner.length_lt
  refine .bind (block_follows bodyOf_eq hitem (by omega) hinner) fun _ _ hrest => ?_
  exact .bind (.take (takes_blockEnd _) hrest.suffix) fun _ _ hrest => .ok hrest

/-- The first tokens of a statement tell its form. -/
theorem statementOf_eq_forms (ts : Tokens) : statementOf ts =
    orElse (actorForm ts) (orElse (noteForm ts) (orElse (containerForm ts)
      (orElse (annotationForm ts) (orElse (scenarioForm ts) (orElse (assignmentForm ts)
        (orElse (callForm ts) (flowForm ts))))))) := by
  rcases ts with _ | ⟨⟨t, span⟩, ts⟩
  · exact statementOf_simple (by simp)
  by_cases hcontainer : t = .keyword .container
  · subst hcontainer
    rw [statementOf_container]
    exact (orElse_form (readContainer span (⟨.keyword .container, span⟩ :: ts) ts) _).symm
  rw [statementOf_simple (by simp [hcontainer])]
  cases t with
  | keyword k =>
    cases k with
    | container => exact absurd rfl hcontainer
    | agent => exact (orElse_form _ _).symm
    | store => exact (orElse_form _ _).symm
    | user => exact (orElse_form _ _).symm
    | note => exact (orElse_form _ _).symm
    | _ => rfl
  | text value => exact (orElse_form _ _).symm
  | sign s =>
    cases s with
    | «at» => exact (orElse_form _ _).symm
    | _ => rfl
  | identifier name =>
    rcases ts with _ | ⟨⟨u, place⟩, ts⟩
    · rfl
    cases u with
    | keyword k =>
      cases k with
      | is => exact (orElse_form _ _).symm
      | _ => rfl
    | sign s =>
      cases s with
      | dash =>
        rcases ts with _ | ⟨⟨v, _⟩, ts⟩
        · rfl
        cases v with
        | sign s =>
          cases s with
          | leftParen => exact (orElse_form _ _).symm
          | _ => rfl
        | _ => rfl
      | _ => rfl
    | _ => rfl

/-- A bound on statements in one another is enough for as many lexemes. -/
theorem statement_chooses (depth : Nat) :
    ∀ ls : Lexemes, ls.length ≤ depth →
      Chooses ls (statement depth ls) (statementOf (meaningful ls)) := by
  induction depth with
  | zero =>
    intro ls hls
    obtain rfl := List.length_eq_zero_iff.1 (Nat.le_zero.1 hls)
    have hnone : statementOf [] = .ok none := statementOf_simple (by simp)
    change Chooses [] _ (statementOf [])
    rw [hnone]
    exact .absent rfl
  | succ depth ih =>
    intro ls hls
    rw [statementOf_eq_forms]
    exact .alt (actorDecl_chooses ls) (.alt (noteDecl_chooses ls)
      (.alt (containerDef_chooses ih hls) (.alt (annotationDef_chooses ls)
        (.alt (scenarioDef_chooses ls) (.alt (assignment_chooses ls)
          (.alt (call_chooses ls) (flow_chooses ls)))))))

/-! ## Programs -/

theorem requiredSemicolon_chooses (ls : Lexemes) : Chooses ls (requiredSemicolon ls)
    (some <$> readSign .semicolon (meaningful ls) (meaningful ls)) :=
  .committed (.take (takes_sign .semicolon) (List.suffix_refl ls))

/-- A statement and its semicolon, if the tokens begin with a statement. -/
def endedStatement (ts : Tokens) : Read (Option (Spanned Statement × Tokens)) :=
  statementOf ts >>= fun o =>
    match o with
    | none => .ok none
    | some p => (fun q => some (p.1, q.2)) <$> readSign .semicolon p.2 p.2

theorem endedStatement_chooses {depth : Nat} (hls : ls.length ≤ depth) :
    Chooses ls (terminated (statement depth) requiredSemicolon ls)
      (endedStatement (meaningful ls)) := by
  have hstatement := statement_chooses depth ls hls
  unfold terminated endedStatement
  rw [bind_apply]
  generalize statement depth ls = x at hstatement ⊢
  generalize statementOf (meaningful ls) = r at hstatement ⊢
  cases hstatement with
  | absent hmild => exact .absent hmild
  | error hfinal hbegan h => exact .error hfinal hbegan h
  | @ok s rest hrest =>
    change Chooses ls ((requiredSemicolon >>= fun _ => pure s) rest)
      ((fun q => some (s, q.2)) <$> readSign .semicolon (meaningful rest) (meaningful rest))
    have hread : ∀ r : Read (Spanned Unit × Tokens), (fun q => some (s, q.2)) <$> r =
        Option.map (fun q => (s, q.2)) <$> some <$> r := by
      intro r
      cases r <;> rfl
    rw [hread]
    refine (Chooses.after (requiredSemicolon_chooses rest) fun _ after => ?_).in_suffix hrest.suffix
    exact ⟨s, after, rfl, List.suffix_refl after, rfl⟩

theorem readProgram_eq_endedStatement (ts : Tokens) :
    readProgram ts = endedStatement ts >>= fun o =>
    match o with
    | none => if ts = [] then .ok [] else .error (.stoppedAt .statement ts ts)
    | some p => (p.1 :: ·) <$> readProgram p.2 := by
  rw [readProgram_eq, endedStatement]
  cases statementOf ts with
  | error x => rfl
  | ok o =>
    cases o with
    | none => rfl
    | some p =>
      simp only [bind, Except.bind]
      cases readSign .semicolon p.2 p.2 <;> rfl

/-- The statements of a program are parsed up to where the next one fails, or up to where no
statement begins. -/
theorem statements_parsed {depth : Nat} (hls : ls.length ≤ depth) :
    (∃ p rest, manyFrom (terminated (statement depth) requiredSemicolon) ls = .ok p rest ∧
      rest <:+ ls ∧ readProgram (meaningful ls) = if meaningful rest = [] then .ok p
        else .error (.stoppedAt .statement (meaningful rest) (meaningful rest))) ∨
    ∃ e rest f, manyFrom (terminated (statement depth) requiredSemicolon) ls = .error e rest ∧
      e.began?.isSome ∧ Explains ls e rest f ∧ readProgram (meaningful ls) = .error f := by
  have hitem := endedStatement_chooses hls
  have hprogram := readProgram_eq_endedStatement (meaningful ls)
  fun_induction manyFrom (terminated (statement depth) requiredSemicolon) ls with
  | case1 ls s rest h hlt more rest' hmany ih =>
    rw [h] at hitem
    rw [hprogram]
    generalize endedStatement (meaningful ls) = r at hitem ⊢
    cases hitem with
    | ok hrest =>
      rcases ih (by omega) (endedStatement_chooses (by omega)) (readProgram_eq_endedStatement _)
        with ⟨p, after, hp, hafter, hread⟩ | ⟨e, after, f, he, _⟩
      · cases hmany.symm.trans hp
        refine Or.inl ⟨s :: more, rest', rfl, hafter.trans hrest.suffix, ?_⟩
        simp only [bind, Except.bind, hread]
        split <;> rfl
      · cases hmany.symm.trans he
  | case2 ls s rest h hlt e rest' hmany ih =>
    rw [h] at hitem
    rw [hprogram]
    generalize endedStatement (meaningful ls) = r at hitem ⊢
    cases hitem with
    | ok hrest =>
      rcases ih (by omega) (endedStatement_chooses (by omega)) (readProgram_eq_endedStatement _)
        with ⟨p, after, hp, _⟩ | ⟨e, after, f, he, hbegan, hf, hread⟩
      · cases hmany.symm.trans hp
      · cases hmany.symm.trans he
        refine Or.inr ⟨e, rest', f, rfl, hbegan, hf.in_suffix hbegan hrest.suffix, ?_⟩
        simp only [bind, Except.bind, hread]
        rfl
  | case3 ls s rest h hlt =>
    rw [h] at hitem
    generalize endedStatement (meaningful ls) = r at hitem
    cases hitem with
    | ok hrest => exact absurd hrest.length_lt hlt
  | case4 ls e rest h hfinal =>
    rw [h] at hitem
    rw [hprogram]
    generalize endedStatement (meaningful ls) = r at hitem ⊢
    cases hitem with
    | absent hmild =>
      rw [hmild] at hfinal
      cases hfinal
    | error _ hbegan h => exact Or.inr ⟨e, rest, _, rfl, hbegan, h, rfl⟩
  | case5 ls e rest h hmild =>
    rw [h] at hitem
    rw [hprogram]
    generalize endedStatement (meaningful ls) = r at hitem ⊢
    cases hitem with
    | absent => exact Or.inl ⟨[], ls, rfl, List.suffix_refl ls, rfl⟩
    | error hfinal => exact absurd hfinal hmild

theorem program_apply_ok {depth : Nat} {p : Program}
    (h : manyFrom (terminated (statement depth) requiredSemicolon) ls = .ok p rest) :
    program depth ls = match onward rest with
      | [] => .ok p []
      | left => .error ⟨true, [.expected "statement", .began left.length]⟩ left := by
  unfold program
  rw [bind_apply, many_apply, h]
  change (match onward rest with
    | [] => pure p
    | left => throw _ : Parser Program) (onward rest) = _
  cases onward rest <;> rfl

theorem program_apply_error {depth : Nat} {e : ParseFailure}
    (h : manyFrom (terminated (statement depth) requiredSemicolon) ls = .error e rest) :
    program depth ls = .error e rest := by
  unfold program
  rw [bind_apply, many_apply, h]

/-- Where a statement is expected and another token stands. -/
theorem leftover_explained (hrest : rest <:+ ls) :
    Explains ls ⟨true, [.expected "statement", .began rest.length]⟩ rest
      (.stoppedAt .statement (meaningful rest) (meaningful rest)) :=
  ⟨rfl, rfl, [], hrest, rfl, by simp [SyntaxFault.stoppedAt, meaningful]⟩

/-! ## Diagnostics -/

theorem Explains.expectedText_eq {e : ParseFailure} {f : SyntaxFault} (h : Explains ls e rest f) :
    e.expectedText = f.expected.text := by
  rw [ParseFailure.expectedText, h.labels]
  cases f.expected with
  | identifier role => cases role <;> rfl
  | _ => rfl

/-- An explained failure and its fault have the same diagnostic. -/
theorem Explains.diagnostic_eq {e : ParseFailure} {f : SyntaxFault} (h : Explains ls e rest f)
    (hbegan : e.began?.isSome) : e.diagnostic ls rest = f.diagnostic (meaningful ls) := by
  obtain ⟨n, hn⟩ := Option.isSome_iff_exists.1 hbegan
  obtain ⟨front, ⟨before, rfl⟩, hlength, hconstruct⟩ := h.construct
  rw [hn, Option.getD_some] at hlength
  have hstop : (before ++ (front ++ rest)).length - rest.length = (before ++ front).length := by
    simp only [List.length_append]
    omega
  have hstart : min (e.began?.elim (before ++ front).length fun remaining =>
      (before ++ (front ++ rest)).length - remaining) (before ++ front).length = before.length := by
    rw [hn, Option.elim_some, hlength]
    simp only [List.length_append]
    omega
  have hsplit : before ++ (front ++ rest) = (before ++ front) ++ rest :=
    (List.append_assoc _ _ _).symm
  have htake : (before ++ (front ++ rest)).take (before ++ front).length = before ++ front := by
    rw [hsplit, List.take_left]
  have hdrop : (before ++ (front ++ rest)).drop (before ++ front).length = rest := by
    rw [hsplit, List.drop_left]
  simp only [ParseFailure.diagnostic, SyntaxFault.diagnostic, hstop, hstart, htake, hdrop,
    List.drop_left, hconstruct, h.left, h.expectedText_eq]

end Parser

/-- A parse of lexemes has the program of their tokens, or the diagnostic of their fault. -/
theorem Program.parse_eq (lexemes : Lexemes) : Program.parse lexemes =
    (Program.ofTokens (meaningful lexemes)).mapError (·.diagnostic (meaningful lexemes)) := by
  unfold Program.parse Program.ofTokens
  rcases Parser.statements_parsed (Nat.le_refl lexemes.length) with
    ⟨p, rest, hparse, hrest, hread⟩ | ⟨e, rest, f, hparse, hbegan, hf, hread⟩
  · rw [Parser.program_apply_ok hparse, hread, ← Parser.meaningful_onward rest]
    rcases Parser.onward_eq_nil_or rest with hend | ⟨t, span, tail, htail⟩
    · rw [hend]
      rfl
    · have hleft : Parser.onward rest <:+ lexemes := (Parser.onward_suffix rest).trans hrest
      rw [htail] at hleft ⊢
      exact congrArg _ ((Parser.leftover_explained hleft).diagnostic_eq rfl)
  · rw [Parser.program_apply_error hparse, hread]
    exact congrArg _ (hf.diagnostic_eq hbegan)

end ArchScript
