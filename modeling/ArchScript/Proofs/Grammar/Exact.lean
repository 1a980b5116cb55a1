/-
  The reader accepts the grammar, and nothing else.

  The first tokens of a statement tell its form, and then the reader is bound to it. This loses
  no derivation either (`readStatement_complete`). Together with the modules `Sound` and
  `Complete`: the reader accepts the tokens that the grammar derives, and gives the one tree
  that the grammar derives for them (`ofTokens_exact`).
-/
import ArchScript.Proofs.Compile
import ArchScript.Proofs.Grammar.Complete

namespace ArchScript

open Grammar

namespace Reader

variable {ts : Tokens} {us ws : List Token}

/-! ## Statements -/

/-- The reader of statements gives a tree that is `x` without its spans. -/
def Reads (ts : Tokens) (x : Statement) (us : List Token) : Prop :=
  ∃ s rest hr, readStatement ts = .ok (some ⟨(s, rest), hr⟩) ∧ s.value.bare = x ∧
    values rest = us

/-- Where the first tokens decide for the reader of one form, this reader decides. -/
theorem reads_of_gives {r : Read (Spanned Statement × Tokens)} {x : Statement}
    (hr : readSimple ts = some <$> r) (h : Gives Statement.bare r x us) : Reads ts x us := by
  obtain ⟨s, rest, hs, hx, hrest⟩ := h.exists_some
  rw [← hr] at hs
  refine ⟨s, rest, readSimple_length hs, ?_, hx, hrest⟩
  unfold readStatement
  split
  · cases hs
  · split
    · next e he =>
      rw [he] at hs
      cases hs
    · next hnone =>
      rw [hnone] at hs
      cases hs
    · next p hp =>
      rw [hp] at hs
      cases hs
      rfl

/-- A closing brace begins no statement. -/
theorem readStatement_rightBrace (hts : values ts = .sign .rightBrace :: us) :
    readStatement ts = .ok none := by
  obtain ⟨_, rest, rfl, _⟩ := values_eq_cons hts
  rw [readStatement]
  · rfl
  · intro word rest h
    cases h

theorem readBody_complete {n : Nat} (hone : ∀ {ws x}, StatementRule ws x → ws.length < n →
      ∀ {ts us}, values ts = ws ++ us → Ends us → Reads ts x us)
    {xs : List Statement} (h : Block StatementRule ws xs) (hn : ws.length < n)
    (hts : values ts = ws ++ .sign .rightBrace :: us) : ∃ body rest hr,
      readBody ts = .ok ⟨(body, rest), hr⟩ ∧ (body.map fun s => s.value.bare) = xs ∧
        values rest = .sign .rightBrace :: us := by
  have hblock := block_complete (fun s => s.value.bare)
    (fun ts s rest => ∃ hr, readStatement ts = .ok (some ⟨(s, rest), hr⟩))
    (fun ts body rest => ∃ hr, readBody ts = .ok ⟨(body, rest), hr⟩)
    (fun _ _ h => h.1.opens) ?_ ?_ ?_ (h.shorter hn) hts
  · obtain ⟨body, rest, ⟨hr, hbody⟩, hxs, hrest⟩ := hblock
    exact ⟨body, rest, hr, hbody, hxs, hrest⟩
  · intro ws x ts us hx hts hus
    obtain ⟨s, rest, hr, hs, hbare, hrest⟩ := hone hx.1 hx.2 hts hus
    exact ⟨s, rest, ⟨hr, hs⟩, hbare, hrest⟩
  · intro ts us hts
    refine ⟨Nat.le_refl _, ?_⟩
    rw [readBody, readStatement_rightBrace hts]
  · rintro ts s next body rest ⟨hr, hs⟩ ⟨hr', hbody⟩
    have hskip := skipSemicolon_length next
    refine ⟨by simp only at hr hr' ⊢; omega, ?_⟩
    rw [readBody, hs]
    simp only [hbody]

theorem readContainerHead_complete (start : Tokens) {name : String} {x : Ident}
    (hts : values ts =
      .text name :: .keyword .as :: .identifier x :: .sign .leftBrace :: us) :
    ∃ head rest, readContainerHead start ts = .ok (head, rest) ∧
      head.bare = ⟨unplaced name, unplaced x⟩ ∧ values rest = us := by
  obtain ⟨a, _, h₁, hts⟩ :=
    accept_complete textValue? (.textLiteral .containerName) start hts rfl
  obtain ⟨_, _, h₂, hts⟩ := accept_fixed_complete (.keyword .as) start hts
  obtain ⟨b, _, h₃, hts⟩ :=
    accept_complete name? (.identifier (some .container)) start hts rfl
  obtain ⟨_, rest, h₄, hrest⟩ := accept_fixed_complete (.sign .leftBrace) start hts
  refine ⟨⟨⟨name, a⟩, ⟨x, b⟩⟩, rest, ?_, rfl, hrest⟩
  simp only [readContainerHead, bind_eq_ok, Prod.exists]
  exact ⟨_, _, h₁, _, _, h₂, _, _, h₃, _, _, h₄, rfl⟩

/-- A container is read from its head, its body and its closing brace. -/
theorem readStatement_container {word : Span} {rest inner tail after : Tokens}
    {head : ContainerHead} {body : List (Spanned Statement)} {close : Spanned Unit}
    {ht : tail.length ≤ inner.length}
    (hhead : readContainerHead (⟨.keyword .container, word⟩ :: rest) rest = .ok (head, inner))
    (hbody : readBody inner = .ok ⟨(body, tail), ht⟩)
    (hclose : readBlockEnd .statement (⟨.keyword .container, word⟩ :: rest) tail =
      .ok (close, after)) :
    ∃ hr, readStatement (⟨.keyword .container, word⟩ :: rest) =
      .ok (some ⟨(⟨.container head body, word.union close.span⟩, after), hr⟩) := by
  have hlen := readContainerHead_length hhead
  have hend := accept_length hclose
  refine ⟨by simp only [List.length_cons]; omega, ?_⟩
  unfold readStatement
  dsimp only
  split
  · next e he =>
    rw [hhead] at he
    cases he
  · next head' inner' hhead' =>
    obtain ⟨rfl, rfl⟩ : head = head' ∧ inner = inner' := by
      rw [hhead] at hhead'
      cases hhead'
      exact ⟨rfl, rfl⟩
    rw [hbody]
    dsimp only
    split
    · next e he =>
      rw [hclose] at he
      cases he
    · next close' after' hclose' =>
      rw [hclose] at hclose'
      cases hclose'
      rfl

/-- Every derivation of a statement is read where the statement can end. -/
theorem readStatement_complete {ws : List Token} {x : Statement} (h : StatementRule ws x)
    {ts us} (hts : values ts = ws ++ us) (hus : Ends us) : Reads ts x us := by
  cases h with
  | actor kind caption y h =>
    obtain ⟨word, ts, rfl, h₁⟩ := values_eq_cons hts
    have hgives := readActor_complete ⟨kind, word⟩ (⟨.keyword (actorWord kind), word⟩ :: ts)
      h h₁ hus
    cases kind <;> exact reads_of_gives rfl hgives
  | note y text =>
    obtain ⟨word, ts, rfl, h₁⟩ := values_eq_cons hts
    exact reads_of_gives rfl (readNote_complete word _ h₁)
  | assignment y h =>
    cases h with
    | is h =>
      obtain ⟨a, _, rfl, h₁⟩ := values_eq_cons hts
      obtain ⟨word, ts, rfl, h₂⟩ := values_eq_cons h₁
      exact reads_of_gives rfl (readAssignment_complete ⟨y, a⟩ _ h h₂ hus)
  | call kind a b h =>
    obtain ⟨sa, _, rfl, h₁⟩ := values_eq_cons hts
    obtain ⟨_, _, rfl, h₂⟩ := values_eq_cons h₁
    obtain ⟨_, ts, rfl, h₃⟩ := values_eq_cons h₂
    rw [List.append_eq, List.append_assoc] at h₃
    exact reads_of_gives rfl (readCall_complete ⟨a, sa⟩ _ h h₃)
  | flow kind a b =>
    obtain ⟨sa, _, rfl, h₁⟩ := values_eq_cons hts
    obtain ⟨_, ts, rfl, h₂⟩ := values_eq_cons h₁
    cases kind <;> exact reads_of_gives rfl (readFlow_complete _ ⟨a, sa⟩ _ h₂)
  | «annotation» y h =>
    obtain ⟨at_, ts, rfl, h₁⟩ := values_eq_cons hts
    rw [List.append_eq, List.cons_append, List.cons_append, List.append_assoc] at h₁
    exact reads_of_gives rfl (readAnnotationDef_complete at_ _ h h₁)
  | scenario name h =>
    obtain ⟨sn, ts, rfl, h₁⟩ := values_eq_cons hts
    rw [List.append_eq, List.cons_append, List.append_assoc] at h₁
    exact reads_of_gives rfl (readScenario_complete ⟨name, sn⟩ _ h h₁)
  | @container name y vs body h =>
    obtain ⟨word, ts, rfl, h₁⟩ := values_eq_cons hts
    simp only [List.append_eq, List.cons_append, List.append_assoc] at h₁
    obtain ⟨head, inner, hhead, hbare, h₂⟩ :=
      readContainerHead_complete (⟨.keyword .container, word⟩ :: ts) h₁
    -- the items of the body are shorter than the container, which ends the recursion
    obtain ⟨found, tail, _, hbody, hfound, h₃⟩ := readBody_complete
      (fun hx hlen => readStatement_complete hx) h (Nat.lt_succ_self vs.length) h₂
    obtain ⟨_, rest, hclose, hrest⟩ := accept_fixed_complete (.itemOrEnd .statement)
      (⟨.keyword .container, word⟩ :: ts) h₃
    obtain ⟨hr, hread⟩ := readStatement_container hhead hbody hclose
    refine ⟨_, rest, hr, hread, ?_, hrest⟩
    rw [Statement.bare, hbare, bareAll_eq_map, hfound]
termination_by ws.length
decreasing_by
  subst_vars
  simp only [List.length_cons, List.length_append]
  omega

/-! ## Programs -/

theorem readStatement_nil : readStatement [] = .ok none := by
  rw [readStatement]
  · rfl
  · intro word rest h
    cases h

/-- A program goes on after the semicolon of its first statement. -/
theorem readProgram_cons {ts rest after : Tokens} {s : Spanned Statement} {hr}
    {semicolon : Spanned Unit} {p : Program}
    (hs : readStatement ts = .ok (some ⟨(s, rest), hr⟩))
    (hsemi : readSign .semicolon rest rest = .ok (semicolon, after))
    (hp : readProgram after = .ok p) : readProgram ts = .ok (s :: p) := by
  unfold readProgram
  rw [hs]
  dsimp only
  split
  · next e he =>
    rw [hsemi] at he
    cases he
  · next semicolon' after' hsemi' =>
    rw [hsemi] at hsemi'
    cases hsemi'
    exact bind_eq_ok.2 ⟨p, hp, rfl⟩

theorem readProgram_complete {ws : List Token} {p : Program} (h : ProgramRule ws p) {ts : Tokens}
    (hts : values ts = ws) : ∃ q, readProgram ts = .ok q ∧ q.bare = p := by
  induction h generalizing ts with
  | nil =>
    obtain rfl : ts = [] := List.map_eq_nil_iff.1 hts
    refine ⟨[], ?_, rfl⟩
    rw [readProgram, readStatement_nil]
  | @cons vs ws x p hx hp ih =>
    obtain ⟨s, rest, _, hs, rfl, hrest⟩ := readStatement_complete hx hts (ends_cons (by simp) _)
    obtain ⟨_, after, hsemi, hafter⟩ := accept_fixed_complete (.sign .semicolon) rest hrest
    obtain ⟨q, hq, rfl⟩ := ih hafter
    exact ⟨s :: q, readProgram_cons hs hsemi hq, rfl⟩

end Reader

/-! ## The language -/

/-- The tokens of a source, without layout and without spans. -/
def spelled (lexemes : List (Spanned Lexeme)) : List Token :=
  lexemes.filterMap fun l => l.value.token?

theorem values_meaningful (lexemes : List (Spanned Lexeme)) :
    values (meaningful lexemes) = spelled lexemes := by
  induction lexemes with
  | nil => rfl
  | cons l ls ih =>
    unfold values meaningful spelled at *
    cases hl : l.value.token? with
    | none => simpa [hl] using ih
    | some t => simpa [hl] using ih

/-- A source is read as a program exactly when its tokens are derived as one, and then the
program that is read is, without its spans, the one tree that is derived for them. -/
theorem ofTokens_exact (lexemes : List (Spanned Lexeme)) :
    ((∃ p, Program.ofTokens (meaningful lexemes) = .ok p) ↔
      ∃ tree, ProgramRule (spelled lexemes) tree) ∧
    ∀ p, Program.ofTokens (meaningful lexemes) = .ok p →
      ∀ tree, ProgramRule (spelled lexemes) tree ↔ tree = p.bare := by
  rw [← values_meaningful]
  have hread {p} (hp : Program.ofTokens (meaningful lexemes) = .ok p) :
      ProgramRule (values (meaningful lexemes)) p.bare := Reader.readProgram_sound hp
  refine ⟨⟨?_, ?_⟩, ?_⟩
  · rintro ⟨p, hp⟩
    exact ⟨p.bare, hread hp⟩
  · rintro ⟨tree, htree⟩
    obtain ⟨p, hp, _⟩ := Reader.readProgram_complete htree rfl
    exact ⟨p, hp⟩
  · intro p hp tree
    constructor
    · intro htree
      obtain ⟨q, hq, rfl⟩ := Reader.readProgram_complete htree rfl
      rw [Program.ofTokens, hq] at hp
      cases hp
      rfl
    · rintro rfl
      exact hread hp

/-- A source with semicolons in braces after some items and not after others. -/
def looseSemicolons : String :=
  "@X \x7b color: 'red'; prototype: 'p' \x7d;
   container 'C' as c \x7b
     agent 'A' as a is @X, @Y
     a is @Z;
     @Z \x7b \x7d
     'S' \x7b a -()-> a a --()--< a; \x7d
   \x7d;"

/-- It is a program of two statements, and it is no other program. -/
theorem ofTokens_exact_looseSemicolons :
    ∃ lexemes p, tokenize looseSemicolons = .ok lexemes ∧
      Program.ofTokens (meaningful lexemes) = .ok p ∧ p.length = 2 ∧
      ∀ tree, ProgramRule (spelled lexemes) tree ↔ tree = p.bare := by
  have hlexemes : (tokenize looseSemicolons).toOption.map (fun lexemes =>
      (Program.ofTokens (meaningful lexemes)).toOption.map List.length) = some (some 2) := by
    decide +kernel
  obtain ⟨lexemes, ht, hprogram⟩ := exists_ok_of_toOption hlexemes
  obtain ⟨p, hp, hlength⟩ := exists_ok_of_toOption hprogram
  exact ⟨lexemes, p, ht, hp, hlength, (ofTokens_exact lexemes).2 p hp⟩

end ArchScript
