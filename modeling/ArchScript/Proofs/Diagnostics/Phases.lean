/-
  The phases of a compilation do not mix.

  A source is judged by its letters, then by its grammar, then by its meaning; it reaches the
  first phase that refuses it, or the last (`Reaches`). `compile_phases` says that this phase
  alone is heard: a source has a model or diagnostics of the one phase that it reaches, all
  of them in source order for its letters, and a single one for the others.
-/
import ArchScript.Proofs.Grammar.Exact
import ArchScript.Proofs.Lexing.Faults

namespace ArchScript

open Grammar

/-! ## Phases -/

/-- What a source is judged by, in this order. -/
inductive Phase where
  | letters
  | grammar
  | meaning
deriving DecidableEq

/-- The codes that a phase reports. -/
def Phase.codes : Phase → List ErrorCode
  | letters => [.unterminatedText, .unexpectedCharacter, .invalidEscape]
  | grammar => [.unexpectedToken, .incompleteInput]
  | meaning =>
    [.undefinedIdentifier, .invalidEndpoint, .missingRequest, .notAnActor, .duplicateDefinition]

/-- The diagnostic has a code of this phase and of no other, and of its labels the first
alone is primary. -/
def Diagnostic.OfPhase (phase : Phase) (d : Diagnostic) : Prop :=
  (∃ code, d.code = some code ∧ ∀ other : Phase, code ∈ other.codes ↔ other = phase) ∧
    ∃ first others, d.labels = first :: others ∧ first.isPrimary = true ∧
      ∀ l ∈ others, l.isPrimary = false

theorem LexicalFault.ofPhase (f : Spanned LexicalFault) :
    (LexicalFault.diagnostic f).OfPhase .letters := by
  refine ⟨⟨f.value.code, rfl, fun other => ?_⟩, _, [], rfl, rfl, nofun⟩
  cases f.value <;> cases other <;> decide

theorem SyntaxFault.ofPhase (all : Tokens) (f : SyntaxFault) :
    (f.diagnostic all).OfPhase .grammar := by
  unfold diagnostic syntaxDiagnostic
  split
  · refine ⟨⟨.unexpectedToken, rfl, fun other => ?_⟩, _, [], rfl, rfl, nofun⟩
    cases other <;> decide
  · refine ⟨⟨.incompleteInput, rfl, fun other => ?_⟩, _, [], rfl, rfl, nofun⟩
    cases other <;> decide

theorem Violation.ofPhase (w : Violation) : w.diagnostic.OfPhase .meaning := by
  refine ⟨⟨w.code, rfl, fun other => ?_⟩, _, w.secondary, rfl, rfl, ?_⟩
  · cases w <;> cases other <;> simp [code, Phase.codes]
  · cases w <;> simp [secondary]

/-! ## What a source reaches -/

/-- The source is cut up into lexemes, and `ws` are the tokens among them. -/
def HasTokens (source : String) (ws : List Token) : Prop :=
  ∃ ps, Greedy source.toList ps ∧ (∀ p ∈ ps, p.lexeme.Unbroken) ∧
    ws = ps.filterMap fun p => p.lexeme.token?

/-- The first phase that refuses the source, or else the last. -/
def Reaches (source : String) : Phase → Prop
  | .letters => ¬ ∃ ws, HasTokens source ws
  | .grammar => ∃ ws, HasTokens source ws ∧ ¬ ∃ tree, ProgramRule ws tree
  | .meaning => ∃ ws tree, HasTokens source ws ∧ ProgramRule ws tree

variable {source : String} {lexemes : List (Spanned Lexeme)}

theorem spelled_placed (pos : Nat) (ps : List Piece) :
    spelled (placed pos ps) = ps.filterMap fun p => p.lexeme.token? := by
  induction ps generalizing pos with
  | nil => rfl
  | cons p ps ih =>
    unfold spelled at ih ⊢
    rw [placed, List.filterMap_cons, List.filterMap_cons, ih]

theorem hasTokens_iff {ws : List Token} :
    HasTokens source ws ↔ ∃ lexemes, tokenize source = .ok lexemes ∧ spelled lexemes = ws := by
  simp only [tokenize_eq_ok_iff_greedy]
  constructor
  · rintro ⟨ps, hps, hall, rfl⟩
    exact ⟨_, ⟨ps, hps, hall, rfl⟩, spelled_placed 0 ps⟩
  · rintro ⟨_, ⟨ps, hps, hall, rfl⟩, rfl⟩
    exact ⟨ps, hps, hall, spelled_placed 0 ps⟩

theorem HasTokens.unique {us ws : List Token} (hu : HasTokens source us)
    (hw : HasTokens source ws) : us = ws := by
  obtain ⟨ls, hls, rfl⟩ := hasTokens_iff.1 hu
  obtain ⟨ls', hls', rfl⟩ := hasTokens_iff.1 hw
  rw [hls] at hls'
  cases hls'
  rfl

/-- A source reaches one phase only. -/
theorem Reaches.unique {a b : Phase} (ha : Reaches source a) (hb : Reaches source b) : a = b := by
  cases a with
  | letters =>
    cases b with
    | letters => rfl
    | grammar =>
      obtain ⟨ws, hws, _⟩ := hb
      exact absurd ⟨ws, hws⟩ ha
    | meaning =>
      obtain ⟨ws, _, hws, _⟩ := hb
      exact absurd ⟨ws, hws⟩ ha
  | grammar =>
    obtain ⟨ws, hws, hnone⟩ := ha
    cases b with
    | letters => exact absurd ⟨ws, hws⟩ hb
    | grammar => rfl
    | meaning =>
      obtain ⟨us, tree, hus, htree⟩ := hb
      exact absurd ⟨tree, hus.unique hws ▸ htree⟩ hnone
  | meaning =>
    obtain ⟨ws, tree, hws, htree⟩ := ha
    cases b with
    | letters => exact absurd ⟨ws, hws⟩ hb
    | grammar =>
      obtain ⟨us, hus, hnone⟩ := hb
      exact absurd ⟨tree, hws.unique hus ▸ htree⟩ hnone
    | meaning => rfl

theorem reaches_letters {fs : List (Spanned LexicalFault)} (h : tokenize source = .error fs) :
    Reaches source .letters := by
  rintro ⟨ws, hws⟩
  obtain ⟨ls, hls, _⟩ := hasTokens_iff.1 hws
  rw [h] at hls
  cases hls

theorem reaches_grammar (ht : tokenize source = .ok lexemes) {f : SyntaxFault}
    (hf : Program.ofTokens (meaningful lexemes) = .error f) : Reaches source .grammar := by
  refine ⟨spelled lexemes, hasTokens_iff.2 ⟨lexemes, ht, rfl⟩, ?_⟩
  rintro ⟨tree, htree⟩
  rw [← values_meaningful] at htree
  obtain ⟨p, hp, _⟩ := Reader.readProgram_complete htree rfl
  rw [Program.ofTokens, hp] at hf
  cases hf

theorem reaches_meaning (ht : tokenize source = .ok lexemes) {p : Program}
    (hp : Program.ofTokens (meaningful lexemes) = .ok p) : Reaches source .meaning := by
  have htree := Reader.readProgram_sound hp
  rw [values_meaningful] at htree
  exact ⟨spelled lexemes, p.bare, hasTokens_iff.2 ⟨lexemes, ht, rfl⟩, htree⟩

/-! ## Compilations -/

theorem primarySpans_lexical (fs : List (Spanned LexicalFault)) :
    (fs.map LexicalFault.diagnostic).filterMap Diagnostic.primarySpan? = fs.map Spanned.span := by
  induction fs with
  | nil => rfl
  | cons f fs ih =>
    rw [List.map_cons, List.map_cons, ← ih]
    rfl

/-- The faults of a source are apart and in its order. -/
theorem pairwise_spans_of_tokenize {fs : List (Spanned LexicalFault)}
    (h : tokenize source = .error fs) :
    (fs.map Spanned.span).Pairwise fun s t => s.stop ≤ t.start ∧ s.start < t.start := by
  obtain ⟨_, rfl⟩ := tokenize_eq_error_iff.1 h
  rw [List.pairwise_map]
  refine (Lexer.pairwise_faults 0 source.toList).imp_of_mem fun {f g} hf _ hfg => ?_
  have hwithin := (Lexer.faultIn_of_mem_faults 0 source.toList f hf).within
  exact ⟨hfg, hwithin.2.1.trans_le hfg⟩

/-- A source reaches one phase. It has a model, or it has diagnostics and all are of the phase
that it reaches; if it is refused for its letters, their primary spans are apart and in the
order of the source, and otherwise there is one diagnostic. -/
theorem compile_phases (options : ElaborationOptions) (source : String) :
    ∃ phase, (∀ other, Reaches source other ↔ other = phase) ∧
      ((phase = .meaning ∧ ∃ m, compile options source = .ok m) ∨
        ∃ ds, compile options source = .error ds ∧ ds ≠ [] ∧ (∀ d ∈ ds, d.OfPhase phase) ∧
          (phase = .letters → (ds.filterMap Diagnostic.primarySpan?).Pairwise fun s t =>
            s.stop ≤ t.start ∧ s.start < t.start) ∧
          (phase ≠ .letters → ∃ d, ds = [d])) := by
  have hreached {phase : Phase} (h : Reaches source phase) (other : Phase) :
      Reaches source other ↔ other = phase :=
    ⟨fun hother => hother.unique h, fun heq => heq ▸ h⟩
  cases hc : compile options source with
  | ok m =>
    obtain ⟨lexemes, p, ht, hp, _⟩ := compile_eq_ok_iff.1 hc
    exact ⟨.meaning, hreached (reaches_meaning ht hp), Or.inl ⟨rfl, m, rfl⟩⟩
  | error ds =>
    rcases compile_eq_error_iff.1 hc with ⟨fs, ht, rfl⟩ | ⟨lexemes, f, ht, hf, rfl⟩ |
      ⟨lexemes, p, w, ht, hp, _, rfl⟩
    · refine ⟨.letters, hreached (reaches_letters ht), Or.inr ⟨_, rfl, ?_, ?_, fun _ => ?_, ?_⟩⟩
      · exact mt List.map_eq_nil_iff.1 (tokenize_eq_error_iff.1 ht).1
      · exact List.forall_mem_map.2 fun f _ => LexicalFault.ofPhase f
      · rw [primarySpans_lexical]
        exact pairwise_spans_of_tokenize ht
      · exact fun hne => absurd rfl hne
    · exact ⟨.grammar, hreached (reaches_grammar ht hf), Or.inr ⟨_, rfl, List.cons_ne_nil _ _,
        List.forall_mem_singleton.2 (SyntaxFault.ofPhase _ f), nofun, fun _ => ⟨_, rfl⟩⟩⟩
    · exact ⟨.meaning, hreached (reaches_meaning ht hp), Or.inr ⟨_, rfl, List.cons_ne_nil _ _,
        List.forall_mem_singleton.2 (Violation.ofPhase w), nofun, fun _ => ⟨_, rfl⟩⟩⟩

/-- Three mistakes in letters around a name that is no statement. -/
def strayLetters : String := "€ a '\\x' 'b"

/-- Only the letters are heard of, in order. -/
theorem compile_phases_strayLetters :
    Reaches strayLetters .letters ∧ ∃ ds, compile .default strayLetters = .error ds ∧
      ds.length = 3 ∧ (∀ d ∈ ds, d.OfPhase .letters) ∧
      (ds.filterMap Diagnostic.primarySpan?).Pairwise fun s t =>
        s.stop ≤ t.start ∧ s.start < t.start := by
  have hfaults : tokenize strayLetters = .error [⟨.unexpectedCharacter, .ofSize 0 1⟩,
      ⟨.invalidEscape, .ofSize 7 1⟩, ⟨.unterminatedText, .ofSize 11 2⟩] :=
    tokenize_eq_error_iff.2 ⟨nofun, by decide +kernel⟩
  have hcompile : compile .default strayLetters = .error _ :=
    compile_eq_error_iff.2 (Or.inl ⟨_, hfaults, rfl⟩)
  have hletters := reaches_letters hfaults
  obtain ⟨phase, hphase, ⟨_, m, hm⟩ | ⟨ds, hds, _, hall, hspans, _⟩⟩ :=
    compile_phases .default strayLetters
  · rw [hcompile] at hm
    cases hm
  · obtain rfl : Phase.letters = phase := (hphase .letters).1 hletters
    rw [hcompile] at hds
    cases hds
    exact ⟨hletters, _, hcompile, rfl, hall, hspans rfl⟩

end ArchScript
