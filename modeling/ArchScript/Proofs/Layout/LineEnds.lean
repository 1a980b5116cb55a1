/-
  Windows line ends change nothing.

  A source with a carriage return before each line feed has the same tokens, and the same
  lexical faults in the same order (`Lexer.substance_scan`). So it has the same model or
  diagnostics that say the same, and this holds when only some of the lines end so
  (`compile_returns`).
-/
import ArchScript.Proofs.Layout.Sources
import ArchScript.Proofs.Lexing.Returns

namespace ArchScript

/-- The source with every line feed replaced by a carriage return and a line feed. -/
def windows (source : String) : String :=
  String.ofList (source.toList.flatMap fun c => if c = '\n' then ['\r', '\n'] else [c])

theorem withReturns_windows (source : String) :
    WithReturns source.toList (windows source).toList := by
  rw [windows, String.toList_ofList]
  induction source.toList with
  | nil => exact .nil
  | cons c cs ih =>
    rw [List.flatMap_cons]
    split
    · next hc =>
      subst hc
      exact ih.line
    · exact ih.keep c

/-- The code, message and help of a diagnostic. -/
def Diagnostic.words (d : Diagnostic) : Option ErrorCode × String × Option String :=
  (d.code, d.message, d.help)

/-- A lexical fault is described by its kind alone. -/
theorem words_lexicalFault (fs : List (Spanned LexicalFault)) :
    (fs.map LexicalFault.diagnostic).map Diagnostic.words =
      (fs.map Spanned.value).map fun x => (some x.code, x.code.description, x.help?) := by
  rw [List.map_map, List.map_map]
  rfl

theorem Diagnostic.SaysSame.words {d d' : Diagnostic} (h : d.SaysSame d') :
    d.words = d'.words := by
  unfold Diagnostic.words
  rw [h.code, h.message, h.help]

/-- Both sources have the same model, or both have diagnostics and these say the same one by
one. -/
def CompilesAlike (options : ElaborationOptions) (source source' : String) : Prop :=
  (∃ m, compile options source = .ok m ∧ compile options source' = .ok m) ∨
    ∃ ds ds', compile options source = .error ds ∧ compile options source' = .error ds' ∧
      ds.map Diagnostic.words = ds'.map Diagnostic.words

/-- Sources that are cut into the same tokens compile alike. -/
theorem compilesAlike_of_values (options : ElaborationOptions) {source source' : String}
    {lexemes lexemes' : List (Spanned Lexeme)} (h : tokenize source = .ok lexemes)
    (h' : tokenize source' = .ok lexemes')
    (hvalues : values (meaningful lexemes) = values (meaningful lexemes')) :
    CompilesAlike options source source' := by
  obtain hmodel | ⟨d, d', hd, hd', hsame⟩ := compile_alike options h h' hvalues
  · exact Or.inl hmodel
  · exact Or.inr ⟨[d], [d'], hd, hd', congrArg (fun x => [x]) hsame.words⟩

/-- Carriage returns may be put before line feeds, wherever these are. -/
theorem compile_returns (options : ElaborationOptions) {source source' : String}
    (h : WithReturns source.toList source'.toList) : CompilesAlike options source source' := by
  have hsubstance := Lexer.substance_scan 0 0 h
  have hfaults : (Lexer.faults (Lexer.scan 0 source'.toList)).map Spanned.value =
      (Lexer.faults (Lexer.scan 0 source.toList)).map Spanned.value := by
    rw [Lexer.values_faults, Lexer.values_faults, hsubstance]
  have htokens : values (meaningful (Lexer.lexemes (Lexer.scan 0 source'.toList))) =
      values (meaningful (Lexer.lexemes (Lexer.scan 0 source.toList))) := by
    rw [Lexer.values_lexemes, Lexer.values_lexemes, hsubstance]
  cases ht : tokenize source with
  | ok lexemes =>
    obtain ⟨hnone, rfl⟩ := tokenize_eq_ok_iff.1 ht
    rw [hnone, List.map_nil, List.map_eq_nil_iff] at hfaults
    have ht' := tokenize_eq_ok_iff.2 ⟨hfaults, rfl⟩
    exact compilesAlike_of_values options ht ht' htokens.symm
  | error fs =>
    obtain ⟨hsome, rfl⟩ := tokenize_eq_error_iff.1 ht
    have hsome' : Lexer.faults (Lexer.scan 0 source'.toList) ≠ [] := by
      intro hnil
      rw [hnil, List.map_nil, eq_comm, List.map_eq_nil_iff] at hfaults
      exact hsome hfaults
    have ht' := tokenize_eq_error_iff.2 ⟨hsome', rfl⟩
    refine Or.inr ⟨_, _, compile_eq_error_iff.2 (Or.inl ⟨_, ht, rfl⟩),
      compile_eq_error_iff.2 (Or.inl ⟨_, ht', rfl⟩), ?_⟩
    rw [words_lexicalFault, words_lexicalFault, hfaults]

/-- A source with Windows line ends has the same model, or it fails with diagnostics of the
same codes, messages and helps in the same order. -/
theorem compile_windows (options : ElaborationOptions) (source : String) :
    (∃ m, compile options source = .ok m ∧ compile options (windows source) = .ok m) ∨
    ∃ ds ds', compile options source = .error ds ∧
      compile options (windows source) = .error ds' ∧
      ds.map (fun d => (d.code, d.message, d.help)) =
        ds'.map fun d => (d.code, d.message, d.help) :=
  compile_returns options (withReturns_windows source)

/-- A text that is not closed and an escape that breaks off are found where they are, a comment
and a carriage return that was there before are skipped. -/
example : windows "'a\n'\\\nb // c\r\n" = "'a\r\n'\\\r\nb // c\r\r\n" ∧
    (match tokenize (windows "'a\n'\\\nb // c\r\n") with
      | .ok _ => []
      | .error fs => fs.map fun f => (f.value, f.span)) =
      [(.unterminatedText, .ofSize 0 2), (.invalidEscape, .ofSize 5 1)] := by decide +kernel

end ArchScript
