/-
  Layout and comments never matter.

  What is parsed from a source depends on its tokens alone (`Program.parse_eq`), and two sources
  with the same tokens are one source when every span is put at the start (`gathered_tokens`).
  A program or a fault there is that of either source, moved, and so is the outcome of its
  elaboration. So the two have one model, or diagnostics that say the same (`compile_layout`).
-/
import ArchScript.Proofs.Compile
import ArchScript.Proofs.Layout.Elaboration
import ArchScript.Proofs.Layout.Readers

namespace ArchScript

/-- Every token at the start of the source, in order. -/
def Embedding.gathered : Embedding where
  place _ := .zero
  place_union _ _ := rfl
  behind := []

theorem Embedding.gathered_tokens (ts : Tokens) :
    gathered.tokens ts = (values ts).map unplaced := by
  rw [tokens_of_behind rfl, values, List.map_map]
  rfl

/-- Two runs whose results and failures have the same image both succeed or both fail. -/
theorem alike_of_image_eq {ε φ α β : Type} {r r' : Except ε α} {g g' : α → β} {h h' : ε → φ}
    (heq : (r.map g).mapError h = (r'.map g').mapError h') :
    (∃ a a', r = .ok a ∧ r' = .ok a' ∧ g a = g' a') ∨
      ∃ x x', r = .error x ∧ r' = .error x' ∧ h x = h' x' := by
  cases r with
  | ok a =>
    cases r' with
    | ok a' => exact Or.inl ⟨a, a', rfl, rfl, Except.ok.inj heq⟩
    | error x' => cases heq
  | error x =>
    cases r' with
    | ok a' => cases heq
    | error x' => exact Or.inr ⟨x, x', rfl, rfl, Except.error.inj heq⟩

/-- Programs that are the same but for their spans have one model, or violations that say the
same. -/
theorem Program.elaborate_alike (options : ElaborationOptions) {f f' : Span → Span} {p p' : Program}
    (h : p.moved f = p'.moved f') :
    (∃ m, p.elaborate options = .ok m ∧ p'.elaborate options = .ok m) ∨
      ∃ w w', p.elaborate options = .error w ∧ p'.elaborate options = .error w' ∧
        w.diagnostic.SaysSame w'.diagnostic := by
  have helaborate : ((p.elaborate options).map id).mapError (Violation.moved f) =
      ((p'.elaborate options).map id).mapError (Violation.moved f') := by
    rw [Except.map_id, id, id, ← p.elaborate_moved, ← p'.elaborate_moved, h]
  obtain ⟨m, m', hm, hm', hmm'⟩ | ⟨w, w', hw, hw', hww'⟩ := alike_of_image_eq helaborate
  · obtain rfl : m = m' := hmm'
    exact Or.inl ⟨m, hm, hm'⟩
  · refine Or.inr ⟨w, w', hw, hw', (w.saysSame_moved f).trans ?_⟩
    rw [hww']
    exact (w'.saysSame_moved f').symm

/-- Two sources with the same tokens are programs that differ in their spans only, or have
faults that say the same. -/
theorem ofTokens_alike {ts ts' : Tokens} (h : values ts = values ts') :
    (∃ p p', Program.ofTokens ts = .ok p ∧ Program.ofTokens ts' = .ok p' ∧
      p.moved (fun _ => .zero) = p'.moved fun _ => .zero) ∨
    ∃ x x', Program.ofTokens ts = .error x ∧ Program.ofTokens ts' = .error x' ∧
      (x.diagnostic ts).SaysSame (x'.diagnostic ts') := by
  have hread := Embedding.readProgram_tokens (e := .gathered) rfl ts
  rw [Embedding.gathered_tokens, h, ← Embedding.gathered_tokens,
    Embedding.readProgram_tokens rfl ts'] at hread
  obtain ⟨p', p, hp', hp, hmoved⟩ | ⟨x', x, hx', hx, hxx'⟩ := alike_of_image_eq hread
  · exact Or.inl ⟨p, p', hp, hp', hmoved.symm⟩
  · refine Or.inr ⟨x, x', hx, hx', (x.saysSame_moved (fun _ => .zero) ts ts').trans ?_⟩
    have hmoved : x.moved (fun _ => .zero) = x'.moved fun _ => .zero := hxx'.symm
    rw [hmoved]
    exact (x'.saysSame_moved _ ts' ts').symm

/-- Two sources with the same tokens have one model, or one diagnostic each, and these say the
same. -/
theorem compile_alike (options : ElaborationOptions) {source source' : String}
    {lexemes lexemes' : List (Spanned Lexeme)} (h : tokenize source = .ok lexemes)
    (h' : tokenize source' = .ok lexemes')
    (hvalues : values (meaningful lexemes) = values (meaningful lexemes')) :
    (∃ m, compile options source = .ok m ∧ compile options source' = .ok m) ∨
    ∃ d d', compile options source = .error [d] ∧ compile options source' = .error [d'] ∧
      d.SaysSame d' := by
  obtain ⟨p, p', hp, hp', hmoved⟩ | ⟨x, x', hx, hx', hsame⟩ := ofTokens_alike hvalues
  · rw [compile_of_program h hp, compile_of_program h' hp']
    obtain ⟨m, hm, hm'⟩ | ⟨w, w', hw, hw', hsame⟩ := Program.elaborate_alike options hmoved
    · rw [hm, hm']
      exact Or.inl ⟨m, rfl, rfl⟩
    · rw [hw, hw']
      exact Or.inr ⟨w.diagnostic, w'.diagnostic, rfl, rfl, hsame⟩
  · refine Or.inr ⟨x.diagnostic _, x'.diagnostic _, ?_, ?_, hsame⟩
    · exact compile_eq_error_iff.2 (Or.inr (Or.inl ⟨lexemes, x, h, hx, rfl⟩))
    · exact compile_eq_error_iff.2 (Or.inr (Or.inl ⟨lexemes', x', h', hx', rfl⟩))

/-- Of two sources that are cut into the same tokens, whatever layout is between them and
wherever they stand, both have the same model, or both fail with one diagnostic each, of the
same code, message and help and with the same labels, their places apart. -/
theorem compile_layout (options : ElaborationOptions) {source source' : String}
    {lexemes lexemes' : List (Spanned Lexeme)} (h : tokenize source = .ok lexemes)
    (h' : tokenize source' = .ok lexemes')
    (hvalues : values (meaningful lexemes) = values (meaningful lexemes')) :
    (∃ m, compile options source = .ok m ∧ compile options source' = .ok m) ∨
    ∃ d d', compile options source = .error [d] ∧ compile options source' = .error [d'] ∧
      d.code = d'.code ∧ d.message = d'.message ∧ d.help = d'.help ∧
      d.labels.map (fun l => (l.message, l.isPrimary)) =
        d'.labels.map fun l => (l.message, l.isPrimary) := by
  obtain hmodel | ⟨d, d', hd, hd', hsame⟩ := compile_alike options h h' hvalues
  · exact Or.inl hmodel
  · exact Or.inr ⟨d, d', hd, hd', hsame.code, hsame.message, hsame.help, hsame.labels⟩

/-- A response on one line. -/
def tight : String := "user 'U' as u;'s'\x7bu--()--<u\x7d;"

/-- The same response, spread over lines and with comments. -/
def spread : String :=
  "// a user\nuser 'U' as u; // and what it says\n\t's' \x7b\n " ++
    "u -- ( ) --< u // no request\n\x7d;\n"

/-- Both sources fail for the missing request, with the same words and in other places. -/
theorem compile_layout_spread :
    ∃ d d', compile .default tight = .error [d] ∧ compile .default spread = .error [d'] ∧
      d.code = some .missingRequest ∧ d.code = d'.code ∧ d.message = d'.message ∧
      d.primarySpan? ≠ d'.primarySpan? := by
  let words : List Token := [.keyword .user, .text "U", .keyword .as, .identifier "u",
    .sign .semicolon, .text "s", .sign .leftBrace, .identifier "u", .sign .doubleDash,
    .sign .leftParen, .sign .rightParen, .sign .responseArrow, .identifier "u", .sign .rightBrace,
    .sign .semicolon]
  have htight : (tokenize tight).toOption.map (fun ls => values (meaningful ls)) =
      some words := by decide +kernel
  have hspread : (tokenize spread).toOption.map (fun ls => values (meaningful ls)) =
      some words := by decide +kernel
  obtain ⟨ls, h, hvalues⟩ := exists_ok_of_toOption htight
  obtain ⟨ls', h', hvalues'⟩ := exists_ok_of_toOption hspread
  obtain ⟨_, hfault, hseen⟩ := exists_error_of_seen (r := compile .default tight)
    (f := List.map fun d => (d.code, d.primarySpan?))
    (b := [(some .missingRequest, some (.ofSize 18 9))]) (by decide +kernel)
  obtain ⟨_, hfault', hseen'⟩ := exists_error_of_seen (r := compile .default spread)
    (f := List.map Diagnostic.primarySpan?) (b := [some (.ofSize 53 14)]) (by decide +kernel)
  obtain ⟨m, hm, _⟩ | ⟨d, d', hd, hd', hcode, hmessage, _⟩ :=
    compile_layout .default h h' (hvalues.trans hvalues'.symm)
  · rw [hm] at hfault
    cases hfault
  · obtain rfl := Except.error.inj (hd.symm.trans hfault)
    obtain rfl := Except.error.inj (hd'.symm.trans hfault')
    obtain ⟨hd₁, hd₂⟩ := Prod.mk.inj (List.head_eq_of_cons_eq hseen)
    refine ⟨d, d', hd, hd', hd₁, hcode, hmessage, ?_⟩
    rw [hd₂, List.head_eq_of_cons_eq hseen']
    decide

end ArchScript
