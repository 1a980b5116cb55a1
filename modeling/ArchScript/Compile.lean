/-
  Compiling a source: its letters, its grammar and its meaning, in this order.

  A later phase runs only when the earlier ones found nothing. Lexical faults are all
  reported; a syntax fault or a violation is the only one.
-/
import ArchScript.Elaboration
import ArchScript.Program.Parser
import ArchScript.Token.Lexer

namespace ArchScript

/-- The system model of a source, or the diagnostics that say why it has none. -/
def compile (options : ElaborationOptions) (source : String) :
    Except (List Diagnostic) SystemModel :=
  match tokenize source with
  | .error faults => .error (faults.map LexicalFault.diagnostic)
  | .ok lexemes =>
    match Program.parse lexemes with
    | .error diagnostic => .error [diagnostic]
    | .ok program =>
      match program.elaborate options with
      | .error violation => .error [violation.diagnostic]
      | .ok model => .ok model

end ArchScript
