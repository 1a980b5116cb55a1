import ArchScript.CommandLine
import ArchScript.Compile
import ArchScript.Diagnostic
import ArchScript.Document
import ArchScript.Document.Json
import ArchScript.Document.Toml
import ArchScript.Document.Toml.Token
import ArchScript.Document.Toml.Tree
import ArchScript.Elaboration
import ArchScript.Export
import ArchScript.Failure
import ArchScript.Files.Disk
import ArchScript.Files.Path
import ArchScript.Files.Store
import ArchScript.Main
import ArchScript.Model.Entity
import ArchScript.Model.Kind
import ArchScript.Model.System
import ArchScript.Program
import ArchScript.Program.Fault
import ArchScript.Program.Parser
import ArchScript.Program.Parser.Combinators
import ArchScript.Program.Reader
import ArchScript.Program.Reader.Block
import ArchScript.Program.Reader.Clause
import ArchScript.Program.Reader.Flat
import ArchScript.Proofs.Checking.Exact
import ArchScript.Proofs.Checking.Rules
import ArchScript.Proofs.Checking.Sources
import ArchScript.Proofs.Compile
import ArchScript.Proofs.Containment.Forest
import ArchScript.Proofs.Containment.History
import ArchScript.Proofs.Containment.Model
import ArchScript.Proofs.Containment.Nesting
import ArchScript.Proofs.Containment.Places
import ArchScript.Proofs.Containment.Records
import ArchScript.Proofs.Elaboration.Entities
import ArchScript.Proofs.Elaboration.Perform
import ArchScript.Proofs.Elaboration.Walk
import ArchScript.Proofs.Names.Program
import ArchScript.Proofs.Names.Words
import ArchScript.Proofs.Table
import ArchScript.Report
import ArchScript.Run
import ArchScript.Run.Steps
import ArchScript.Scope
import ArchScript.Settings
import ArchScript.Span
import ArchScript.Table
import ArchScript.Text.Blank
import ArchScript.Text.Bytes
import ArchScript.Token
import ArchScript.Token.Lexer
import ArchScript.Violation
import ArchScript.Proofs.Grammar.Rules
import ArchScript.Proofs.Grammar.Sound
import ArchScript.Proofs.Grammar.Complete
import ArchScript.Proofs.Grammar.Exact
import ArchScript.Proofs.Relationships.Mentions
import ArchScript.Proofs.Relationships.Statements
import ArchScript.Proofs.Relationships.Exact
import ArchScript.Proofs.Checking.Guards
import ArchScript.Proofs.Checking.Policies
import ArchScript.Proofs.Lookup
import ArchScript.Proofs.Relationships.Types
import ArchScript.Proofs.Relationships.References
import ArchScript.Proofs.Lexing.Spelling
import ArchScript.Proofs.Lexing.Longest
import ArchScript.Proofs.Lexing.Greedy
import ArchScript.Proofs.Checking.Reach
import ArchScript.Proofs.Declarations.Last
import ArchScript.Proofs.Declarations.Final
import ArchScript.Proofs.Names.Order
import ArchScript.Proofs.Declarations.Distinct
import ArchScript.Proofs.Checking.Missing
import ArchScript.Proofs.Grammar.Agenda
import ArchScript.Proofs.Grammar.Stops
import ArchScript.Proofs.Grammar.Tracks
import ArchScript.Proofs.Grammar.Faults
import ArchScript.Proofs.Grammar.Viable
import ArchScript.Proofs.Lexing.Faults
import ArchScript.Proofs.Diagnostics.Places
import ArchScript.Proofs.Diagnostics.Slices
import ArchScript.Proofs.Diagnostics.Phases
import ArchScript.Proofs.Containment.Flat
import ArchScript.Proofs.Export.Cancel
import ArchScript.Proofs.Export.Injective
import ArchScript.Proofs.Grammar.Equations
import ArchScript.Proofs.Layout.Moved
import ArchScript.Proofs.Layout.Elaboration
import ArchScript.Proofs.Layout.Embedding
import ArchScript.Proofs.Layout.Readers
import ArchScript.Proofs.Layout.Sources
import ArchScript.Proofs.Concatenation.Lexemes
import ArchScript.Proofs.Concatenation.Scopes
import ArchScript.Proofs.Concatenation.Sources
import ArchScript.Proofs.Export.Spacing
import ArchScript.Proofs.Precedence
import ArchScript.Proofs.Files.Writing
import ArchScript.Proofs.Run.Atomic
import ArchScript.Proofs.Renaming.Ids
import ArchScript.Proofs.Renaming.Trees
import ArchScript.Proofs.Renaming.Elaboration
import ArchScript.Proofs.Equality
import ArchScript.Proofs.Declarations.Anywhere
import ArchScript.Proofs.Lexing.Literals
import ArchScript.Proofs.Lexing.Lines
import ArchScript.Proofs.Lexing.Recovery
import ArchScript.Proofs.Relationships.Unambiguous
import ArchScript.Proofs.Lexing.Returns
import ArchScript.Proofs.Layout.LineEnds
import ArchScript.Proofs.Lexing.Slice
import ArchScript.Proofs.Diagnostics.Quotes
import ArchScript.Proofs.Lexing.Lookahead
import ArchScript.Proofs.Spans.Phrases
import ArchScript.Proofs.Spans.Readers
import ArchScript.Proofs.Spans.Faithful
import ArchScript.Proofs.Run.Deciding
import ArchScript.Proofs.Lexing.Progress
import ArchScript.Proofs.Parser.Agreement
import ArchScript.Proofs.Parser.Forms
import ArchScript.Proofs.Parser.Programs
