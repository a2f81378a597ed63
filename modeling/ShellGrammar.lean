import ShellGrammar.Json.Span
import ShellGrammar.Lexer.Session
import ShellGrammar.Node.Generic
import ShellGrammar.Node.Query
import ShellGrammar.Parse
import ShellGrammar.Proofs.Comments
import ShellGrammar.Proofs.Contract
import ShellGrammar.Proofs.Lexer.Moves
import ShellGrammar.Proofs.Limit
import ShellGrammar.Proofs.Lines
import ShellGrammar.Proofs.Rows
import ShellGrammar.Proofs.Tree.Need
import ShellGrammar.Proofs.Tree.Written
import ShellGrammar.Proofs.Embedded
import ShellGrammar.Proofs.Ambient
import ShellGrammar.Proofs.Drive
import ShellGrammar.Proofs.Progress
import ShellGrammar.Proofs.Operands
import ShellGrammar.Proofs.Nested
import ShellGrammar.Proofs.Lexer.Marks
import ShellGrammar.Proofs.Tree.Ways
import ShellGrammar.Proofs.Faults
import ShellGrammar.Proofs.Ranked
import ShellGrammar.Proofs.Queries
import ShellGrammar.Proofs.Text.Escaped
import ShellGrammar.Proofs.Tree.Renderings
import ShellGrammar.Proofs.Trace
import ShellGrammar.Proofs.Rules.Longest
import ShellGrammar.Proofs.Reblank
import ShellGrammar.Proofs.Rules.Refused
import ShellGrammar.Proofs.Variants
import ShellGrammar.Proofs.Backquotes
import ShellGrammar.Proofs.Words
import ShellGrammar.Proofs.Log.Splice
import ShellGrammar.Proofs.Snippets
import ShellGrammar.Proofs.Names
import ShellGrammar.Proofs.Separators
import ShellGrammar.Proofs.RoundTrip
