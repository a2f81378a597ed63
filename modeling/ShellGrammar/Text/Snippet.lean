import ShellGrammar.Text.Span

/-! Snippets: a message above the line it is about, with carets under the place.

The carets start under the column of the message. There is one for each byte of
the span, but at least one, and none past the end of the line. -/
namespace ShellGrammar

structure Snippet where
  message : Text
  line : Nat
  col : Nat
  /-- The line that is shown. -/
  content : Text
  carets : Nat
deriving DecidableEq

namespace Snippet

/-- The snippet of a source at a line and a column. -/
def ofSource (source : Text) (span : Span) (line col : Nat) (message : Text) : Snippet :=
  let content := Text.line source line
  { message, line, col, content
    carets := max (min span.bytes (content.length - (col - 1))) 1 }

/-- The text of a snippet. Line numbers are padded to three places. -/
def render (s : Snippet) : Text :=
  "error: ".toList ++ s.message ++
    "\n  --> line ".toList ++ Text.ofNat s.line ++ ", column ".toList ++ Text.ofNat s.col ++
    "\n    |\n".toList ++ Text.padLeft 3 (Text.ofNat s.line) ++ " | ".toList ++ s.content ++
    "\n    | ".toList ++ List.replicate (s.col - 1) ' ' ++ List.replicate s.carets '^'

end Snippet

end ShellGrammar
