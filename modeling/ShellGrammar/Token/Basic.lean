import ShellGrammar.Text.Position
import ShellGrammar.Text.Quoted
import ShellGrammar.Text.Span
import ShellGrammar.Token.Kind

/-! Tokens.

A token remembers where reading it began (`origin`), the blank skipped in front of
it and its own text; where its text starts and stops follows from these. Blank is
kept because it decides where words end: pieces of a word touch. -/
namespace ShellGrammar

structure Token where
  kind : Kind
  /-- Before the blank, where the token can be read again under other rules. -/
  origin : Scan
  /-- The blanks, line continuations and comment in front of the token. -/
  blank : Text
  body : Text
deriving DecidableEq

namespace Token

/-- Where the token's own text starts. -/
def start (t : Token) : Position := t.origin.pos.advance t.blank

/-- Where the token's own text stops. -/
def stop (t : Token) : Position := t.start.advance t.body

/-- The bytes of the token's own text. -/
def span (t : Token) : Span := ⟨t.start.offset, t.stop.offset⟩

/-- The scan past the token. -/
def after (t : Token) : Scan := t.origin.forward (t.blank.length + t.body.length)

/-- Whether the token touches what stands before it. -/
def isAdjacent (t : Token) : Bool := t.blank.isEmpty

/-- Whether a token is one of the kinds asked for, where asking for none is asking
for any, and its blank is allowed. -/
def isVisible (t : Token) (kinds : List Kind) (allowBlank : Bool) : Bool :=
  (kinds.isEmpty || kinds.contains t.kind) && (allowBlank || t.isAdjacent)

/-- What messages call a token. -/
def describe (t : Token) : Text :=
  match t.kind with
  | .eos => "end of input".toList
  | .newline => "newline".toList
  | _ => '`' :: (t.body ++ ['`'])

/-- A token on one line: its place, kind and quoted text. -/
def display (t : Token) : Text :=
  Text.ofNat t.start.line ++ ':' :: Text.ofNat t.start.col ++ ": ".toList ++
    t.kind.label.toList ++ ' ' :: Text.Quoted.ofText t.body

end Token

end ShellGrammar
