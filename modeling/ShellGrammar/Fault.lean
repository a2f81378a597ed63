import ShellGrammar.Rules.Cut
import ShellGrammar.Text.Snippet

/-! What can be wrong with a script.

A fault is a cause and a place. The place is where the offending text starts and
stops; the wording of the cause is kept out of the cause itself. -/
namespace ShellGrammar

/-- What the grammar asks for at a place where something else was found. -/
inductive Expected where
  | command
  | endOfInput
  | closingParen
  | closingBackquote
  | closingQuote
  | closingArith
  | closingBrace
  | closingBracket
  | parameterName
  /-- Matching names by their start needs a `!` in front. -/
  | bangBeforeMatch
  /-- Only the start of a variable's name can be matched. -/
  | variableBeforeMatch
  | expression
  | colon
deriving DecidableEq

namespace Expected

def text : Expected → Text
  | command => "command".toList
  | endOfInput => "end of input".toList
  | closingParen => "`)`".toList
  | closingBackquote => "`` ` ``".toList
  | closingQuote => "`\"`".toList
  | closingArith => "`))`".toList
  | closingBrace => "`\x7d`".toList
  | closingBracket => "`]`".toList
  | parameterName => "parameter name".toList
  | bangBeforeMatch => "`!` before prefix match".toList
  | variableBeforeMatch => "variable name before prefix match".toList
  | expression => "expression".toList
  | colon => "`:`".toList

end Expected

inductive Cause where
  /-- A character that starts no token. -/
  | lexical (found : Char)
  /-- Something else than what the grammar asks for. -/
  | syntactic (expected : Expected) (found : Text)
  /-- More levels of nesting than are allowed. -/
  | tooDeep (limit : Nat)
deriving DecidableEq

structure Fault where
  cause : Cause
  start : Position
  stop : Position
deriving DecidableEq

namespace Fault

/-- A lexical fault among the faults of a script. -/
def ofLexFault (f : LexFault) : Fault := ⟨.lexical f.found, f.start, f.stop⟩

/-- A fault at a token. -/
def atToken (cause : Cause) (t : Token) : Fault := ⟨cause, t.start, t.stop⟩

def span (f : Fault) : Span := ⟨f.start.offset, f.stop.offset⟩

def isLexical (f : Fault) : Bool :=
  match f.cause with
  | .lexical _ => true
  | _ => false

/-- The message, for a source known by a label. -/
def message (label : String) (f : Fault) : Text :=
  match f.cause with
  | .lexical found => "lexical error: ".toList ++ LexFault.message label ⟨found, f.start⟩
  | .syntactic expected found =>
    place ++ "expected ".toList ++ expected.text ++ ", found ".toList ++ found
  | .tooDeep limit => place ++ "nesting exceeds ".toList ++ Text.ofNat limit ++ " levels".toList
where
  /-- The label, line and column. -/
  place : Text :=
    label.toList ++ ':' :: Text.ofNat f.start.line ++ ':' :: Text.ofNat f.start.col ++ ": ".toList

/-- The message above the line of the source it is about. -/
def snippet (label : String) (source : Text) (f : Fault) : Snippet :=
  .ofSource source f.span f.start.line f.start.col (f.message label)

end Fault

end ShellGrammar
