/-! The kinds of tokens.

Operators that the command grammar and arithmetic share have one kind: `|` is
both a pipe and a bitwise or, `&` both a background mark and a bitwise and. Which
of the two is meant depends on the rule set in force. -/
namespace ShellGrammar

inductive Kind where
  -- Words and what opens them
  /-- Bare text. -/
  | str
  /-- A whole single-quoted string with its quotes. -/
  | singleQuote
  /-- The `"` that opens or closes a double-quoted string. -/
  | doubleQuote
  /-- A parameter behind a `$`: a name, one digit, or a glyph such as `?`. -/
  | dollarName
  | dollarBrace
  | dollarParen
  | dollarParen2
  | backquote
  | inParen
  | outParen
  -- Control operators
  | newline
  | semi
  | amp
  | andAnd
  | orOr
  | pipe
  | pipeAmp
  | lparen
  | rparen
  -- Parameter expansion
  /-- A parameter's name, or the glyph of a special one. -/
  | name
  | bracketAt
  | bracketStar
  | lbracket
  | rbracket
  | rbrace
  | slash
  /-- Any other character inside an expansion. -/
  | glyph
  | sharp
  | bang
  /-- Operator text that was asked for by a pattern. -/
  | op
  /-- The head of an assignment, `name=`. -/
  | assignHead
  -- Arithmetic
  | number
  | ident
  | comma
  | assign
  | mulAssign
  | divAssign
  | modAssign
  | addAssign
  | subAssign
  | shlAssign
  | shrAssign
  | andAssign
  | xorAssign
  | orAssign
  | question
  | colon
  | caret
  | eqEq
  | notEq
  | le
  | ge
  | lt
  | gt
  | shl
  | shr
  | plus
  | minus
  | star
  | percent
  | starStar
  | tilde
  | inc
  | dec
  /-- The end of the source. -/
  | eos
deriving DecidableEq

namespace Kind

/-- The name under which a kind is shown. -/
def label : Kind → String
  | str => "Str"
  | singleQuote => "SQuote"
  | doubleQuote => "DQuote"
  | dollarName => "DollarName"
  | dollarBrace => "DollarBrace"
  | dollarParen => "DollarParen"
  | dollarParen2 => "DollarParen2"
  | backquote => "BQuote"
  | inParen => "InParen"
  | outParen => "OutParen"
  | newline => "Newline"
  | semi => "Semi"
  | amp => "Amp"
  | andAnd => "AndAnd"
  | orOr => "OrOr"
  | pipe => "Pipe"
  | pipeAmp => "PipeAmp"
  | lparen => "LParen"
  | rparen => "RParen"
  | name => "Name"
  | bracketAt => "BracketAt"
  | bracketStar => "BracketStar"
  | lbracket => "LBracket"
  | rbracket => "RBracket"
  | rbrace => "RBrace"
  | slash => "Slash"
  | glyph => "Glyph"
  | sharp => "Sharp"
  | bang => "Bang"
  | op => "Op"
  | assignHead => "AssignHead"
  | number => "Number"
  | ident => "Ident"
  | comma => "Comma"
  | assign => "Assign"
  | mulAssign => "MulAssign"
  | divAssign => "DivAssign"
  | modAssign => "ModAssign"
  | addAssign => "AddAssign"
  | subAssign => "SubAssign"
  | shlAssign => "ShlAssign"
  | shrAssign => "ShrAssign"
  | andAssign => "AndAssign"
  | xorAssign => "XorAssign"
  | orAssign => "OrAssign"
  | question => "Question"
  | colon => "Colon"
  | caret => "Caret"
  | eqEq => "EqEq"
  | notEq => "NotEq"
  | le => "Le"
  | ge => "Ge"
  | lt => "Lt"
  | gt => "Gt"
  | shl => "Shl"
  | shr => "Shr"
  | plus => "Plus"
  | minus => "Minus"
  | star => "Star"
  | percent => "Percent"
  | starStar => "StarStar"
  | tilde => "Tilde"
  | inc => "Inc"
  | dec => "Dec"
  | eos => "Eos"

/-- Every kind, in the order of declaration. -/
def all : List Kind := [
  str, singleQuote, doubleQuote, dollarName, dollarBrace, dollarParen, dollarParen2, backquote,
  inParen, outParen, newline, semi, amp, andAnd, orOr, pipe, pipeAmp, lparen, rparen, name,
  bracketAt, bracketStar, lbracket, rbracket, rbrace, slash, glyph, sharp, bang, op, assignHead,
  number, ident, comma, assign, mulAssign, divAssign, modAssign, addAssign, subAssign, shlAssign,
  shrAssign, andAssign, xorAssign, orAssign, question, colon, caret, eqEq, notEq, le, ge, lt, gt,
  shl, shr, plus, minus, star, percent, starStar, tilde, inc, dec, eos]

/-- The kind that is shown under a name. -/
def ofLabel? (s : String) : Option Kind :=
  all.find? (·.label == s)

end Kind

end ShellGrammar
