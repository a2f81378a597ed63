import ShellGrammar.Pattern
import ShellGrammar.Text.Space
import ShellGrammar.Token.Kind

/-! Rule sets: the ordered tables that say what the tokens of a context are.

Rules are tried in order and the first that takes something wins. So longer
operators stand before the shorter ones they start with, and bare text stands
last, made of everything that opens or ends nothing in its context. -/
namespace ShellGrammar

/-- The lexical contexts of a script. -/
inductive Rules where
  /-- Command lists: words, quotes, control operators. -/
  | command
  /-- Between `${` and its brace. -/
  | param
  /-- Between `$((` and `))`, in subscripts and in substring offsets. -/
  | arith
  /-- Between double quotes. -/
  | doubleQuote
  /-- A word inside an expansion that ends at the closing brace. -/
  | wordUntilBrace
  /-- A word inside an expansion that ends at a slash or the closing brace. -/
  | wordUntilSlash
deriving DecidableEq

structure Rule where
  pattern : Pattern
  kind : Kind

structure RuleSet where
  /-- What may be skipped before a token. Without it blanks are text. -/
  blank : Option Pattern
  /-- Whether `#` can start a comment. -/
  comments : Bool
  rules : List Rule

namespace Rules

/-- The name under which a rule set is shown. -/
def name : Rules → String
  | command => "command"
  | param => "param"
  | arith => "arith"
  | doubleQuote => "double-quote"
  | wordUntilBrace => "word-until-brace"
  | wordUntilSlash => "word-until-slash"

def all : List Rules := [command, param, arith, doubleQuote, wordUntilBrace, wordUntilSlash]

/-- The rule set that is shown under a name. -/
def ofName? (s : String) : Option Rules :=
  all.find? (·.name == s)

/-! ### Parts that several tables share -/

/-- Blanks out of a list, and escaped newlines. -/
def blankOf (cs : Text) : Pattern :=
  .some1 (.alt (.oneOf cs) (.lit ['\\', '\n']))

/-- A `#` and the rest of its line. -/
def comment : Pattern :=
  .seq (.lit ['#']) (.many (.noneOf ['\n']))

/-- The glyphs of the special parameters. -/
def specialGlyphs : Text := ['-', '*', '@', '#', '?', '$', '!']

/-- A `$` with the parameter it names. -/
def dollarName : Pattern :=
  .seq (.lit ['$']) (.alt .variableName (.alt .digit (.oneOf specialGlyphs)))

/-- What starts with a `$` and opens or names an expansion. -/
def expansions : List Rule := [
  ⟨.lit ['$', '(', '('], .dollarParen2⟩,
  ⟨.lit ['$', '('], .dollarParen⟩,
  ⟨.lit ['$', '{'], .dollarBrace⟩,
  ⟨dollarName, .dollarName⟩]

/-- A single-quoted string with its quotes. -/
def singleQuoted : Rule :=
  ⟨.seq (.lit ['\'']) (.seq (.many (.noneOf ['\''])) (.lit ['\''])), .singleQuote⟩

/-- Text up to one of the characters in `stops`. -/
def textUntil (stops : Text) : Rule :=
  ⟨.run fun c => !stops.contains c, .str⟩

/-- A `$` that opens and names nothing is text. -/
def loneDollar : Rule := ⟨.lit ['$'], .str⟩

/-! ### The tables -/

/-- The characters besides white space that end bare text among commands. -/
def commandStops : Text := ['|', '&', ';', '(', ')', '<', '>', '$', '`', '\'', '"']

def commandRules : List Rule := [
    ⟨.lit ['\n'], .newline⟩,
    ⟨.lit [';'], .semi⟩,
    ⟨.lit ['&', '&'], .andAnd⟩,
    ⟨.lit ['|', '|'], .orOr⟩,
    ⟨.lit ['|', '&'], .pipeAmp⟩,
    ⟨.lit ['|'], .pipe⟩,
    ⟨.lit ['&'], .amp⟩] ++
  expansions ++ [
    singleQuoted,
    ⟨.lit ['"'], .doubleQuote⟩,
    ⟨.lit ['`'], .backquote⟩,
    ⟨.lit ['<', '('], .inParen⟩,
    ⟨.lit ['>', '('], .outParen⟩,
    ⟨.lit ['('], .lparen⟩,
    ⟨.lit [')'], .rparen⟩,
    ⟨.run fun c => !Text.isSpace c && !commandStops.contains c, .str⟩,
    loneDollar]

def paramRules : List Rule := [
  ⟨.alt (.some1 .digit) (.alt .variableName (.oneOf specialGlyphs)), .name⟩,
  ⟨.lit ['[', '@', ']'], .bracketAt⟩,
  ⟨.lit ['[', '*', ']'], .bracketStar⟩,
  ⟨.lit ['['], .lbracket⟩,
  ⟨.lit ['}'], .rbrace⟩,
  ⟨.any, .glyph⟩]

def isHexDigit (c : Char) : Bool :=
  c.isDigit || ('a' ≤ c && c ≤ 'f') || ('A' ≤ c && c ≤ 'F')

/-- A digit of a number in a base up to 64. -/
def isBaseDigit (c : Char) : Bool :=
  c.isAlphanum || c == '@' || c == '_'

/-- Hexadecimal, `base#digits`, or plain digits. -/
def numberLiteral : Pattern :=
  .alt (.seq (.lit ['0']) (.seq (.oneOf ['x', 'X']) (.some1 (.one isHexDigit))))
    (.alt (.seq (.some1 .digit) (.seq (.lit ['#']) (.some1 (.one isBaseDigit))))
      (.some1 .digit))

def arithRules : List Rule := [
    ⟨numberLiteral, .number⟩,
    ⟨.variableName, .ident⟩] ++
  expansions ++ [
    ⟨.lit ['<', '<', '='], .shlAssign⟩,
    ⟨.lit ['>', '>', '='], .shrAssign⟩,
    ⟨.lit ['*', '*'], .starStar⟩,
    ⟨.lit ['+', '+'], .inc⟩,
    ⟨.lit ['-', '-'], .dec⟩,
    ⟨.lit ['<', '<'], .shl⟩,
    ⟨.lit ['>', '>'], .shr⟩,
    ⟨.lit ['<', '='], .le⟩,
    ⟨.lit ['>', '='], .ge⟩,
    ⟨.lit ['=', '='], .eqEq⟩,
    ⟨.lit ['!', '='], .notEq⟩,
    ⟨.lit ['&', '&'], .andAnd⟩,
    ⟨.lit ['|', '|'], .orOr⟩,
    ⟨.lit ['*', '='], .mulAssign⟩,
    ⟨.lit ['/', '='], .divAssign⟩,
    ⟨.lit ['%', '='], .modAssign⟩,
    ⟨.lit ['+', '='], .addAssign⟩,
    ⟨.lit ['-', '='], .subAssign⟩,
    ⟨.lit ['&', '='], .andAssign⟩,
    ⟨.lit ['^', '='], .xorAssign⟩,
    ⟨.lit ['|', '='], .orAssign⟩,
    ⟨.lit ['='], .assign⟩,
    ⟨.lit ['?'], .question⟩,
    ⟨.lit [':'], .colon⟩,
    ⟨.lit [','], .comma⟩,
    ⟨.lit ['|'], .pipe⟩,
    ⟨.lit ['^'], .caret⟩,
    ⟨.lit ['&'], .amp⟩,
    ⟨.lit ['<'], .lt⟩,
    ⟨.lit ['>'], .gt⟩,
    ⟨.lit ['+'], .plus⟩,
    ⟨.lit ['-'], .minus⟩,
    ⟨.lit ['*'], .star⟩,
    ⟨.lit ['/'], .slash⟩,
    ⟨.lit ['%'], .percent⟩,
    ⟨.lit ['!'], .bang⟩,
    ⟨.lit ['~'], .tilde⟩,
    ⟨.lit ['('], .lparen⟩,
    ⟨.lit [')'], .rparen⟩,
    ⟨.lit [']'], .rbracket⟩,
    ⟨.lit ['}'], .rbrace⟩]

def doubleQuoteRules : List Rule :=
  expansions ++ [
    ⟨.lit ['`'], .backquote⟩,
    ⟨.lit ['"'], .doubleQuote⟩,
    textUntil ['"', '$', '`'],
    loneDollar]

def wordUntilBraceRules : List Rule :=
  expansions ++ [
    ⟨.lit ['`'], .backquote⟩,
    singleQuoted,
    ⟨.lit ['"'], .doubleQuote⟩,
    ⟨.lit ['}'], .rbrace⟩,
    textUntil ['}', '$', '`', '\'', '"'],
    loneDollar]

def wordUntilSlashRules : List Rule :=
  expansions ++ [
    ⟨.lit ['`'], .backquote⟩,
    singleQuoted,
    ⟨.lit ['"'], .doubleQuote⟩,
    ⟨.lit ['/'], .slash⟩,
    ⟨.lit ['}'], .rbrace⟩,
    textUntil ['/', '}', '$', '`', '\'', '"'],
    loneDollar]

/-- The table of a context. -/
def set : Rules → RuleSet
  | command => ⟨some (blankOf [' ', '\t']), true, commandRules⟩
  | param => ⟨some (blankOf [' ', '\t']), false, paramRules⟩
  | arith => ⟨some (blankOf [' ', '\t', '\n']), false, arithRules⟩
  | doubleQuote => ⟨none, false, doubleQuoteRules⟩
  | wordUntilBrace => ⟨none, false, wordUntilBraceRules⟩
  | wordUntilSlash => ⟨none, false, wordUntilSlashRules⟩

end Rules

end ShellGrammar
