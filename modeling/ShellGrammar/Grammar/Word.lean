import ShellGrammar.Grammar.Arithmetic

/-! Words and their pieces.

Pieces that touch make up one word. Inside a list that was opened by a backquote,
a backquote starts no piece, since it closes the list. -/
namespace ShellGrammar.Grammar
open ParseM

/-- What a piece of a word can start with. -/
def pieceStart (inBackquote : Bool) : List Kind :=
  [.str, .singleQuote, .doubleQuote, .dollarName, .dollarBrace, .dollarParen, .dollarParen2] ++
    (if inBackquote then [] else [.backquote]) ++ [.inParen, .outParen]

/-- What a piece can start with where the parser is. -/
def pieceStartHere : ParseM (List Kind) :=
  return pieceStart (← get).inBackquote

/-- A text without its first and last characters. -/
def between (t : Text) : Text := (t.drop 1).dropLast

variable (g : Grammar)

/-- One piece of a word, if one starts at the cursor. An `adjacent` piece has to
touch what stands before it. -/
def piece (adjacent : Bool) : ParseM (Option Node) := do
  let kinds ← pieceStartHere
  match ← look adjacent kinds with
  | none => return none
  | some t =>
    let _ ← next []
    match t.kind with
    | .str => return some (.str t.body)
    | .singleQuote => return some (.singleQuoted (between t.body))
    | .dollarName => return some (.simpleParam (withoutDollar t.body))
    | .doubleQuote => return some (← nested g.descend g.doubleQuoted)
    | .dollarBrace => return some (← nested g.descend g.parameter)
    | .dollarParen2 => return some (← nested g.descend g.arithExpansion)
    | .dollarParen =>
      return some (.commandSubst t.body (← nested g.descend (g.nestedList .paren)))
    | .backquote =>
      return some (.commandSubst t.body (← nested g.descend (g.nestedList .backquote)))
    | .inParen | .outParen =>
      return some (.processSubst (t.body.takeWhile (· != '('))
        (← nested g.descend (g.nestedList .paren)))
    | _ =>
      back
      return none

/-- One word, if one starts at the cursor. -/
def word : ParseM (Option Node) := do
  match ← piece g false with
  | none => return none
  | some first =>
    let rest ← gather (piece g true) g.steps
    return some (if rest.isEmpty then first else .concat (first :: rest))

/-- A word under a rule set, or the empty node where none is written. -/
def payload (rules : Rules) : ParseM Node :=
  return (← withRules rules true (word g)).getD .empty

/-- A piece of a double-quoted string, or nothing at the closing quote, which is
consumed. -/
def quotedPiece : ParseM (Option Node) := do
  if (← next [.doubleQuote]).isSome then
    return none
  match ← piece g false with
  | some p => return some p
  | none => fail .closingQuote

/-- The rest of a double-quoted string after its opening quote. -/
def doubleQuotedRest : ParseM Node :=
  withRules .doubleQuote true do
    return .doubleQuoted (← gather (quotedPiece g) g.steps)

/-- The rest of an arithmetic expansion after its `$((`. -/
def arithExpansionRest : ParseM Node := do
  let body ← withRules .arith true do
    let body ← expression g
    if (← accept (.lit [')', ')']) .rparen).isNone then
      fail .closingArith
    return body
  return .arithExpansion body

end ShellGrammar.Grammar
