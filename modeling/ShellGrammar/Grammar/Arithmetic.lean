import ShellGrammar.Grammar.Basic

/-! Arithmetic expressions.

From the loosest to the tightest: the comma, assignments, the ternary, ten rows of
binary operators, `**`, the operators written in front, the operators written
behind, and primaries. The binary rows are climbed: an operator of a row takes as
its right side everything from the rows past its own, so that operators of one
row join to the left. Whoever calls sees to it that the arithmetic rules are in
force. -/
namespace ShellGrammar.Grammar
open ParseM

/-- The binary operators that join to the left, loosest row first. -/
def binaryRows : List (List Kind) := [
  [.orOr],
  [.andAnd],
  [.pipe],
  [.caret],
  [.amp],
  [.eqEq, .notEq],
  [.lt, .le, .gt, .ge],
  [.shl, .shr],
  [.plus, .minus],
  [.star, .slash, .percent]]

/-- The row of a binary operator. -/
def rowOf? (kind : Kind) : Option Nat :=
  binaryRows.findIdx? (·.contains kind)

def assignmentOps : List Kind := [
  .assign, .mulAssign, .divAssign, .modAssign, .addAssign, .subAssign, .shlAssign, .shrAssign,
  .andAssign, .xorAssign, .orAssign]

/-- The operators written in front of their operand. -/
def frontOps : List Kind := [.bang, .tilde, .minus, .plus, .inc, .dec]

/-- The operators written behind their operand. -/
def behindOps : List Kind := [.inc, .dec]

/-- What a primary can start with. -/
def primaryStart : List Kind := [
  .number, .ident, .dollarName, .lparen, .dollarBrace, .dollarParen2, .dollarParen]

/-- A name without the `$` in front. -/
def withoutDollar : Text → Text
  | '$' :: t => t
  | t => t

variable (g : Grammar)

def primary : ParseM Node := do
  match ← next primaryStart with
  | none => fail .expression
  | some t =>
    match t.kind with
    | .number => return .number t.body
    | .ident => return .var t.body false
    | .dollarName => return .var (withoutDollar t.body) true
    | .lparen =>
      nested g.descend do
        let body ← g.arith
        if (← next [.rparen]).isNone then
          fail .closingParen
        return .parentheses body
    | .dollarBrace => nested g.descend g.parameter
    | .dollarParen2 => nested g.descend g.arithExpansion
    | .dollarParen => return .commandSubst t.body (← nested g.descend (g.nestedList .paren))
    | _ =>
      back
      fail .expression

/-- A primary, perhaps with an operator behind it. -/
def postOperand : ParseM Node := do
  let operand ← primary g
  match ← next behindOps with
  | some op => return .postOp op.body operand
  | none => return operand

def unaryOperand : ParseM Node := do
  match ← next frontOps with
  | some op => return .unOp op.body (← nested g.descend g.unary)
  | none => postOperand g

/-- Powers, joined to the right: `a ** b ** c` is `a ** (b ** c)`. -/
def powerOperand : ParseM Node := do
  let base ← unaryOperand g
  match ← next [.starStar] with
  | some op => return .binOp op.body base (← nested g.descend g.power)
  | none => return base

/-- The binary operator at the cursor, with its row, if the row is `min` or tighter. -/
def binaryOperator (min : Nat) : ParseM (Option (Nat × Text)) := do
  match ← peek [] with
  | none => return none
  | some t =>
    match rowOf? t.kind with
    | none => return none
    | some row =>
      if row < min then return none
      else return (← next []).map fun op => (row, op.body)

/-- Operators from row `min` inward. -/
def binaryOperand (min : Nat) : ParseM Node :=
  chain g (powerOperand g) (binaryOperator min) (fun op => g.binary (op.1 + 1))
    (fun op left right => .binOp op.2 left right)

def ternaryOperand : ParseM Node := do
  let cond ← binaryOperand g 0
  if (← next [.question]).isNone then
    return cond
  let yes ← nested g.descend g.arith
  if (← next [.colon]).isNone then
    fail .colon
  let no ← nested g.descend g.ternary
  return .ternary cond yes no

/-- An assignment, joined to the right; anything else is a ternary. -/
def assignmentOperand : ParseM Node := do
  match ← next [.ident] with
  | none => ternaryOperand g
  | some name =>
    match ← next assignmentOps with
    | some op =>
      let value ← nested g.descend g.assignment
      return .binOp op.body (.var name.body false) value
    | none =>
      back
      ternaryOperand g

/-- A full expression: assignments joined by commas. -/
def expression : ParseM Node :=
  chain g (assignmentOperand g) (do return (← next [.comma]).map (·.body))
    (fun _ => assignmentOperand g) .binOp

end ShellGrammar.Grammar
