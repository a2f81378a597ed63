import ShellGrammar.Fault
import ShellGrammar.Lexer.Basic
import ShellGrammar.Node.Basic

/-! The setting in which productions of the grammar run.

A production reads tokens from the lexer and yields a node. Three things about it
are ambient: the rule sets in force, whether a backquote would close the list
under way, and how many levels of nesting are open. Whatever changes one of them
puts it back on every way out (`withRules`, `inList`, `nested`, `folding`).

The productions call each other in circles. Every circle goes through a level of
nesting that has read at least one character, so the productions a production
may call *one level further in* are given to it as a `Grammar`, and the circle is
closed by counting levels down. -/
namespace ShellGrammar

structure ParseState where
  lexer : Lexer
  /-- Whether the innermost open list was opened by a backquote, so that a backquote
  closes it. -/
  inBackquote : Bool
  /-- How many levels of nesting are open. -/
  depth : Nat

/-- A run of a parser. -/
abbrev ParseM := EStateM (Halt Fault) ParseState

/-- What ends a list of commands. -/
inductive Closer where
  | endOfSource
  | paren
  | backquote
deriving DecidableEq

namespace Closer

def kind : Closer → Kind
  | endOfSource => .eos
  | paren => .rparen
  | backquote => .backquote

/-- What is asked for when the closer is missing. -/
def expected : Closer → Expected
  | endOfSource => .endOfInput
  | paren => .closingParen
  | backquote => .closingBackquote

end Closer

/-- The productions one level further in. -/
structure Grammar where
  /-- Opens a level of nesting, or stops if none is left. -/
  descend : ParseM Unit
  /-- More than the number of characters left to read: a bound for every loop. -/
  steps : Nat
  /-- The rest of a double-quoted string. -/
  doubleQuoted : ParseM Node
  /-- The rest of `${…}`. -/
  parameter : ParseM Node
  /-- The rest of `$((…))`. -/
  arithExpansion : ParseM Node
  /-- The rest of a substitution. -/
  nestedList : Closer → ParseM Node
  /-- A full arithmetic expression. -/
  arith : ParseM Node
  assignment : ParseM Node
  ternary : ParseM Node
  /-- Binary operators from a row inward. -/
  binary : Nat → ParseM Node
  power : ParseM Node
  unary : ParseM Node

namespace ParseM

variable {α β : Type}

/-! ### Tokens -/

/-- Runs the lexer. -/
def lexing (act : LexM α) : ParseM α := fun ⟨lexer, inBackquote, depth⟩ =>
  match act lexer with
  | .ok a l => .ok a ⟨l, inBackquote, depth⟩
  | .error e l => .error (e.map .ofLexFault) ⟨l, inBackquote, depth⟩

def peekAny : ParseM Token := lexing LexM.peekAny

def peek (kinds : List Kind) : ParseM (Option Token) := lexing (LexM.peek kinds)

def next (kinds : List Kind) : ParseM (Option Token) := lexing (LexM.next kinds)

def peekAdjacent (kinds : List Kind) : ParseM (Option Token) := lexing (LexM.peekAdjacent kinds)

/-- The next token, which may have to touch what stands before it. -/
def look (adjacent : Bool) (kinds : List Kind) : ParseM (Option Token) :=
  if adjacent then peekAdjacent kinds else peek kinds

def back : ParseM Unit := lexing LexM.back

def accept (pattern : Pattern) (kind : Kind) : ParseM (Option Token) :=
  lexing (LexM.accept pattern kind)

/-- As `accept`, past blank even where the mode refuses it. -/
def acceptPastBlank (pattern : Pattern) (kind : Kind) : ParseM (Option Token) :=
  lexing (LexM.acceptWith pattern kind true)

/-- Consumes newlines, at most `bound` of them. -/
def skipNewlines : (bound : Nat) → ParseM Unit
  | 0 => breached .outOfSteps
  | bound + 1 => do
    match ← next [.newline] with
    | none => return
    | some _ => skipNewlines bound

/-! ### Faults -/

/-- What a message calls a token that was refused. Blank before it is mentioned when
the mode refuses it; before the end of the source it never matters. -/
def refused (t : Token) (allowBlank : Bool) : Text :=
  if t.kind = .eos || t.isAdjacent || allowBlank then t.describe
  else t.describe ++ " after blank".toList

/-- Fails at the token at the cursor, where something else was asked for. -/
def fail (expected : Expected) : ParseM α := do
  let t ← peekAny
  let allowBlank := (← get).lexer.mode.allowBlank
  throw (.fault (.atToken (.syntactic expected (refused t allowBlank)) t))

/-! ### Levels -/

/-- Opens a level, or does `refuse` if `limit` levels are open. A limit of zero allows
any number. -/
def descendOr (limit : Nat) (refuse : ParseM Unit) : ParseM Unit := do
  if limit ≠ 0 ∧ limit ≤ (← get).depth then
    refuse
  else
    modify fun s => { s with depth := s.depth + 1 }

/-- Fails at the token at the cursor, where no level is left. -/
def tooDeep (limit : Nat) : ParseM Unit := do
  let t ← peekAny
  throw (.fault (.atToken (.tooDeep limit) t))

/-- Opens a level, or fails at the token at the cursor if none is left. -/
def descend (limit : Nat) : ParseM Unit := descendOr limit (tooDeep limit)

/-- Closes a level. -/
def ascend : ParseM Unit := fun s =>
  match s.depth with
  | 0 => .error (.breach .noLevelToLeave) s
  | depth + 1 => .ok () { s with depth }

/-- Runs `act` one level further in. -/
def nested (descend : ParseM Unit) (act : ParseM α) : ParseM α := do
  descend
  ensuring act ascend

/-- Runs `act` and closes all the levels it left open. -/
def folding (act : ParseM α) : ParseM α := do
  let depth := (← get).depth
  ensuring act (modify fun s => { s with depth })

/-! ### Contexts -/

/-- Runs `act` under a rule set. -/
def withRules (rules : Rules) (allowBlank : Bool) (act : ParseM α) : ParseM α := do
  lexing (modify (Lexer.enter rules allowBlank))
  ensuring act (lexing LexM.leave)

/-- Runs `act` inside a list with the given closer. -/
def inList (closer : Closer) (act : ParseM α) : ParseM α := do
  let inBackquote := (← get).inBackquote
  modify fun s => { s with inBackquote := closer == .backquote }
  ensuring act (modify fun s => { s with inBackquote })

/-! ### Chains and alternatives -/

/-- Takes operators and operands for as long as there is an operator, at most `bound`
times, and joins them to the left. Every operator opens a level. -/
def chainRest (descend : ParseM Unit) (operator : ParseM (Option β)) (operand : β → ParseM Node)
    (join : β → Node → Node → Node) : (bound : Nat) → Node → ParseM Node
  | 0, _ => breached .outOfSteps
  | bound + 1, left => do
    match ← operator with
    | none => return left
    | some op =>
      descend
      let right ← operand op
      chainRest descend operator operand join bound (join op left right)

/-- Operands joined to the left by operators. The levels that the operators open are
closed when the chain ends. -/
def chain (g : Grammar) (first : ParseM Node) (operator : ParseM (Option β))
    (operand : β → ParseM Node) (join : β → Node → Node → Node) : ParseM Node :=
  folding do
    let left ← first
    chainRest g.descend operator operand join g.steps left

/-- The first alternative that yields something. -/
def firstOf : List (ParseM (Option α)) → ParseM (Option α)
  | [] => return none
  | alternative :: rest => do
    match ← alternative with
    | some a => return some a
    | none => firstOf rest

end ParseM

end ShellGrammar
