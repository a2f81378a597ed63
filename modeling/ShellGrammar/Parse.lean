import ShellGrammar.Grammar.Command

/-! Parsing a script.

`Grammar.level` closes the circle of productions: the productions of a level may
call those of the level below, and those of level zero are never reached, because
a script has fewer levels of nesting than characters. -/
namespace ShellGrammar

/-- The productions that may nest `n` levels deep, where `descend` opens a level. -/
def Grammar.level (descend : ParseM Unit) : (n : Nat) → Grammar
  | 0 =>
    { descend, steps := 0
      doubleQuoted := breached .outOfSteps
      parameter := breached .outOfSteps
      arithExpansion := breached .outOfSteps
      nestedList := fun _ => breached .outOfSteps
      arith := breached .outOfSteps
      assignment := breached .outOfSteps
      ternary := breached .outOfSteps
      binary := fun _ => breached .outOfSteps
      power := breached .outOfSteps
      unary := breached .outOfSteps }
  | n + 1 =>
    let g := level descend n
    { descend, steps := n + 1
      doubleQuoted := doubleQuotedRest g
      parameter := parameterRest g
      arithExpansion := arithExpansionRest g
      nestedList := nestedListRest g
      arith := expression g
      assignment := assignmentOperand g
      ternary := ternaryOperand g
      binary := binaryOperand g
      power := powerOperand g
      unary := unaryOperand g }

structure Options where
  /-- How deep substitutions, expansions, arithmetic groups and chains of operators
  may nest; zero allows any depth. -/
  maxDepth : Nat := 64
deriving DecidableEq

namespace ParseState

/-- At the start of a script. -/
def ofText (source : Text) : ParseState := ⟨.ofText source, false, 0⟩

end ParseState

/-- Parses a script with productions that may nest `levels` deep, and keeps the
state in which parsing ended. -/
def runLevels (levels : Nat) (options : Options) (source : Text) :
    EStateM.Result (Halt Fault) ParseState Node :=
  Grammar.list (Grammar.level (ParseM.descend options.maxDepth) levels) .endOfSource (.ofText source)

/-- Parses a script and keeps the state in which parsing ended. Every level of
nesting reads a character, so one level more than there are characters is enough. -/
def run (options : Options) (source : Text) : EStateM.Result (Halt Fault) ParseState Node :=
  runLevels (source.length + 1) options source

/-- The tree of a script. -/
def parse (options : Options) (source : Text) : Except (Halt Fault) Node :=
  match run options source with
  | .ok n _ => .ok n
  | .error e _ => .error e

/-- The events of a parse, in order. -/
def trace (options : Options) (source : Text) : List Event :=
  .parsing (Text.bytes source) ::
    match run options source with
    | .ok n s => s.lexer.log.reverse ++ [.parsed n.children.length]
    | .error _ s => s.lexer.log.reverse

end ShellGrammar
