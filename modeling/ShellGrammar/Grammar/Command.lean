import ShellGrammar.Grammar.Parameter

/-! Lists, chains, pipelines and simple commands. -/
namespace ShellGrammar.Grammar
open ParseM

/-- What ends an entry of a list. -/
def terminals : List Kind := [.semi, .newline, .amp]

/-- The head of an assignment, `name=`. -/
def assignHead : Pattern := .seq .variableName (.lit ['='])

variable (g : Grammar)

/-- An assignment, if one starts at the cursor. Its value has to touch the `=`. -/
def assignment? : ParseM (Option Node) := do
  match ← accept assignHead .assignHead with
  | none => return none
  | some t =>
    let value ← withRules .command false (word g)
    return some (.assign t.body.dropLast value)

/-- Assignments, then words, at least one of either. -/
def simpleCommand : ParseM Node := do
  let assigns ← gather (assignment? g) g.steps
  let body ← gather (word g) g.steps
  if assigns.isEmpty && body.isEmpty then
    fail .command
  return .simpleCommand assigns body

/-- An operator of the command grammar out of some kinds. Newlines may follow it. -/
def commandOperator (kinds : List Kind) : ParseM (Option Text) := do
  match ← next kinds with
  | none => return none
  | some op =>
    skipNewlines g.steps
    return some op.body

/-- Consumes a `!` that stands alone. One that touches the next piece is text. -/
def acceptBang : ParseM Bool := do
  match ← peek [.str] with
  | none => return false
  | some t =>
    if t.body = ['!'] then
      let _ ← next []
      if (← peekAdjacent (← pieceStartHere)).isSome then
        back
        return false
      return true
    return false

/-- Commands joined by pipes, perhaps negated. -/
def pipeline : ParseM Node := do
  let excl ← acceptBang
  let body ← chain g (simpleCommand g) (commandOperator g [.pipe, .pipeAmp])
    (fun _ => simpleCommand g) .pipe
  return .pipeline excl body

/-- Pipelines joined by `&&` and `||`. -/
def andOr : ParseM Node :=
  chain g (pipeline g) (commandOperator g [.andAnd, .orOr]) (fun _ => pipeline g) .andOr

/-- An entry of a list with what ends it. -/
def entry : ParseM Node := do
  let body ← andOr g
  let terminal ← next terminals
  return .pipelines body (terminal.map (·.body))

/-- Whether an entry has something that ends it. -/
def isTerminated : Node → Bool
  | .pipelines _ (some _) => true
  | _ => false

/-- Entries up to a closer, at most `bound` of them. All but the last are terminated;
newlines may stand before each and before the closer. -/
def entries (closer : Closer) : (bound : Nat) → ParseM (List Node)
  | 0 => breached .outOfSteps
  | bound + 1 => do
    skipNewlines g.steps
    if (← peek [closer.kind]).isSome then
      return []
    let first ← entry g
    if isTerminated first then
      return first :: (← entries closer bound)
    return [first]

/-- A list and its closer. -/
def list (closer : Closer) : ParseM Node := do
  let body ← entries g closer g.steps
  if (← next [closer.kind]).isNone then
    fail closer.expected
  return .list body

/-- The rest of a substitution: a list under the command rules. -/
def nestedListRest (closer : Closer) : ParseM Node :=
  inList closer (withRules .command true (list g closer))

end ShellGrammar.Grammar
