import ShellGrammar.Parse

/-! Arithmetic with one function for each level of precedence.

The comma, assignments, the ternary, the ten rows of binary operators, `**`, operators in
front and operators behind a primary are sixteen levels. In the grammar proper the ten rows
are climbed by one loop. Here each row has a loop of its own: a row reads the next row, and
as long as an operator of its own follows, another one, which it joins to the left.

`ternaryOver`, `assignmentOver` and `expressionOver` are the three levels above the rows,
over whatever stands below them, so that the grammar proper and the layered one differ in
the rows alone. -/
namespace ShellGrammar.Grammar
open ParseM

/-- The text of the operator at the cursor, if it is of some kinds. -/
def operatorAmong (kinds : List Kind) : ParseM (Option Text) := do
  return (← next kinds).map (·.body)

variable (g : Grammar)

/-- Rows of binary operators that join to the left, the loosest first. Behind the last of
them stand the powers. -/
def rowOperand : List (List Kind) → ParseM Node
  | [] => powerOperand g
  | kinds :: tighter =>
    chain g (rowOperand tighter) (operatorAmong kinds) (fun _ => rowOperand tighter) .binOp

/-- A ternary whose condition is read by `binary`. -/
def ternaryOver (binary : ParseM Node) : ParseM Node := do
  let cond ← binary
  if (← next [.question]).isNone then
    return cond
  let yes ← nested g.descend g.arith
  if (← next [.colon]).isNone then
    fail .colon
  let no ← nested g.descend g.ternary
  return .ternary cond yes no

/-- An assignment, or what `ternary` reads. -/
def assignmentOver (ternary : ParseM Node) : ParseM Node := do
  match ← next [.ident] with
  | none => ternary
  | some name =>
    match ← next assignmentOps with
    | some op =>
      let value ← nested g.descend g.assignment
      return .binOp op.body (.var name.body false) value
    | none =>
      back
      ternary

/-- What `assignment` reads, joined by commas. -/
def expressionOver (assignment : ParseM Node) : ParseM Node :=
  chain g assignment (operatorAmong [.comma]) (fun _ => assignment) .binOp

theorem ternaryOperand_eq_over : ternaryOperand g = ternaryOver g (binaryOperand g 0) := rfl

theorem assignmentOperand_eq_over :
    assignmentOperand g = assignmentOver g (ternaryOperand g) := rfl

theorem expression_eq_over : expression g = expressionOver g (assignmentOperand g) := rfl

/-! ### The layered grammar -/

def layeredTernary : ParseM Node := ternaryOver g (rowOperand g binaryRows)

def layeredAssignment : ParseM Node := assignmentOver g (layeredTernary g)

/-- A full expression. -/
def layeredExpression : ParseM Node := expressionOver g (layeredAssignment g)

/-- The productions that may nest `n` levels deep, with arithmetic in layers. Expansions
inside an expression are read as they are elsewhere. -/
def layered (descend : ParseM Unit) : (n : Nat) → Grammar
  | 0 => level descend 0
  | n + 1 =>
    let g := layered descend n
    { level descend (n + 1) with
      arith := layeredExpression g
      assignment := layeredAssignment g
      ternary := layeredTernary g
      binary := fun min => rowOperand g (binaryRows.drop min)
      power := powerOperand g
      unary := unaryOperand g }

end ShellGrammar.Grammar
