import ShellGrammar.Proofs.Tree.Written

/-! Printing a tree.

A tree as text that a reader might have written: one space between the words of a command and on
both sides of an operator, nothing between pieces of a word and inside the delimiters of a list, and
one space between the tokens of an arithmetic expression. What blank and which newlines stood in the
source is forgotten. -/
namespace ShellGrammar

/-- What ends an entry, with the space behind it. Behind a newline there is none. -/
def printedTerminal : Option Text → Text
  | none => []
  | some t => if t = ['\n'] then t else t ++ [' ']

/-- An expansion, with what stands behind the name in it. -/
def printedBraces (ref : Bool) (name inner : Text) : Text :=
  ['$', '{'] ++ (bangMark ref ++ (name ++ (inner ++ ['}'])))

mutual

/-- A tree as text. A length that was not written stands in the tree as `Node.empty`, and neither it
nor the colon in front of it is printed. -/
@[simp] def Node.printed : Node → Text
  | .list body | .concat body => Node.printedAll body
  | .pipelines body terminal => body.printed ++ printedTerminal terminal
  | .andOr op left right | .pipe op left right | .binOp op left right =>
    left.printed ++ ([' '] ++ (op ++ ([' '] ++ right.printed)))
  | .pipeline excl body => (if excl then ['!', ' '] else []) ++ body.printed
  | .simpleCommand assigns body =>
    (Node.printedApart assigns ++ Node.printedApart body).tail
  | .assign name value => name ++ (['='] ++ Node.printedOpt value)
  | .str body => body
  | .singleQuoted body => ['\''] ++ (body ++ ['\''])
  | .doubleQuoted body => ['"'] ++ (Node.printedAll body ++ ['"'])
  | .simpleParam name => ['$'] ++ name
  | .param ref name => printedBraces ref name []
  | .paramLength ref name => ['$', '{', '#'] ++ (bangMark ref ++ (name ++ ['}']))
  | .paramDefault ref name op value => printedBraces ref name (op ++ value.printed)
  | .substring ref name offset length =>
    printedBraces ref name ([':', ' '] ++ (offset.printed ++
      (if length = .empty then [] else [' ', ':', ' '] ++ length.printed)))
  | .patternRemoval ref name mode pattern | .caseChange ref name mode pattern =>
    printedBraces ref name (mode ++ pattern.printed)
  | .patternReplacement ref name mode pattern replace =>
    printedBraces ref name (mode ++ (pattern.printed ++
      ((if replace.isSome then ['/'] else []) ++ Node.printedOpt replace)))
  | .namesStarting stem mode => printedBraces true stem mode
  | .paramTransform ref name op => printedBraces ref name (['@'] ++ op)
  | .arrayElements array mode => printedBraces false array (['['] ++ (mode ++ [']']))
  | .arrayKeys array mode => printedBraces true array (['['] ++ (mode ++ [']']))
  | .arrayElement ref name subscript =>
    printedBraces ref name (['[', ' '] ++ (subscript.printed ++ [' ', ']']))
  | .commandSubst style body =>
    style ++ (body.printed ++ (if style = ['`'] then ['`'] else [')']))
  | .processSubst direction body => direction ++ (['('] ++ (body.printed ++ [')']))
  | .arithExpansion body => ['$', '(', '('] ++ (body.printed ++ [')', ')'])
  | .number value => value
  | .var name dollar => (if dollar then ['$'] else []) ++ name
  | .unOp op operand => op ++ ([' '] ++ operand.printed)
  | .postOp op operand => operand.printed ++ ([' '] ++ op)
  | .ternary cond yes no =>
    cond.printed ++ ([' ', '?', ' '] ++ (yes.printed ++
      ([' ', ':', ' '] ++ no.printed)))
  | .parentheses body => ['(', ' '] ++ (body.printed ++ [' ', ')'])
  | .empty => []

/-- Nodes with nothing between them. -/
@[simp] def Node.printedAll : List Node → Text
  | [] => []
  | a :: as => a.printed ++ Node.printedAll as

/-- Nodes with a space in front of each. -/
@[simp] def Node.printedApart : List Node → Text
  | [] => []
  | a :: as => [' '] ++ (a.printed ++ Node.printedApart as)

@[simp] def Node.printedOpt : Option Node → Text
  | none => []
  | some a => a.printed

end

@[simp] theorem Node.printedAll_singleton (n : Node) :
    Node.printedAll [n] = n.printed := by
  rw [Node.printedAll, Node.printedAll, List.append_nil]

end ShellGrammar
