import ShellGrammar.Node.Basic

/-! Questions about a tree.

All of them go over the tree in pre-order: a node, then its children from the
first to the last. `Node.walk` is that order with the depth of every node, and
can be told to stop below certain nodes. -/
namespace ShellGrammar.Node

mutual

/-- The nodes of a tree in pre-order, each with its depth; a node that passes `stop`
is listed without those below it. -/
def walk (stop : Node → Bool) (depth : Nat) : Node → List (Nat × Node)
  | n@(list body) | n@(doubleQuoted body) | n@(concat body) =>
    (depth, n) :: if stop n then [] else walkAll stop (depth + 1) body
  | n@(simpleCommand assigns body) =>
    (depth, n) ::
      if stop n then []
      else walkAll stop (depth + 1) assigns ++ walkAll stop (depth + 1) body
  | n@(pipelines body _) | n@(pipeline _ body) | n@(commandSubst _ body) | n@(processSubst _ body)
  | n@(arithExpansion body) | n@(parentheses body) | n@(paramDefault _ _ _ body)
  | n@(patternRemoval _ _ _ body) | n@(caseChange _ _ _ body) | n@(arrayElement _ _ body)
  | n@(unOp _ body) | n@(postOp _ body) =>
    (depth, n) :: if stop n then [] else walk stop (depth + 1) body
  | n@(andOr _ left right) | n@(pipe _ left right) | n@(binOp _ left right)
  | n@(substring _ _ left right) =>
    (depth, n) ::
      if stop n then [] else walk stop (depth + 1) left ++ walk stop (depth + 1) right
  | n@(assign _ value) => (depth, n) :: if stop n then [] else walkOpt stop (depth + 1) value
  | n@(patternReplacement _ _ _ pattern replace) =>
    (depth, n) ::
      if stop n then []
      else walk stop (depth + 1) pattern ++ walkOpt stop (depth + 1) replace
  | n@(ternary cond yes no) =>
    (depth, n) ::
      if stop n then []
      else walk stop (depth + 1) cond ++ walk stop (depth + 1) yes ++ walk stop (depth + 1) no
  | n => [(depth, n)]

def walkAll (stop : Node → Bool) (depth : Nat) : List Node → List (Nat × Node)
  | [] => []
  | n :: ns => walk stop depth n ++ walkAll stop depth ns

def walkOpt (stop : Node → Bool) (depth : Nat) : Option Node → List (Nat × Node)
  | none => []
  | some n => walk stop depth n

end

theorem walkAll_eq (stop : Node → Bool) (depth : Nat) (ns : List Node) :
    walkAll stop depth ns = ns.flatMap (walk stop depth) := by
  induction ns with
  | nil => rfl
  | cons n ns ih => simp [walkAll, ih]

theorem walkOpt_eq (stop : Node → Bool) (depth : Nat) (n : Option Node) :
    walkOpt stop depth n = n.toList.flatMap (walk stop depth) := by
  cases n <;> simp [walkOpt]

/-- A walk is the node itself, then the walks of its children. -/
theorem walk_eq (stop : Node → Bool) (depth : Nat) (n : Node) :
    walk stop depth n =
      (depth, n) :: if stop n then [] else n.children.flatMap (walk stop (depth + 1)) := by
  cases n <;> simp [walk, children, walkAll_eq, walkOpt_eq]

/-- The nodes of a tree in pre-order. -/
def preorder (n : Node) : List Node :=
  (walk (fun _ => false) 0 n).map (·.2)

/-! ### Commands -/

def isSimpleCommand : Node → Bool
  | simpleCommand .. => true
  | _ => false

/-- How many simple commands a tree holds, those in substitutions included. -/
def countSimpleCommands (n : Node) : Nat := n.preorder.countP isSimpleCommand

/-! ### Parameters -/

/-- The parameter that a node itself refers to. Setting a variable and matching names
by their start refer to none. -/
def parameterName? : Node → Option Text
  | simpleParam name | param _ name | paramLength _ name | paramDefault _ name _ _
  | substring _ name _ _ | patternRemoval _ name _ _ | patternReplacement _ name _ _ _
  | caseChange _ name _ _ | paramTransform _ name _ | arrayElement _ name _
  | arrayElements name _ | arrayKeys name _ | var name _ => some name
  | _ => none

/-- The parameters that a tree refers to, each once, in the order of their first
mention. -/
def parameterNames (n : Node) : List Text := (n.preorder.filterMap parameterName?).eraseDups

/-! ### Substitutions -/

def isSubstitution : Node → Bool
  | commandSubst .. | processSubst .. => true
  | _ => false

/-- Whether a tree holds a command or process substitution. Below one no other is looked for. -/
def hasSubstitutions (n : Node) : Bool := (walk isSubstitution 0 n).any (isSubstitution ·.2)

end ShellGrammar.Node
