import ShellGrammar.Grammar.Command
import ShellGrammar.Node.Query
import ShellGrammar.Proofs.Tree.Written

/-! The contract of a tree.

Every form of node says what may stand in each of its fields. `Node.Proper` is that for one
node, about the node and those right below it, and a tree keeps its contract if all of its
nodes do (`Node.Contract`).

What may stand in a field is a class of forms. None of the classes holds the empty node, so
that it stands only where a field allows it by name. -/
namespace ShellGrammar.Node

/-! ### Classes of forms -/

def isList : Node → Bool
  | list _ => true
  | _ => false

/-- An entry of a list. -/
def isEntry : Node → Bool
  | pipelines .. => true
  | _ => false

def isPipeline : Node → Bool
  | pipeline .. => true
  | _ => false

/-- Pipelines joined by `&&` and `||`, or one alone. -/
def isAndOrChain : Node → Bool
  | andOr .. | pipeline .. => true
  | _ => false

/-- Commands joined by pipes, or one alone. -/
def isPipeChain : Node → Bool
  | pipe .. | simpleCommand .. => true
  | _ => false

def isAssign : Node → Bool
  | assign .. => true
  | _ => false

/-- What `${…}` can be. -/
def isParameter : Node → Bool
  | param .. | paramLength .. | paramDefault .. | substring .. | patternRemoval ..
  | patternReplacement .. | caseChange .. | namesStarting .. | paramTransform ..
  | arrayElements .. | arrayKeys .. | arrayElement .. => true
  | _ => false

/-- A piece of a double-quoted string: bare text and expansions. -/
def isQuotable : Node → Bool
  | str _ | simpleParam _ | arithExpansion _ | commandSubst .. => true
  | n => n.isParameter

/-- A piece of a word inside an expansion. -/
def isInnerPiece : Node → Bool
  | singleQuoted _ | doubleQuoted _ => true
  | n => n.isQuotable

/-- A piece of a word. -/
def isPiece : Node → Bool
  | processSubst .. => true
  | n => n.isInnerPiece

/-- A word out of some kind of pieces. -/
def isWordOf (isPiece : Node → Bool) : Node → Bool
  | concat body => body.all isPiece
  | n => isPiece n

/-- Part of an arithmetic expression. -/
def isExpression : Node → Bool
  | number _ | var .. | binOp .. | unOp .. | postOp .. | ternary .. | parentheses _
  | arithExpansion _ | commandSubst .. => true
  | n => n.isParameter

/-- A word inside an expansion, or nothing where none was written. -/
def isPayload (n : Node) : Bool := n == empty || n.isWordOf isInnerPiece

/-! ### One node -/

/-- The text starts like an assignment: with the name of a variable and a `=`. -/
def StartsAssignment (t : Text) : Prop :=
  ∃ name rest, Text.isVariableName name = true ∧ t = name ++ '=' :: rest

/-- What a node has in its fields. -/
def Proper : Node → Prop
  | list body => (∀ e ∈ body, e.isEntry) ∧ ∀ e ∈ body.dropLast, Grammar.isTerminated e
  | pipelines body terminal =>
    body.isAndOrChain ∧ ∀ t, terminal = some t → t = [';'] ∨ t = ['\n'] ∨ t = ['&']
  | andOr op left right =>
    (op = ['&', '&'] ∨ op = ['|', '|']) ∧ left.isAndOrChain ∧ right.isPipeline
  | pipeline _ body => body.isPipeChain
  | pipe op left right =>
    (op = ['|'] ∨ op = ['|', '&']) ∧ left.isPipeChain ∧ right.isSimpleCommand
  | simpleCommand assigns body =>
    (assigns ≠ [] ∨ body ≠ []) ∧ (∀ a ∈ assigns, a.isAssign) ∧ (∀ w ∈ body, w.isWordOf isPiece) ∧
      ∀ w, body.head? = some w → ¬ StartsAssignment w.written
  | assign name value =>
    Text.isVariableName name = true ∧ ∀ w, value = some w → w.isWordOf isPiece
  | doubleQuoted body => ∀ p ∈ body, p.isQuotable
  | concat body => 2 ≤ body.length ∧ ∀ p ∈ body, p.isPiece
  | paramDefault _ _ _ value => value.isPayload
  | substring _ _ offset length => offset.isExpression ∧ (length = empty ∨ length.isExpression)
  | patternRemoval _ _ _ pattern | caseChange _ _ _ pattern => pattern.isPayload
  | patternReplacement _ _ _ pattern replace =>
    pattern.isPayload ∧ ∀ r, replace = some r → r.isPayload
  | namesStarting stem _ => Text.isVariableName stem = true
  | arrayElement _ _ subscript => subscript.isExpression
  | commandSubst _ body | processSubst _ body => body.isList
  | arithExpansion body | parentheses body | unOp _ body | postOp _ body => body.isExpression
  | binOp _ left right => left.isExpression ∧ right.isExpression
  | ternary cond yes no => cond.isExpression ∧ yes.isExpression ∧ no.isExpression
  | str _ | singleQuoted _ | simpleParam _ | param .. | paramLength .. | paramTransform ..
  | arrayElements .. | arrayKeys .. | number _ | var .. | empty => True

/-! ### The whole tree -/

/-- A tree whose nodes are all proper, at every depth. -/
def Contract (n : Node) : Prop := ∀ m ∈ n.preorder, m.Proper

theorem sizeOf_of_mem_children {n m : Node} (h : m ∈ n.children) : sizeOf m < sizeOf n := by
  have hlist : ∀ {ns : List Node}, m ∈ ns → sizeOf m < sizeOf ns := List.sizeOf_lt_of_mem
  cases n with
  | list body | doubleQuoted body | concat body =>
    have hbody : sizeOf m < sizeOf body := hlist h
    simp only [list.sizeOf_spec, doubleQuoted.sizeOf_spec, concat.sizeOf_spec]
    omega
  | simpleCommand assigns body =>
    simp only [simpleCommand.sizeOf_spec]
    obtain h | h := List.mem_append.mp h <;> have := hlist h <;> omega
  | assign name value =>
    cases value with
    | none => cases h
    | some w =>
      obtain rfl := List.mem_singleton.mp h
      simp only [assign.sizeOf_spec, Option.some.sizeOf_spec]
      omega
  | patternReplacement ref name mode pattern replace =>
    cases replace with
    | none =>
      obtain rfl := List.mem_singleton.mp h
      simp only [patternReplacement.sizeOf_spec]
      omega
    | some w =>
      simp only [children, Option.toList, List.mem_cons, List.not_mem_nil, or_false] at h
      simp only [patternReplacement.sizeOf_spec, Option.some.sizeOf_spec]
      obtain rfl | rfl := h <;> omega
  | pipelines body _ | pipeline _ body | commandSubst _ body | processSubst _ body
  | arithExpansion body | parentheses body | paramDefault _ _ _ body | patternRemoval _ _ _ body
  | caseChange _ _ _ body | arrayElement _ _ body | unOp _ body | postOp _ body =>
    obtain rfl := List.mem_singleton.mp h
    simp only [pipelines.sizeOf_spec, pipeline.sizeOf_spec, commandSubst.sizeOf_spec,
      processSubst.sizeOf_spec, arithExpansion.sizeOf_spec, parentheses.sizeOf_spec,
      paramDefault.sizeOf_spec, patternRemoval.sizeOf_spec, caseChange.sizeOf_spec,
      arrayElement.sizeOf_spec, unOp.sizeOf_spec, postOp.sizeOf_spec]
    omega
  | andOr _ left right | pipe _ left right | binOp _ left right | substring _ _ left right =>
    simp only [children, List.mem_cons, List.not_mem_nil, or_false] at h
    simp only [andOr.sizeOf_spec, pipe.sizeOf_spec, binOp.sizeOf_spec, substring.sizeOf_spec]
    obtain rfl | rfl := h <;> omega
  | ternary cond yes no =>
    simp only [children, List.mem_cons, List.not_mem_nil, or_false] at h
    simp only [ternary.sizeOf_spec]
    obtain rfl | rfl | rfl := h <;> omega
  | _ => cases h

/-- What holds of a node if it holds of its children holds of every node. -/
theorem induct_children {P : Node → Prop} (step : ∀ n, (∀ m ∈ n.children, P m) → P n) (n : Node) :
    P n :=
  step n fun m hm =>
    have := sizeOf_of_mem_children hm
    induct_children step m
termination_by sizeOf n

/-- From where a walk counts its depth makes no difference to the nodes it meets. -/
theorem map_walk (stop : Node → Bool) (depth : Nat) (n : Node) :
    (walk stop depth n).map (·.2) = (walk stop 0 n).map (·.2) := by
  induction n using induct_children generalizing depth with
  | step n ih =>
    rw [walk_eq stop depth, walk_eq stop 0]
    simp only [List.map_cons, List.cons.injEq, true_and]
    split
    · rfl
    · simp only [List.map_flatMap]
      rw [List.flatMap_def, List.flatMap_def, List.map_congr_left fun m hm => ?_]
      exact (ih m hm (depth + 1)).trans (ih m hm (0 + 1)).symm

/-- A walk meets a node, and unless it stops there what walks from its children meet. -/
theorem map_walk_eq (stop : Node → Bool) (n : Node) :
    (walk stop 0 n).map (·.2) =
      n :: if stop n then [] else n.children.flatMap fun m => (walk stop 0 m).map (·.2) := by
  rw [walk_eq, List.map_cons]
  split
  · rfl
  · simp only [List.map_flatMap, map_walk _ (0 + 1)]

/-- In pre-order a node stands before those of its children. -/
theorem preorder_eq (n : Node) : n.preorder = n :: n.children.flatMap preorder :=
  map_walk_eq (fun _ => false) n

/-- A walk that stops at what is sought finds it where there is any. -/
theorem any_walk (sought : Node → Bool) (depth : Nat) (n : Node) :
    (walk sought depth n).any (fun m => sought m.2) = n.preorder.any sought := by
  induction n using induct_children generalizing depth with
  | step n ih =>
    rw [walk_eq, preorder_eq]
    cases hn : sought n with
    | true => simp [hn]
    | false =>
      simp only [List.any_cons, hn, Bool.false_or, Bool.false_eq_true, if_false, List.any_flatMap]
      rw [Bool.eq_iff_iff, List.any_eq_true, List.any_eq_true]
      exact exists_congr fun m => and_congr_right fun hm => by rw [ih m hm (depth + 1)]

/-- A tree has substitutions if one of its nodes is one. -/
theorem hasSubstitutions_eq (n : Node) : n.hasSubstitutions = n.preorder.any isSubstitution :=
  any_walk isSubstitution 0 n

theorem contract_iff {n : Node} : n.Contract ↔ n.Proper ∧ ∀ m ∈ n.children, m.Contract := by
  simp only [Contract, preorder_eq n, List.forall_mem_cons, List.mem_flatMap]
  constructor
  · rintro ⟨hproper, hall⟩
    exact ⟨hproper, fun m hm k hk => hall k ⟨m, hm, hk⟩⟩
  · rintro ⟨hproper, hall⟩
    refine ⟨hproper, ?_⟩
    rintro k ⟨m, hm, hk⟩
    exact hall m hm k hk

end ShellGrammar.Node
