import Mathlib
import ShellGrammar.Proofs.Tree.Contract

/-! What a tree mentions.

Parameters, substitutions and operators between commands are all that the queries about a
tree go by. `Node.mentions` lists them in the order in which they are written, so that they
can be compared with the tokens, and the queries are read off that list. For the number of
simple commands the tree has to keep its contract: commands stand in chains, and a chain has
one operator less than commands. -/
namespace ShellGrammar

/-- What the queries about a tree ask for. -/
inductive Mention where
  | parameter (name : Text)
  /-- A command or process substitution is opened, or a backquote closed. -/
  | substitution
  /-- Two commands or two pipelines are joined. -/
  | operator
deriving DecidableEq

namespace Mention

def parameter? : Mention → Option Text
  | parameter name => some name
  | _ => none

end Mention

namespace Node

mutual

/-- What a tree mentions, from left to right. -/
@[simp] def mentions : Node → List Mention
  | list body | doubleQuoted body | concat body => mentionsAll body
  | pipelines body _ | pipeline _ body | arithExpansion body | parentheses body | unOp _ body
  | postOp _ body => mentions body
  | andOr _ left right | pipe _ left right => mentions left ++ .operator :: mentions right
  | simpleCommand assigns body => mentionsAll assigns ++ mentionsAll body
  | assign _ value => mentionsOpt value
  | simpleParam name | param _ name | paramLength _ name | paramTransform _ name _
  | arrayElements name _ | arrayKeys name _ | var name _ => [.parameter name]
  | paramDefault _ name _ word | patternRemoval _ name _ word | caseChange _ name _ word
  | arrayElement _ name word => .parameter name :: mentions word
  | substring _ name offset length => .parameter name :: (mentions offset ++ mentions length)
  | patternReplacement _ name _ pattern replace =>
    .parameter name :: (mentions pattern ++ mentionsOpt replace)
  | commandSubst style body =>
    .substitution :: (mentions body ++ if style = ['`'] then [.substitution] else [])
  | processSubst _ body => .substitution :: mentions body
  | binOp _ left right => mentions left ++ mentions right
  | ternary cond yes no => mentions cond ++ (mentions yes ++ mentions no)
  | str _ | singleQuoted _ | namesStarting .. | number _ | empty => []

@[simp] def mentionsAll : List Node → List Mention
  | [] => []
  | n :: ns => mentions n ++ mentionsAll ns

@[simp] def mentionsOpt : Option Node → List Mention
  | none => []
  | some n => mentions n

end

theorem mentionsAll_eq (ns : List Node) : mentionsAll ns = ns.flatMap mentions := by
  induction ns with
  | nil => rfl
  | cons n ns ih => rw [mentionsAll, ih, List.flatMap_cons]

theorem mentionsOpt_eq (n : Option Node) : mentionsOpt n = n.toList.flatMap mentions := by
  cases n <;> simp

/-- What a node mentions itself. -/
def ownMentions : Node → List Mention
  | andOr .. | pipe .. => [.operator]
  | commandSubst style _ => .substitution :: if style = ['`'] then [.substitution] else []
  | processSubst .. => [.substitution]
  | n => (parameterName? n).toList.map .parameter

/-- A tree mentions what its node does and what its children do. -/
theorem mentions_perm (n : Node) :
    n.mentions.Perm (n.ownMentions ++ n.children.flatMap mentions) := by
  cases n with
  | andOr _ left right | pipe _ left right =>
    simp [children, ownMentions, List.perm_middle]
  | commandSubst style body =>
    simpa [children, ownMentions] using List.perm_append_comm
  | _ =>
    simp [children, ownMentions, parameterName?, mentionsAll_eq, mentionsOpt_eq]

/-! ### Parameters -/

/-- The parameters that the nodes of a tree refer to, in pre-order. -/
def parameters (n : Node) : List Text := n.preorder.filterMap parameterName?

theorem parameters_eq (n : Node) :
    n.parameters = n.parameterName?.toList ++ n.children.flatMap parameters := by
  rw [parameters, preorder_eq n, List.filterMap_cons, List.filterMap_flatMap]
  cases n.parameterName? <;> rfl

/-- Nothing that a node mentions itself and that is no parameter stands between parameters in
another order than the children do. -/
theorem filterMap_mentions (n : Node) :
    n.mentions.filterMap Mention.parameter? =
      n.parameterName?.toList ++ (n.children.flatMap mentions).filterMap Mention.parameter? := by
  cases n with
  | commandSubst style body =>
    by_cases hstyle : style = ['`'] <;>
      simp [hstyle, children, parameterName?, Mention.parameter?, List.filterMap_cons]
  | _ =>
    simp [children, parameterName?, Mention.parameter?, mentionsAll_eq, mentionsOpt_eq,
      List.filterMap_cons]

/-- The parameters of a tree are those it mentions, in the same order. -/
theorem parameters_mentions (n : Node) :
    n.mentions.filterMap Mention.parameter? = n.parameters := by
  induction n using induct_children with
  | step n ih =>
    rw [filterMap_mentions, parameters_eq, List.filterMap_flatMap, List.flatMap_def,
      List.flatMap_def, List.map_congr_left ih]

/-! ### Substitutions -/

theorem substitution_mem_own (n : Node) :
    .substitution ∈ n.ownMentions ↔ n.isSubstitution = true := by
  cases n <;> simp [ownMentions, isSubstitution, parameterName?]

/-- A tree holds a substitution if it mentions one. -/
theorem substitution_mem_mentions (n : Node) :
    .substitution ∈ n.mentions ↔ n.hasSubstitutions = true := by
  rw [hasSubstitutions_eq]
  induction n using induct_children with
  | step n ih =>
    rw [(mentions_perm n).mem_iff, List.mem_append, substitution_mem_own, preorder_eq n,
      List.any_cons, Bool.or_eq_true, List.mem_flatMap, List.any_flatMap, List.any_eq_true]
    refine or_congr Iff.rfl ⟨?_, ?_⟩
    · rintro ⟨m, hm, hmem⟩
      exact ⟨m, hm, (ih m hm).mp hmem⟩
    · rintro ⟨m, hm, hany⟩
      exact ⟨m, hm, (ih m hm).mpr hany⟩

/-! ### Commands -/

/-- A class of nodes is counted at the root and in the children. -/
theorem countP_preorder (p : Node → Bool) (n : Node) :
    n.preorder.countP p =
      (if p n then 1 else 0) + (n.children.map fun m => m.preorder.countP p).sum := by
  rw [preorder_eq n, List.countP_cons, List.countP_flatMap, Nat.add_comm]
  rfl

/-- How many operators stand between commands and between pipelines. -/
def operators (n : Node) : Nat := n.mentions.count .operator

theorem operators_eq (n : Node) :
    n.operators = n.ownMentions.count .operator + (n.children.map operators).sum := by
  rw [operators, (mentions_perm n).count_eq, List.count_append, List.count_flatMap]
  rfl

/-- A command, or commands joined by operators. -/
def isChain (n : Node) : Bool := n.isAndOrChain || n.isPipeChain

section Chains
variable {n : Node}

theorem isChain_of_isPipeline (h : n.isPipeline = true) : n.isChain = true := by
  cases n <;> first | rfl | cases h

theorem isChain_of_isSimpleCommand (h : n.isSimpleCommand = true) : n.isChain = true := by
  cases n <;> first | rfl | cases h

theorem not_isChain_of_isList (h : n.isList = true) : n.isChain = false := by
  cases n <;> first | rfl | cases h

theorem not_isChain_of_isEntry (h : n.isEntry = true) : n.isChain = false := by
  cases n <;> first | rfl | cases h

theorem not_isChain_of_isAssign (h : n.isAssign = true) : n.isChain = false := by
  cases n <;> first | rfl | cases h

theorem not_isChain_of_isPiece (h : n.isPiece = true) : n.isChain = false := by
  cases n <;> first | rfl | cases h

theorem not_isChain_of_isQuotable (h : n.isQuotable = true) : n.isChain = false := by
  cases n <;> first | rfl | cases h

theorem not_isChain_of_isWord (h : n.isWordOf isPiece = true) : n.isChain = false := by
  cases n <;> first | rfl | cases h

theorem not_isChain_of_isPayload (h : n.isPayload = true) : n.isChain = false := by
  cases n <;> first | rfl | cases h

theorem not_isChain_of_isExpression (h : n.isExpression = true) : n.isChain = false := by
  cases n <;> first | rfl | cases h

/-- Where commands are not joined, none stands right below. -/
theorem Proper.not_isChain (h : n.Proper) (hentry : n.isEntry = false) (hchain : n.isChain = false) :
    ∀ m ∈ n.children, m.isChain = false := by
  cases n with
  | pipelines | andOr | pipeline | pipe | simpleCommand => contradiction
  | list body => exact fun m hm => not_isChain_of_isEntry (h.1 m hm)
  | assign name value =>
    exact fun m hm => not_isChain_of_isWord (h.2 m (Option.mem_toList.mp hm))
  | doubleQuoted body => exact fun m hm => not_isChain_of_isQuotable (h m hm)
  | concat body => exact fun m hm => not_isChain_of_isPiece (h.2 m hm)
  | paramDefault | patternRemoval | caseChange =>
    exact List.forall_mem_singleton.mpr (not_isChain_of_isPayload h)
  | substring ref name offset length =>
    refine List.forall_mem_cons.mpr ⟨not_isChain_of_isExpression h.1,
      List.forall_mem_singleton.mpr ?_⟩
    obtain rfl | h := h.2
    · rfl
    · exact not_isChain_of_isExpression h
  | patternReplacement ref name mode pattern replace =>
    refine List.forall_mem_cons.mpr ⟨not_isChain_of_isPayload h.1, fun m hm => ?_⟩
    exact not_isChain_of_isPayload (h.2 m (Option.mem_toList.mp hm))
  | arrayElement | arithExpansion | parentheses | unOp | postOp =>
    exact List.forall_mem_singleton.mpr (not_isChain_of_isExpression h)
  | commandSubst | processSubst =>
    exact List.forall_mem_singleton.mpr (not_isChain_of_isList h)
  | binOp =>
    exact List.forall_mem_cons.mpr ⟨not_isChain_of_isExpression h.1,
      List.forall_mem_singleton.mpr (not_isChain_of_isExpression h.2)⟩
  | ternary =>
    exact List.forall_mem_cons.mpr ⟨not_isChain_of_isExpression h.1,
      List.forall_mem_cons.mpr ⟨not_isChain_of_isExpression h.2.1,
        List.forall_mem_singleton.mpr (not_isChain_of_isExpression h.2.2)⟩⟩
  | _ => nofun

theorem isChain_of_isAndOrChain (h : n.isAndOrChain = true) : n.isChain = true := by
  rw [isChain, h, Bool.true_or]

theorem isChain_of_isPipeChain (h : n.isPipeChain = true) : n.isChain = true := by
  rw [isChain, h, Bool.or_true]

/-- One for a chain. -/
def chains (n : Node) : Nat := if n.isChain then 1 else 0

theorem chains_of_isChain (h : n.isChain = true) : n.chains = 1 := if_pos h

theorem sum_chains_of_not {ns : List Node} (h : ∀ m ∈ ns, m.isChain = false) :
    (ns.map chains).sum = 0 :=
  List.sum_eq_zero fun k hk => by
    obtain ⟨m, hm, rfl⟩ := List.mem_map.mp hk
    rw [chains, h m hm, if_neg Bool.false_ne_true]

/-- A node has as many commands, itself and in the chains right below it, as there are entries,
operators and chains in it. -/
theorem Proper.balance (h : n.Proper) :
    (if n.isSimpleCommand then 1 else 0) + (n.children.map chains).sum =
      (if n.isEntry then 1 else 0) + n.ownMentions.count .operator + n.chains := by
  cases n with
  | pipelines body terminal =>
    have hbody := chains_of_isChain (isChain_of_isAndOrChain h.1)
    simp only [children, List.map_cons, List.map_nil, List.sum_cons, List.sum_nil, hbody]
    rfl
  | andOr op left right =>
    have hleft := chains_of_isChain (isChain_of_isAndOrChain h.2.1)
    have hright := chains_of_isChain (isChain_of_isPipeline h.2.2)
    simp only [children, List.map_cons, List.map_nil, List.sum_cons, List.sum_nil, hleft, hright]
    rfl
  | pipeline excl body =>
    have hbody := chains_of_isChain (isChain_of_isPipeChain h)
    simp only [children, List.map_cons, List.map_nil, List.sum_cons, List.sum_nil, hbody]
    rfl
  | pipe op left right =>
    have hleft := chains_of_isChain (isChain_of_isPipeChain h.2.1)
    have hright := chains_of_isChain (isChain_of_isSimpleCommand h.2.2)
    simp only [children, List.map_cons, List.map_nil, List.sum_cons, List.sum_nil, hleft, hright]
    rfl
  | simpleCommand assigns body =>
    have hbelow : ((assigns ++ body).map chains).sum = 0 := by
      refine sum_chains_of_not fun m hm => ?_
      obtain hm | hm := List.mem_append.mp hm
      · exact not_isChain_of_isAssign (h.2.1 m hm)
      · exact not_isChain_of_isWord (h.2.2.1 m hm)
    rw [children, hbelow]
    rfl
  | commandSubst style body =>
    rw [sum_chains_of_not (Proper.not_isChain h rfl rfl)]
    by_cases hstyle : style = ['`']
    · rw [ownMentions, if_pos hstyle]
      rfl
    · rw [ownMentions, if_neg hstyle]
      rfl
  | _ =>
    rw [sum_chains_of_not (Proper.not_isChain h rfl rfl)]
    rfl

/-- In a tree that keeps the contract there are as many simple commands as entries, operators
and perhaps the chain that it is. -/
theorem Contract.countP_isSimpleCommand (h : n.Contract) :
    n.preorder.countP isSimpleCommand = n.preorder.countP isEntry + n.operators + n.chains := by
  induction n using induct_children with
  | step n ih =>
    obtain ⟨hproper, hbelow⟩ := contract_iff.mp h
    have hsum : (n.children.map fun m => m.preorder.countP isSimpleCommand).sum =
        (n.children.map fun m => m.preorder.countP isEntry).sum +
          (n.children.map operators).sum + (n.children.map chains).sum := by
      rw [List.map_congr_left fun m hm => ih m hm (hbelow m hm), List.sum_map_add,
        List.sum_map_add]
    rw [countP_preorder isSimpleCommand, countP_preorder isEntry, operators_eq, hsum]
    have := hproper.balance
    omega

end Chains

end Node

end ShellGrammar
