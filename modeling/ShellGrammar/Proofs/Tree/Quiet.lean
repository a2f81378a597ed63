import ShellGrammar.Proofs.Tree.Contract
import ShellGrammar.Proofs.Tree.Written

/-! Substitutions within backquotes.

Between backquotes no piece starts with a backquote, so a substitution between backquotes stands
within another only where one in parentheses stands between the two. `Node.Quiet` says so of a
tree, and all that a phrase derives is quiet (`Derives.quiet`). -/
namespace ShellGrammar

namespace Node

/-- The body of a substitution between backquotes. -/
def backquoted? : Node → Option Node
  | commandSubst style body => if style = ['`'] then some body else none
  | _ => none

/-- The body of a substitution in parentheses: `$(…)`, `<(…)` or `>(…)`. -/
def parenthesized? : Node → Option Node
  | commandSubst style body => if style = ['$', '('] then some body else none
  | processSubst _ body => some body
  | _ => none

/-- The nodes of a tree in pre-order, but none of those in the body of a substitution in
parentheses. -/
def exposed (n : Node) : List Node :=
  (walk (fun m => m.parenthesized?.isSome) 0 n).map (·.2)

/-- No substitution between backquotes stands in a tree, unless one in parentheses stands between
the two. -/
def Shields (n : Node) : Prop := ∀ m ∈ n.exposed, m.backquoted? = none

/-- What stands between backquotes in a tree shields what stands between backquotes there, and
the whole tree does if it stands between backquotes itself. -/
structure Quiet (inBackquote : Bool) (n : Node) : Prop where
  bodies : ∀ m ∈ n.preorder, ∀ body, m.backquoted? = some body → body.Shields
  shields : inBackquote = true → n.Shields

variable {inBackquote : Bool} {n body : Node}

theorem children_of_parenthesized? (h : n.parenthesized? = some body) : n.children = [body] := by
  cases n with
  | commandSubst style inner =>
    by_cases hstyle : style = ['$', '('] <;> simp_all [parenthesized?, children]
  | processSubst style inner =>
    cases h
    rfl
  | _ => cases h

theorem mem_preorder_iff {m : Node} :
    m ∈ n.preorder ↔ m = n ∨ ∃ child ∈ n.children, m ∈ child.preorder := by
  rw [preorder_eq, List.mem_cons, List.mem_flatMap]

theorem exposed_eq (n : Node) :
    n.exposed = n :: if n.parenthesized?.isSome then [] else n.children.flatMap exposed :=
  map_walk_eq (fun m => m.parenthesized?.isSome) n

/-- A tree shields what is in it if it is not between backquotes itself and its children shield
what is in them, which they need not do in parentheses. -/
theorem shields_iff :
    n.Shields ↔ n.backquoted? = none ∧
      (n.parenthesized? = none → ∀ m ∈ n.children, m.Shields) := by
  simp only [Shields, exposed_eq n, List.forall_mem_cons]
  refine and_congr_right fun _ => ?_
  cases hn : n.parenthesized? with
  | none =>
    simp only [Option.isSome_none, Bool.false_eq_true, if_false, List.mem_flatMap, true_imp_iff]
    exact ⟨fun h child hchild m hm => h m ⟨child, hchild, hm⟩,
      fun h m ⟨child, hchild, hm⟩ => h child hchild m hm⟩
  | some body => simp

/-- Where a tree shields what is in it, a substitution between backquotes stands in the body of
one in parentheses. -/
theorem Shields.between (h : n.Shields) {m : Node} (hm : m ∈ n.preorder)
    (hm' : m.backquoted?.isSome) :
    ∃ between ∈ n.preorder, ∃ body, between.parenthesized? = some body ∧ m ∈ body.preorder := by
  induction n using induct_children with
  | step n ih =>
    obtain ⟨hno, hbelow⟩ := shields_iff.mp h
    obtain rfl | ⟨child, hchild, hmem⟩ := mem_preorder_iff.mp hm
    · rw [hno] at hm'
      cases hm'
    cases hn : n.parenthesized? with
    | none =>
      obtain ⟨between, hbetween, hshield⟩ := ih child hchild (hbelow hn child hchild) hmem
      exact ⟨between, mem_preorder_iff.mpr (.inr ⟨child, hchild, hbetween⟩), hshield⟩
    | some body =>
      rw [children_of_parenthesized? hn] at hchild
      obtain rfl := List.mem_singleton.mp hchild
      exact ⟨n, mem_preorder_iff.mpr (.inl rfl), child, hn, hmem⟩

theorem backquoted?_of_not_isSubstitution (h : n.isSubstitution = false) :
    n.backquoted? = none := by
  cases n <;> first | rfl | cases h

/-- What stands between backquotes in a tree is the tree itself or stands so in a child. -/
theorem bodies_of_children (hown : ∀ inner, n.backquoted? = some inner → inner.Shields)
    (hbelow : ∀ m ∈ n.children, m.Quiet inBackquote) :
    ∀ m ∈ n.preorder, ∀ inner, m.backquoted? = some inner → inner.Shields := by
  intro m hm inner hinner
  obtain rfl | ⟨child, hchild, hm⟩ := mem_preorder_iff.mp hm
  · exact hown inner hinner
  · exact (hbelow child hchild).bodies m hm inner hinner

/-- A tree is quiet if those below are, unless it is a substitution. -/
theorem quiet_of_children (h : n.isSubstitution = false)
    (hchildren : ∀ m ∈ n.children, m.Quiet inBackquote) : n.Quiet inBackquote where
  bodies := bodies_of_children
    (fun _ hinner => nomatch (backquoted?_of_not_isSubstitution h).symm.trans hinner) hchildren
  shields hin := shields_iff.mpr ⟨backquoted?_of_not_isSubstitution h,
    fun _ m hm => (hchildren m hm).shields hin⟩

/-- The same of the one node that is read. -/
theorem quiet_one (h : n.isSubstitution = false)
    (hchildren : ∀ m ∈ n.children, m.Quiet inBackquote) : ∀ m ∈ [n], m.Quiet inBackquote :=
  List.forall_mem_singleton.mpr (quiet_of_children h hchildren)

/-- The same of a node whose children are read in two turns. -/
theorem quiet_two {as bs : List Node} (h : n.isSubstitution = false)
    (hchildren : n.children = as ++ bs) (has : ∀ m ∈ as, m.Quiet inBackquote)
    (hbs : ∀ m ∈ bs, m.Quiet inBackquote) : ∀ m ∈ [n], m.Quiet inBackquote :=
  quiet_one h (hchildren ▸ List.forall_mem_append.mpr ⟨has, hbs⟩)

/-- A substitution in parentheses is quiet wherever it stands, if its body is. -/
theorem quiet_parenthesized (h : n.parenthesized? = some body) (hno : n.backquoted? = none)
    (hbody : body.Quiet false) : n.Quiet inBackquote where
  bodies := bodies_of_children (fun _ hinner => nomatch hno.symm.trans hinner)
    (children_of_parenthesized? h ▸ List.forall_mem_singleton.mpr hbody)
  shields _ := shields_iff.mpr ⟨hno, fun hnot => nomatch hnot.symm.trans h⟩

/-- A substitution between backquotes is quiet where it is not between backquotes, if its body
is between them. -/
theorem quiet_backquoted (hbody : body.Quiet true) : (commandSubst ['`'] body).Quiet false where
  bodies := bodies_of_children (fun inner hinner => by cases hinner; exact hbody.shields rfl)
    (List.forall_mem_singleton.mpr hbody)
  shields h := nomatch h

end Node

/-- Whether the nodes of a phrase stand between backquotes. -/
def Phrase.inBackquote (c : Context) : Phrase → Bool
  | .nestedList closer => closer == .backquote
  | _ => c.inBackquote

open Node in
/-- Whatever a phrase derives is quiet. -/
theorem Derives.quiet {c : Context} {p : Phrase} {as : List Node} {ts : List Token} {n : Nat}
    (h : Derives c p as ts n) : ∀ a ∈ as, a.Quiet (p.inBackquote c) := by
  induction h with
  | manyNil | entriesNil => exact List.forall_mem_nil _
  | @manyCons c p _ _ _ _ _ _ hpart _ _ ih ih' =>
    have hsame : p.inBackquote c = c.inBackquote := by
      cases p <;> first | rfl | cases hpart
    exact List.forall_mem_append.mpr ⟨hsame ▸ ih, ih'⟩
  | entriesCons _ _ _ _ ih ih' => exact List.forall_mem_append.mpr ⟨ih, ih'⟩
  -- Leaves
  | assignBare | str | singleQuoted | simpleParam | payloadEmpty | parameterLength | param
  | arrayKeys | arrayElements | paramTransform | namesStarting | number | var | varDollar =>
    exact quiet_one rfl (List.forall_mem_nil _)
  -- Nodes above what one phrase yields
  | list _ _ ih | entry _ ih | entryTerminated _ _ ih | pipeline _ ih | pipelineNegated _ _ _ ih
  | assign _ _ ih | doubleQuoted _ _ ih | arithExpansion _ _ ih | paramDefault _ _ ih
  | patternRemoval _ _ ih | caseChange _ _ ih | patternReplacement _ _ _ ih
  | arrayElement _ _ _ ih | unaryOp _ _ ih | postOp _ _ ih | parentheses _ _ _ _ ih =>
    exact quiet_one rfl ih
  | substring _ _ ih =>
    exact quiet_two rfl rfl ih (quiet_one rfl (List.forall_mem_nil _))
  | assignmentOp _ _ _ ih =>
    exact quiet_two rfl rfl (quiet_one rfl (List.forall_mem_nil _)) ih
  -- Nodes above what two phrases yield
  | andOrFold _ _ _ _ ih ih' | pipeFold _ _ _ _ ih ih' | command _ _ _ ih ih'
  | wordConcat _ _ ih ih' | substringLength _ _ _ _ ih ih' | patternReplaced _ _ _ _ _ ih ih'
  | commaFold _ _ _ ih ih' | binaryFold _ _ _ _ _ ih ih' | powerOp _ _ _ ih ih' =>
    exact quiet_two rfl rfl ih ih'
  | ternaryOp _ _ _ _ _ ih₁ ih₂ ih₃ =>
    exact quiet_two rfl rfl ih₁ (List.forall_mem_append.mpr ⟨ih₂, ih₃⟩)
  -- Substitutions
  | pieceCommand ht hk _ ih | primaryCommand ht hk _ ih =>
    rw [List.forall_mem_singleton] at ih ⊢
    rw [ht.body hk rfl]
    exact quiet_parenthesized rfl rfl ih
  | pieceBackquoted ht hk hc _ ih =>
    rw [List.forall_mem_singleton] at ih ⊢
    rw [ht.body hk rfl]
    show Node.Quiet (Context.inBackquote _) _
    rw [hc]
    exact quiet_backquoted ih
  | pieceProcess _ _ _ ih =>
    rw [List.forall_mem_singleton] at ih ⊢
    exact quiet_parenthesized rfl rfl ih
  | _ => assumption

end ShellGrammar
