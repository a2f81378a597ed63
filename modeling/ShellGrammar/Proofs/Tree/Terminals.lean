import ShellGrammar.Proofs.Tree.Need

/-! The terminals of a tree.

A `;`, a newline or a `&` behind an entry is kept in the tree, and nothing else in the tree depends on
which of them it is. So a tree has a frame, which is what is left without their texts (`Node.frame`),
and the terminals that stand in it, in order (`Node.terminators`), and it is made of these two
(`Node.eq_of_frame`). How many levels a tree needs is a matter of its frame (`Node.need_frame`). -/
namespace ShellGrammar.Node

mutual

/-- The terminals of the entries of a tree, in the order in which they are written. -/
@[simp] def terminators : Node → List Text
  | list body | doubleQuoted body | concat body => terminatorsAll body
  | simpleCommand assigns body => terminatorsAll assigns ++ terminatorsAll body
  | pipelines body terminal => terminators body ++ terminal.toList
  | pipeline _ body | commandSubst _ body | processSubst _ body | arithExpansion body
  | parentheses body | paramDefault _ _ _ body | patternRemoval _ _ _ body
  | caseChange _ _ _ body | arrayElement _ _ body | unOp _ body | postOp _ body => terminators body
  | andOr _ left right | pipe _ left right | binOp _ left right | substring _ _ left right =>
    terminators left ++ terminators right
  | assign _ value => terminatorsOpt value
  | patternReplacement _ _ _ pattern replace => terminators pattern ++ terminatorsOpt replace
  | ternary cond yes no => terminators cond ++ (terminators yes ++ terminators no)
  | str _ | singleQuoted _ | simpleParam _ | param .. | paramLength .. | namesStarting ..
  | paramTransform .. | arrayElements .. | arrayKeys .. | number _ | var .. | empty => []

@[simp] def terminatorsAll : List Node → List Text
  | [] => []
  | n :: ns => terminators n ++ terminatorsAll ns

@[simp] def terminatorsOpt : Option Node → List Text
  | none => []
  | some n => terminators n

end

mutual

/-- A tree without the texts of its terminals. -/
@[simp] def frame : Node → Node
  | list body => .list (frameAll body)
  | pipelines body terminal => .pipelines (frame body) (terminal.map fun _ => [])
  | andOr op left right => .andOr op (frame left) (frame right)
  | pipeline excl body => .pipeline excl (frame body)
  | pipe op left right => .pipe op (frame left) (frame right)
  | simpleCommand assigns body => .simpleCommand (frameAll assigns) (frameAll body)
  | assign name value => .assign name (frameOpt value)
  | str body => .str body
  | singleQuoted body => .singleQuoted body
  | doubleQuoted body => .doubleQuoted (frameAll body)
  | concat body => .concat (frameAll body)
  | simpleParam name => .simpleParam name
  | param ref name => .param ref name
  | paramLength ref name => .paramLength ref name
  | paramDefault ref name op value => .paramDefault ref name op (frame value)
  | substring ref name offset length => .substring ref name (frame offset) (frame length)
  | patternRemoval ref name mode pattern => .patternRemoval ref name mode (frame pattern)
  | patternReplacement ref name mode pattern replace =>
    .patternReplacement ref name mode (frame pattern) (frameOpt replace)
  | caseChange ref name mode pattern => .caseChange ref name mode (frame pattern)
  | namesStarting stem mode => .namesStarting stem mode
  | paramTransform ref name op => .paramTransform ref name op
  | arrayElements array mode => .arrayElements array mode
  | arrayKeys array mode => .arrayKeys array mode
  | arrayElement ref name subscript => .arrayElement ref name (frame subscript)
  | commandSubst style body => .commandSubst style (frame body)
  | processSubst direction body => .processSubst direction (frame body)
  | arithExpansion body => .arithExpansion (frame body)
  | number value => .number value
  | var name dollar => .var name dollar
  | binOp op left right => .binOp op (frame left) (frame right)
  | unOp op operand => .unOp op (frame operand)
  | postOp op operand => .postOp op (frame operand)
  | ternary cond yes no => .ternary (frame cond) (frame yes) (frame no)
  | parentheses body => .parentheses (frame body)
  | empty => .empty

@[simp] def frameAll : List Node → List Node
  | [] => []
  | n :: ns => frame n :: frameAll ns

@[simp] def frameOpt : Option Node → Option Node
  | none => none
  | some n => some (frame n)

end

theorem isTerminated_frame (n : Node) : Grammar.isTerminated n.frame = Grammar.isTerminated n := by
  cases n with
  | pipelines body terminal => cases terminal <;> rfl
  | _ => rfl

/-! ### Trees of a frame -/

mutual

/-- Of trees with one frame each has as many terminals as any other. -/
theorem length_terminators_frame : ∀ n : Node, n.frame.terminators.length = n.terminators.length
  | list body | doubleQuoted body | concat body => by simp [length_terminators_frameAll body]
  | simpleCommand assigns body => by
    simp [length_terminators_frameAll assigns, length_terminators_frameAll body]
  | pipelines body o => by cases o <;> simp [length_terminators_frame body]
  | pipeline _ body | commandSubst _ body | processSubst _ body
  | arithExpansion body | parentheses body | paramDefault _ _ _ body | patternRemoval _ _ _ body
  | caseChange _ _ _ body | arrayElement _ _ body | unOp _ body | postOp _ body => by
    simp [length_terminators_frame body]
  | andOr _ left right | pipe _ left right | binOp _ left right | substring _ _ left right => by
    simp [length_terminators_frame left, length_terminators_frame right]
  | assign _ value => by simp [length_terminators_frameOpt value]
  | patternReplacement _ _ _ pattern replace => by
    simp [length_terminators_frame pattern, length_terminators_frameOpt replace]
  | ternary cond yes no => by
    simp [length_terminators_frame cond, length_terminators_frame yes, length_terminators_frame no]
  | str _ | singleQuoted _ | simpleParam _ | param .. | paramLength .. | namesStarting ..
  | paramTransform .. | arrayElements .. | arrayKeys .. | number _ | var .. | empty => rfl

theorem length_terminators_frameAll : ∀ ns : List Node,
    (terminatorsAll (frameAll ns)).length = (terminatorsAll ns).length
  | [] => rfl
  | n :: ns => by simp [length_terminators_frame n, length_terminators_frameAll ns]

theorem length_terminators_frameOpt : ∀ n : Option Node,
    (terminatorsOpt (frameOpt n)).length = (terminatorsOpt n).length
  | none => rfl
  | some n => by simp [length_terminators_frame n]

end

theorem length_terminators {n m : Node} (h : n.frame = m.frame) :
    n.terminators.length = m.terminators.length := by
  rw [← length_terminators_frame n, h, length_terminators_frame]

theorem length_terminatorsAll {ns ms : List Node} (h : frameAll ns = frameAll ms) :
    (terminatorsAll ns).length = (terminatorsAll ms).length := by
  rw [← length_terminators_frameAll ns, h, length_terminators_frameAll]

mutual

/-- A tree is its frame and its terminals. -/
theorem eq_of_frame : ∀ n m : Node, n.frame = m.frame → n.terminators = m.terminators → n = m
  | list body, m, h, ht => by
    cases m <;> simp only [frame, reduceCtorEq, list.injEq] at h
    rw [eq_of_frameAll body _ h ht]
  | doubleQuoted body, m, h, ht => by
    cases m <;> simp only [frame, reduceCtorEq, doubleQuoted.injEq] at h
    rw [eq_of_frameAll body _ h ht]
  | concat body, m, h, ht => by
    cases m <;> simp only [frame, reduceCtorEq, concat.injEq] at h
    rw [eq_of_frameAll body _ h ht]
  | simpleCommand assigns body, m, h, ht => by
    cases m <;> simp only [frame, reduceCtorEq, simpleCommand.injEq] at h
    obtain ⟨hl, hr⟩ := List.append_inj ht (length_terminatorsAll h.1)
    rw [eq_of_frameAll assigns _ h.1 hl, eq_of_frameAll body _ h.2 hr]
  | pipelines body terminal, m, h, ht => by
    cases m <;> simp only [frame, reduceCtorEq, pipelines.injEq] at h
    rename_i body' terminal'
    obtain ⟨hbody, hterminal⟩ := List.append_inj ht (length_terminators h.1)
    obtain rfl : terminal = terminal' := by
      match terminal, terminal', hterminal with
      | none, none, _ => rfl
      | some _, some _, hterminal => rw [(List.cons.inj hterminal).1]
    rw [eq_of_frame body body' h.1 hbody]
  | pipeline a body, m, h, ht => by
    cases m <;> simp only [frame, reduceCtorEq, pipeline.injEq] at h
    rw [h.1, eq_of_frame body _ h.2 ht]
  | commandSubst a body, m, h, ht => by
    cases m <;> simp only [frame, reduceCtorEq, commandSubst.injEq] at h
    rw [h.1, eq_of_frame body _ h.2 ht]
  | processSubst a body, m, h, ht => by
    cases m <;> simp only [frame, reduceCtorEq, processSubst.injEq] at h
    rw [h.1, eq_of_frame body _ h.2 ht]
  | arithExpansion body, m, h, ht => by
    cases m <;> simp only [frame, reduceCtorEq, arithExpansion.injEq] at h
    rw [eq_of_frame body _ h ht]
  | parentheses body, m, h, ht => by
    cases m <;> simp only [frame, reduceCtorEq, parentheses.injEq] at h
    rw [eq_of_frame body _ h ht]
  | paramDefault a b c body, m, h, ht => by
    cases m <;> simp only [frame, reduceCtorEq, paramDefault.injEq] at h
    rw [h.1, h.2.1, h.2.2.1, eq_of_frame body _ h.2.2.2 ht]
  | patternRemoval a b c body, m, h, ht => by
    cases m <;> simp only [frame, reduceCtorEq, patternRemoval.injEq] at h
    rw [h.1, h.2.1, h.2.2.1, eq_of_frame body _ h.2.2.2 ht]
  | caseChange a b c body, m, h, ht => by
    cases m <;> simp only [frame, reduceCtorEq, caseChange.injEq] at h
    rw [h.1, h.2.1, h.2.2.1, eq_of_frame body _ h.2.2.2 ht]
  | arrayElement a b body, m, h, ht => by
    cases m <;> simp only [frame, reduceCtorEq, arrayElement.injEq] at h
    rw [h.1, h.2.1, eq_of_frame body _ h.2.2 ht]
  | unOp a body, m, h, ht => by
    cases m <;> simp only [frame, reduceCtorEq, unOp.injEq] at h
    rw [h.1, eq_of_frame body _ h.2 ht]
  | postOp a body, m, h, ht => by
    cases m <;> simp only [frame, reduceCtorEq, postOp.injEq] at h
    rw [h.1, eq_of_frame body _ h.2 ht]
  | andOr a left right, m, h, ht => by
    cases m <;> simp only [frame, reduceCtorEq, andOr.injEq] at h
    obtain ⟨hl, hr⟩ := List.append_inj ht (length_terminators h.2.1)
    rw [h.1, eq_of_frame left _ h.2.1 hl, eq_of_frame right _ h.2.2 hr]
  | pipe a left right, m, h, ht => by
    cases m <;> simp only [frame, reduceCtorEq, pipe.injEq] at h
    obtain ⟨hl, hr⟩ := List.append_inj ht (length_terminators h.2.1)
    rw [h.1, eq_of_frame left _ h.2.1 hl, eq_of_frame right _ h.2.2 hr]
  | binOp a left right, m, h, ht => by
    cases m <;> simp only [frame, reduceCtorEq, binOp.injEq] at h
    obtain ⟨hl, hr⟩ := List.append_inj ht (length_terminators h.2.1)
    rw [h.1, eq_of_frame left _ h.2.1 hl, eq_of_frame right _ h.2.2 hr]
  | substring a b left right, m, h, ht => by
    cases m <;> simp only [frame, reduceCtorEq, substring.injEq] at h
    obtain ⟨hl, hr⟩ := List.append_inj ht (length_terminators h.2.2.1)
    rw [h.1, h.2.1, eq_of_frame left _ h.2.2.1 hl, eq_of_frame right _ h.2.2.2 hr]
  | assign name value, m, h, ht => by
    cases m <;> simp only [frame, reduceCtorEq, assign.injEq] at h
    rw [h.1, eq_of_frameOpt value _ h.2 ht]
  | patternReplacement a b c pattern replace, m, h, ht => by
    cases m <;> simp only [frame, reduceCtorEq, patternReplacement.injEq] at h
    obtain ⟨hl, hr⟩ := List.append_inj ht (length_terminators h.2.2.2.1)
    rw [h.1, h.2.1, h.2.2.1, eq_of_frame pattern _ h.2.2.2.1 hl, eq_of_frameOpt replace _ h.2.2.2.2 hr]
  | ternary cond yes no, m, h, ht => by
    cases m <;> simp only [frame, reduceCtorEq, ternary.injEq] at h
    obtain ⟨hcond, hboth⟩ := List.append_inj ht (length_terminators h.1)
    obtain ⟨hyes, hno⟩ := List.append_inj hboth (length_terminators h.2.1)
    rw [eq_of_frame cond _ h.1 hcond, eq_of_frame yes _ h.2.1 hyes, eq_of_frame no _ h.2.2 hno]
  | str _, m, h, _ | singleQuoted _, m, h, _ | simpleParam _, m, h, _ | param .., m, h, _
  | paramLength .., m, h, _ | namesStarting .., m, h, _ | paramTransform .., m, h, _
  | arrayElements .., m, h, _ | arrayKeys .., m, h, _ | number _, m, h, _ | var .., m, h, _
  | empty, m, h, _ => by
    cases m <;> first | exact h | cases h

theorem eq_of_frameAll : ∀ ns ms : List Node, frameAll ns = frameAll ms →
    terminatorsAll ns = terminatorsAll ms → ns = ms
  | [], [], _, _ => rfl
  | n :: ns, m :: ms, h, ht => by
    obtain ⟨hl, hr⟩ := List.append_inj ht (length_terminators (List.cons.inj h).1)
    rw [eq_of_frame n m (List.cons.inj h).1 hl, eq_of_frameAll ns ms (List.cons.inj h).2 hr]

theorem eq_of_frameOpt : ∀ n m : Option Node, frameOpt n = frameOpt m →
    terminatorsOpt n = terminatorsOpt m → n = m
  | none, none, _, _ => rfl
  | some n, some m, h, ht => congrArg some (eq_of_frame n m (Option.some.inj h) ht)

end
/-! ### Levels -/

theorem spine_frame (family : Family) : ∀ n : Node, n.frame.spine family = n.spine family
  | andOr _ left _ | pipe _ left _ | binOp _ left _ => by simp [spine_frame family left]
  | list _ | pipelines .. | pipeline .. | simpleCommand .. | assign .. | str _ | singleQuoted _
  | doubleQuoted _ | concat _ | simpleParam _ | param .. | paramLength .. | paramDefault ..
  | substring .. | patternRemoval .. | patternReplacement .. | caseChange .. | namesStarting ..
  | paramTransform .. | arrayElements .. | arrayKeys .. | arrayElement .. | commandSubst ..
  | processSubst .. | arithExpansion _ | number _ | var .. | unOp .. | postOp .. | ternary ..
  | parentheses _ | empty => rfl

mutual

/-- Terminals take no levels. -/
theorem need_frame : ∀ n : Node, n.frame.need = n.need
  | list body | doubleQuoted body | concat body => by simp [needAll_frame body]
  | simpleCommand assigns body => by simp [needAll_frame assigns, needAll_frame body]
  | pipelines body _ | pipeline _ body | commandSubst _ body | processSubst _ body
  | arithExpansion body | parentheses body | paramDefault _ _ _ body | patternRemoval _ _ _ body
  | caseChange _ _ _ body | arrayElement _ _ body | unOp _ body | postOp _ body => by
    simp [need_frame body]
  | andOr _ left right | pipe _ left right | binOp _ left right | substring _ _ left right => by
    simp [need_frame left, need_frame right, spine_frame]
  | assign _ value => by simp [needOpt_frame value]
  | patternReplacement _ _ _ pattern replace => by
    simp [need_frame pattern, needOpt_frame replace]
  | ternary cond yes no => by simp [need_frame cond, need_frame yes, need_frame no]
  | str _ | singleQuoted _ | simpleParam _ | param .. | paramLength .. | namesStarting ..
  | paramTransform .. | arrayElements .. | arrayKeys .. | number _ | var .. | empty => rfl

theorem needAll_frame : ∀ ns : List Node, needAll (frameAll ns) = needAll ns
  | [] => rfl
  | n :: ns => by simp [need_frame n, needAll_frame ns]

theorem needOpt_frame : ∀ n : Option Node, needOpt (frameOpt n) = needOpt n
  | none => rfl
  | some n => by simp [need_frame n]

end

end ShellGrammar.Node
