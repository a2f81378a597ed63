import ShellGrammar.Proofs.Grammar.Derivation
import ShellGrammar.Proofs.Grammar.Layers

/-! Derivations of arithmetic expressions.

Each production is gone through once, from top to bottom, with what is known of the
productions one level further in. The only production that steps back is the
assignment, whose name turns out to be no target when no operator follows it; it is
first put in a form where taking both and taking neither are the two outcomes of one
reader (`takeBoth`). -/
namespace ShellGrammar
open ParseM Grammar

variable {source : Text} {c : Context} {G : ParseM Unit → Grammar}

/-- There are ten rows. -/
theorem rowOf?_lt {kind : Kind} {n : Nat} (h : rowOf? kind = some n) : n < 10 := by
  rw [rowOf?, List.findIdx?_eq_some_iff_getElem] at h
  exact h.1

/-! ### Taking two tokens or none -/

/-- Two tokens in a row, or neither. -/
def takeBoth (kinds kinds' : List Kind) : ParseM (Option (Token × Token)) := do
  match ← next kinds with
  | none => return none
  | some t =>
    match ← next kinds' with
    | some u => return some (t, u)
    | none =>
      back
      return none

theorem takeBoth_runs (kinds kinds' : List Kind) :
    Runs source c (fun _ => takeBoth kinds kinds') (OrNothing fun p ts n =>
      c.Finds kinds p.1 ∧ c.Finds kinds' p.2 ∧ ts = [p.1, p.2] ∧ n = 0) := by
  intro s hs hc
  apply Goes.const
  refine Ends.bind (.refl s) (TakesOne.next kinds s hs hc) ?_
  intro o s₁ ts hs₁ hkeeps₁ hconsumed₁ ho
  obtain ⟨rfl, ht⟩ := ho
  cases o with
  | none => exact ⟨hs₁, hkeeps₁, [], hconsumed₁, rfl, rfl⟩
  | some t =>
    refine Ends.bind hkeeps₁ (TakesOne.next kinds' s₁ hs₁ (hkeeps₁.context.trans hc)) ?_
    intro o s₂ us hs₂ hkeeps₂ hconsumed₂ ho
    obtain ⟨rfl, hu⟩ := ho
    rw [hconsumed₁, List.append_assoc] at hconsumed₂
    cases o with
    | some u => exact ⟨hs₂, hkeeps₂, [t, u], hconsumed₂, ht t rfl, hu u rfl, rfl, rfl⟩
    | none => exact ends_back hs₂ hkeeps₂ hconsumed₂ (hc ▸ (ht t rfl).reads) ⟨rfl, rfl⟩

/-- An assignment takes its name and operator together. -/
theorem assignmentOver_eq (g : Grammar) (ternary : ParseM Node) :
    assignmentOver g ternary = takeBoth [.ident] assignmentOps >>= fun o =>
      match o with
      | some (name, op) =>
        nested g.descend g.assignment >>= fun value =>
          pure (.binOp op.body (.var name.body false) value)
      | none => ternary := by
  simp only [assignmentOver, takeBoth, bind_assoc]
  congr 1
  funext o
  cases o with
  | none => rfl
  | some t =>
    simp only [bind_assoc]
    congr 1
    funext o
    cases o with
    | none => simp only [bind_assoc, pure_bind]
    | some u => rfl

/-! ### Productions -/

namespace Sound

theorem primary (hG : Sound source G) :
    Yields source c (fun d => Grammar.primary (G d)) .primary := by
  simp only [Yields, Grammar.primary, hG.descend]
  refine (TakesOne.next primaryStart).cases Runs.fail fun t ht => ?_
  have hmem := ht.mem
  simp only [List.mem_cons, List.not_mem_nil, or_false] at hmem
  rcases hmem with hk | hk | hk | hk | hk | hk | hk <;> simp only [hk]
  · exact Runs.pure (.number ht.reads hk)
  · exact Runs.pure (.var ht.reads hk)
  · exact Runs.pure (.varDollar ht.reads hk)
  · refine Runs.nested ((hG.arith c).bind fun a ts n ha => ?_)
    obtain ⟨folds, ha⟩ := ha
    refine (TakesOne.next [.rparen]).orFail fun u hu => Runs.pure ?_
    exact (Derives.parentheses ht.reads hk ha hu).cast (by simp) (by omega)
  · exact Runs.nested ((hG.parameter c).mono fun a ts n ha => .primaryParameter ht.reads hk ha)
  · exact Runs.nested ((hG.arithExpansion c).mono fun a ts n ha => .primaryArith ht.reads hk ha)
  · refine Runs.map (Runs.nested ((hG.nestedList c .paren).mono fun a ts n ha => ?_))
    exact .primaryCommand ht.reads hk ha

theorem postOperand (hG : Sound source G) :
    Yields source c (fun d => Grammar.postOperand (G d)) .post := by
  simp only [Yields, Grammar.postOperand]
  refine hG.primary.bind fun a ts n ha => (TakesOne.next behindOps).cases ?_ fun t ht => ?_
  · exact Runs.pure ((Derives.post ha).cast (by simp) (by omega))
  · exact Runs.pure ((Derives.postOp ha ht).cast (by simp) (by omega))

theorem unaryOperand (hG : Sound source G) :
    Yields source c (fun d => Grammar.unaryOperand (G d)) .unary := by
  simp only [Yields, Grammar.unaryOperand, hG.descend]
  refine (TakesOne.next frontOps).cases ?_ fun t ht => ?_
  · exact hG.postOperand.mono fun a ts n ha => .unary ha
  · exact Runs.map (Runs.nested ((hG.unary c).mono fun a ts n ha => .unaryOp ht ha))

theorem powerOperand (hG : Sound source G) :
    Yields source c (fun d => Grammar.powerOperand (G d)) .power := by
  simp only [Yields, Grammar.powerOperand, hG.descend]
  refine hG.unaryOperand.bind fun a ts n ha => (TakesOne.next [.starStar]).cases ?_ fun t ht => ?_
  · exact Runs.pure ((Derives.power ha).cast (by simp) (by omega))
  · exact Runs.map (Runs.nested ((hG.power c).mono fun b us m hb => .powerOp ha ht hb))

/-- A binary operator, if its row is tight enough. -/
theorem binaryOperator (min : Nat) :
    Runs source c (fun _ => Grammar.binaryOperator min) (OrNothing fun op us n =>
      (∃ t, us = [t] ∧ c.Reads t ∧ rowOf? t.kind = some op.1 ∧ min ≤ op.1 ∧ op.2 = t.body) ∧
        n = 0) := by
  simp only [Grammar.binaryOperator]
  refine Runs.look_bind false (Runs.pure ⟨rfl, rfl⟩) fun t ht _ => ?_
  cases hrow : rowOf? t.kind with
  | none =>
    simp only [hrow]
    exact (Runs.pure ⟨rfl, rfl⟩).at
  | some row =>
    simp only [hrow]
    by_cases hmin : row < min
    · simp only [hmin, if_true]
      exact (Runs.pure ⟨rfl, rfl⟩).at
    · simp only [hmin, if_false]
      refine Runs.next_bind_at ht (Runs.pure ?_)
      exact ⟨⟨t, rfl, ht, hrow, Nat.le_of_not_lt hmin, rfl⟩, rfl⟩

theorem binaryOperand (hG : Sound source G) (min : Nat) :
    Runs source c (fun d => Grammar.binaryOperand (G d) min) fun a ts n =>
      ∃ folds, Derives c (.binary min folds) [a] ts n := by
  obtain ⟨steps, hsteps⟩ := hG.steps
  refine Runs.chain (fun folds a ts n => Derives c (.binary min folds) [a] ts n) hG.descend hsteps
    ?_ (binaryOperator min) (fun op => hG.binary c (op.1 + 1)) ?_
  · exact hG.powerOperand.mono fun a ts n ha => .binaryFirst ha
  · intro folds a ts n op us b vs m ha hop hb
    obtain ⟨t, rfl, ht, hrow, hmin, hbody⟩ := hop
    obtain ⟨folds', hb⟩ := hb
    rw [hbody]
    exact .binaryFold ha ht hrow hmin hb

theorem ternaryOperand (hG : Sound source G) :
    Yields source c (fun d => Grammar.ternaryOperand (G d)) .ternary := by
  simp only [Yields, Grammar.ternaryOperand, hG.descend]
  refine (hG.binaryOperand 0).bind fun a ts n ha => ?_
  obtain ⟨folds, ha⟩ := ha
  refine (TakesOne.next [.question]).cases ?_ fun t ht => ?_
  · exact Runs.pure ((Derives.ternary ha).cast (by simp) (by omega))
  · refine Runs.bind (Runs.nested (Q := fun b us m => ∃ folds m',
      m = 1 + m' ∧ Derives c (.comma folds) [b] us m') ?_) fun b us m hb => ?_
    · exact (hG.arith c).mono fun b us m ⟨folds, hb⟩ => ⟨folds, m, rfl, hb⟩
    · obtain ⟨folds', m, rfl, hb⟩ := hb
      refine (TakesOne.next [.colon]).orFail fun u hu => ?_
      refine Runs.map (Runs.nested ((hG.ternary c).mono fun d vs k hd => ?_))
      exact (Derives.ternaryOp ha ht hb hu hd).cast (by simp) (by omega)

theorem assignmentOperand (hG : Sound source G) :
    Yields source c (fun d => Grammar.assignmentOperand (G d)) .assignment := by
  simp only [Yields, assignmentOperand_eq_over, assignmentOver_eq, hG.descend]
  refine (takeBoth_runs _ _).bind fun o ts n ho => ?_
  cases o with
  | none =>
    obtain ⟨rfl, rfl⟩ := ho
    simp only [List.nil_append, Nat.zero_max]
    exact hG.ternaryOperand.mono fun a ts n ha => .assignment ha
  | some both =>
    obtain ⟨t, u⟩ := both
    obtain ⟨ht, hu, rfl, rfl⟩ := ho
    refine Runs.map (Runs.nested ((hG.assignment c).mono fun a ts n ha => ?_))
    exact (Derives.assignmentOp ht hu ha).cast rfl (by omega)

theorem expression (hG : Sound source G) :
    Runs source c (fun d => Grammar.expression (G d)) fun a ts n =>
      ∃ folds, Derives c (.comma folds) [a] ts n := by
  obtain ⟨steps, hsteps⟩ := hG.steps
  have hcomma : Runs source c (fun _ => do return (← next [.comma]).map (·.body))
      (OrNothing fun op us n => (∃ t, us = [t] ∧ c.Finds [.comma] t ∧ op = t.body) ∧ n = 0) := by
    refine (TakesOne.next [.comma]).cases (Runs.pure ⟨rfl, rfl⟩) fun t ht => Runs.pure ?_
    exact ⟨⟨t, rfl, ht, rfl⟩, rfl⟩
  refine Runs.chain (fun folds a ts n => Derives c (.comma folds) [a] ts n) hG.descend hsteps
    ?_ hcomma (fun _ => hG.assignmentOperand) ?_
  · exact hG.assignmentOperand.mono fun a ts n ha => .commaFirst ha
  · intro folds a ts n op us b vs m ha hop hb
    obtain ⟨t, rfl, ht, rfl⟩ := hop
    exact .commaFold ha ht hb

end Sound

end ShellGrammar
