import ShellGrammar.Proofs.Grammar.Arithmetic
import ShellGrammar.Proofs.Pair.Reading

/-! Arithmetic expressions side by side.

`Agree σ g g'` says that the productions one level further in are followed on the right by
theirs, given one character less of room. From that each production of arithmetic is
followed by its own. -/
namespace ShellGrammar
open ParseM Grammar

variable {σ : Setting} {c : Context} {g g' : Grammar} {β : Type}

/-- The productions of `g` are followed by those of `g'`. -/
structure Agree (σ : Setting) (g g' : Grammar) : Prop where
  descend : g.descend = ParseM.descend σ.limit
  descend' : g'.descend = ParseM.descend σ.limit
  steps : g.steps ≤ g'.steps
  doubleQuoted : ∀ c, Paces σ c (g.steps - 1) (fun _ => 0) g.doubleQuoted g'.doubleQuoted
  parameter : ∀ c, Paces σ c (g.steps - 1) (fun _ => 0) g.parameter g'.parameter
  arithExpansion : ∀ c, Paces σ c (g.steps - 1) (fun _ => 0) g.arithExpansion g'.arithExpansion
  nestedList : ∀ c closer, closer ≠ .endOfSource →
    Paces σ c (g.steps - 1) (fun _ => 0) (g.nestedList closer) (g'.nestedList closer)
  arith : ∀ c, Paces σ c (g.steps - 1) (fun _ => 0) g.arith g'.arith
  assignment : ∀ c, Paces σ c (g.steps - 1) (fun _ => 0) g.assignment g'.assignment
  ternary : ∀ c, Paces σ c (g.steps - 1) (fun _ => 0) g.ternary g'.ternary
  binary : ∀ c min, Paces σ c (g.steps - 1) (fun _ => 0) (g.binary min) (g'.binary min)
  power : ∀ c, Paces σ c (g.steps - 1) (fun _ => 0) g.power g'.power
  unary : ∀ c, Paces σ c (g.steps - 1) (fun _ => 0) g.unary g'.unary

/-! ### Operands -/

namespace Agree

theorem primary (hg : Agree σ g g') :
    Paces σ c g.steps (fun _ => 0) (Grammar.primary g) (Grammar.primary g') := by
  simp only [Grammar.primary, hg.descend, hg.descend']
  refine Paces.next_bind rfl .fail fun t t' hmem hkind hbody => ?_
  simp only [hkind, hbody]
  simp only [primaryStart, List.mem_cons, List.not_mem_nil, or_false] at hmem
  rcases hmem with hk | hk | hk | hk | hk | hk | hk <;> simp only [hk]
  · exact .pure rfl
  · exact .pure rfl
  · exact .pure rfl
  · refine .nested ((hg.arith c).bind fun a => ?_)
    exact Paces.next_bind rfl .fail_bind fun _ _ _ _ _ => .pure rfl
  · exact .nested (hg.parameter c)
  · exact .nested (hg.arithExpansion c)
  · exact Paces.bind (.nested (hg.nestedList c .paren (by decide))) fun a => .pure rfl

theorem postOperand (hg : Agree σ g g') :
    Paces σ c g.steps (fun _ => 0) (Grammar.postOperand g) (Grammar.postOperand g') := by
  refine hg.primary.bind fun a => Paces.next_bind rfl (.pure rfl) fun t t' _ _ hbody => ?_
  simp only [hbody]
  exact .pure rfl

theorem unaryOperand (hg : Agree σ g g') :
    Paces σ c g.steps (fun _ => 0) (Grammar.unaryOperand g) (Grammar.unaryOperand g') := by
  simp only [Grammar.unaryOperand, hg.descend, hg.descend']
  refine Paces.next_bind rfl hg.postOperand fun t t' _ _ hbody => ?_
  simp only [hbody]
  exact Paces.bind (.nested (hg.unary c)) fun a => .pure rfl

theorem powerOperand (hg : Agree σ g g') :
    Paces σ c g.steps (fun _ => 0) (Grammar.powerOperand g) (Grammar.powerOperand g') := by
  simp only [Grammar.powerOperand, hg.descend, hg.descend']
  refine hg.unaryOperand.bind fun a => Paces.next_bind rfl (.pure rfl) fun t t' _ _ hbody => ?_
  simp only [hbody]
  exact Paces.bind (.nested (hg.power c)) fun b => .pure rfl

end Agree

/-! ### Binary operators -/

/-- Whether a kind is a binary operator of row `min` or tighter. -/
def isBinaryFrom (min : Nat) (kind : Kind) : Bool := (rowOf? kind).any (min ≤ ·)

/-- The operator at the cursor is taken if its row is tight enough. -/
theorem binaryOperator_eq_take {source : Text} {s : ParseState} (hs : s.lexer.Current source)
    (min : Nat) :
    binaryOperator min s = (take false (isBinaryFrom min) >>= fun o =>
      o.elim (pure none) fun t => pure (some ((rowOf? t.kind).getD 0, t.body))) s := by
  refine look_eq_take hs false [] (isBinaryFrom min) (f := fun t o =>
    pure (o.map fun op => ((rowOf? t.kind).getD 0, op.body))) fun t => ?_
  cases hrow : rowOf? t.kind with
  | none => simp only [isBinaryFrom, hrow, Option.any_none, Bool.false_eq_true, if_false]
  | some row =>
    simp only [isBinaryFrom, hrow, Option.any_some, decide_eq_true_eq, Option.getD_some]
    by_cases hmin : row < min
    · rw [if_pos hmin, if_neg (by omega)]
    · rw [if_neg hmin, if_pos (by omega)]

theorem Paces.binaryOperator (room min : Nat) :
    Paces σ c room some1 (Grammar.binaryOperator min) (Grammar.binaryOperator min) := by
  refine Follows.congr (Follows.take_bind (isBinaryFrom min) ⟨rfl, rfl, rfl⟩ ?_
    (fun t t' _ hkind hbody => ?_) ?_ fun t _ hstr => ?_)
    (fun _ s hs _ => binaryOperator_eq_take hs min) fun _ s hs _ => binaryOperator_eq_take hs min
  · exact .pure rfl
  · simp only [Option.elim_some, hkind, hbody]
    exact .pure rfl
  · exact Lapses.pure fun _ => id
  · cases hstr

theorem Agree.binaryOperand (hg : Agree σ g g') (min : Nat) :
    Paces σ c g.steps (fun _ => 0) (Grammar.binaryOperand g min)
      (Grammar.binaryOperand g' min) :=
  Paces.chain hg.descend hg.descend' hg.steps hg.powerOperand (Paces.binaryOperator g.steps min)
    (fun _ => id) (fun op => hg.binary c (op.1 + 1))
    fun op => (hg.binary c (op.1 + 1)).lapses fun _ _ => id

/-- A ternary, whatever reads its condition. -/
theorem Agree.ternaryOver (hg : Agree σ g g') {binary binary' : ParseM Node}
    (hbinary : Paces σ c g.steps (fun _ => 0) binary binary') :
    Paces σ c g.steps (fun _ => 0) (Grammar.ternaryOver g binary)
      (Grammar.ternaryOver g' binary') := by
  simp only [Grammar.ternaryOver, hg.descend, hg.descend']
  refine hbinary.bind fun cond => Paces.next_bind rfl (.pure rfl) fun _ _ _ _ _ => ?_
  refine Paces.bind (.nested (hg.arith c)) fun yes => ?_
  refine Paces.next_bind rfl .fail_bind fun _ _ _ _ _ => ?_
  exact Paces.bind (.nested ((hg.ternary c).mono (fun _ _ => id) (Nat.sub_le _ _)
    fun _ => Nat.le_refl _)) fun no => .pure rfl

theorem Agree.ternaryOperand (hg : Agree σ g g') :
    Paces σ c g.steps (fun _ => 0) (Grammar.ternaryOperand g) (Grammar.ternaryOperand g') :=
  hg.ternaryOver (hg.binaryOperand 0)

/-! ### Assignments -/

theorem Fails.of_keeps {P : Pair} {s s' s₁ s₁' : ParseState}
    {r r' : EStateM.Result (Halt Fault) ParseState β} (hs : Keeps s s₁) (hs' : Keeps s' s₁')
    (h : Fails P s₁ s₁' r r') : Fails P s s' r r' := by
  obtain ⟨f, s₂, hr, hkeeps, hright⟩ := h
  refine ⟨f, s₂, hr, hs.trans hkeeps, fun htail => ?_⟩
  obtain ⟨s₂', hr', hkeeps'⟩ := hright htail
  exact ⟨s₂', hr', hs'.trans hkeeps'⟩

section Both
variable {kinds : List Kind} {source : Text} {s s₁ s₂ : ParseState} {t u : Token}

theorem takeBoth_some (h : take false (among [.ident]) s = .ok (some t) s₁)
    (hs : s.lexer.Current source) (hs₁ : s₁.lexer.Current source)
    (h' : take false (among kinds) s₁ = .ok (some u) s₂) :
    takeBoth [.ident] kinds s = .ok (some (t, u)) s₂ := by
  rw [← next_eq_take hs] at h
  rw [← next_eq_take hs₁] at h'
  rw [takeBoth, bind_of_ok h]
  exact bind_of_ok h'

/-- A name that no token of the kinds follows is given back. -/
theorem takeBoth_back (hs : s.lexer.Current source) (ht : s.tokenHere = .ok t)
    (h : take false (among [.ident]) s = .ok (some t) s₁) (hs₁ : Reaches source s [t] s₁)
    (h' : take false (among kinds) s₁ = .ok none s₂) (hs₂ : Reaches source s₁ [] s₂) :
    ∃ s₃, takeBoth [.ident] kinds s = .ok none s₃ ∧ Reaches source s [] s₃ := by
  obtain ⟨s₃, hback, hs₃⟩ := back_of_reaches ht (hs₁.trans hs₂)
  refine ⟨s₃, ?_, hs₃⟩
  rw [← next_eq_take hs] at h
  rw [← next_eq_take hs₁.current] at h'
  rw [takeBoth, bind_of_ok h]
  exact (bind_of_ok h').trans (bind_of_ok hback)

theorem takeBoth_none (hs : s.lexer.Current source)
    (h : take false (among [.ident]) s = .ok none s₁) :
    takeBoth [.ident] kinds s = .ok none s₁ := by
  rw [← next_eq_take hs] at h
  rw [takeBoth, bind_of_ok h]
  rfl

/-- What taking a name and an operator does on both sides. -/
theorem Pair.InStep.takeBoth_cases {P : Pair} {limit : Nat} {s s' : ParseState}
    (hs : P.InStep limit s s') (kinds : List Kind) (hkinds : Definite kinds = true) :
    (∃ t u t' u' s₁ s₁', takeBoth [.ident] kinds s = .ok (some (t, u)) s₁ ∧
      takeBoth [.ident] kinds s' = .ok (some (t', u')) s₁' ∧ t'.body = t.body ∧ u'.body = u.body ∧
      Advances P.left true 1 s s₁ ∧ Holds true s' s₁' ∧ P.InStep limit s₁ s₁') ∨
    (∃ s₁ s₁', takeBoth [.ident] kinds s = .ok none s₁ ∧ takeBoth [.ident] kinds s' = .ok none s₁' ∧
      Reaches P.left s [] s₁ ∧ Reaches P.right s' [] s₁') ∨
    (∃ s₁, P.tail ≠ [] ∧ takeBoth [.ident] kinds s = .ok none s₁ ∧ Reaches P.left s [] s₁ ∧
      s.rules.Spent s.here) ∨
    Fails P s s' (takeBoth [.ident] kinds s) (takeBoth [.ident] kinds s') := by
  have hident : Definite [.ident] = true := rfl
  obtain ⟨t, t', s₁, s₁', hrun, hrun', hkind, hpass⟩ | ⟨s₁, s₁', hrun, hrun', hs₁, hs₁'⟩ |
    ⟨_, _, _, _, _, hstr, _⟩ | ⟨s₁, htail, hrun, hs₁, hspent⟩ | hfails :=
      hs.take_cases false (Definite.among hident).1
  · have hstep := hpass.inStep hs
    have hk : t.kind = .ident := by simpa [among] using hkind
    obtain ⟨u, u', s₂, s₂', hnext, hnext', hkind', hpass'⟩ |
      ⟨s₂, s₂', hnext, hnext', hs₂, hs₂'⟩ | ⟨_, _, _, _, _, hstr, _⟩ |
      ⟨s₂, htail, hnext, hs₂, hspent⟩ | hfails :=
        hstep.take_cases false (Definite.among hkinds).1
    · refine .inl ⟨t, u, t', u', s₂, s₂', takeBoth_some hrun hs.left hstep.left hnext,
        takeBoth_some hrun' hs.right hstep.right hnext', hpass.twin.body, hpass'.twin.body, ?_, ?_,
        hpass'.inStep hstep⟩
      · have hpast : Advances P.left true 1 s s₁ :=
          .past hpass.token (by rw [hk]; decide) hpass.reaches
        refine (hpast.trans (.past hpass'.token ?_ hpass'.reaches)).mono (Nat.le_succ 1)
        intro hk'
        rw [hk', (Definite.among hkinds).1.1] at hkind'
        cases hkind'
      · exact hpass.reaches'.keeps.holds.trans hpass'.reaches'.keeps.holds
    · obtain ⟨s₃, hback, hs₃⟩ := takeBoth_back hs.left hpass.token hrun hpass.reaches hnext hs₂
      obtain ⟨s₃', hback', hs₃'⟩ :=
        takeBoth_back hs.right hpass.token' hrun' hpass.reaches' hnext' hs₂'
      exact .inr (.inl ⟨s₃, s₃', hback, hback', hs₃, hs₃'⟩)
    · rw [(Definite.among hkinds).2] at hstr
      cases hstr
    · obtain ⟨s₃, hback, hs₃⟩ := takeBoth_back hs.left hpass.token hrun hpass.reaches hnext hs₂
      refine .inr (.inr (.inl ⟨s₃, htail, hback, hs₃, ?_⟩))
      have hrules : s₁.rules = s.rules := congrArg (·.mode.rules) hpass.reaches.keeps.context
      rw [hpass.reaches.here_one, hrules] at hspent
      exact hspent.of_ident hpass.token hk
    · refine .inr (.inr (.inr ?_))
      rw [← next_eq_take hs.left] at hrun
      rw [← next_eq_take hs.right] at hrun'
      have hleft : takeBoth [.ident] kinds s = (ParseM.next kinds >>= _) s₁ := bind_of_ok hrun
      have hright : takeBoth [.ident] kinds s' = (ParseM.next kinds >>= _) s₁' := bind_of_ok hrun'
      rw [hleft, hright]
      rw [← next_eq_take hstep.left, ← next_eq_take hstep.right] at hfails
      exact .of_keeps hpass.reaches.keeps hpass.reaches'.keeps hfails.bind
  · exact .inr (.inl ⟨s₁, s₁', takeBoth_none hs.left hrun, takeBoth_none hs.right hrun', hs₁, hs₁'⟩)
  · cases hstr
  · exact .inr (.inr (.inl ⟨s₁, htail, takeBoth_none hs.left hrun, hs₁, hspent⟩))
  · refine .inr (.inr (.inr ?_))
    rw [← next_eq_take hs.left, ← next_eq_take hs.right] at hfails
    exact hfails.bind

end Both

/-- An assignment, or whatever reads anything else. -/
theorem Agree.assignmentOver (hg : Agree σ g g') {ternary ternary' : ParseM Node}
    (hternary : Paces σ c g.steps (fun _ => 0) ternary ternary') :
    Paces σ c g.steps (fun _ => 0) (Grammar.assignmentOver g ternary)
      (Grammar.assignmentOver g' ternary') := by
  simp only [assignmentOver_eq, hg.descend, hg.descend']
  intro P hP s s' hs hc
  have hrules : s.rules = c.mode.rules := by rw [← hc]; rfl
  obtain ⟨t, u, t', u', s₁, s₁', hrun, hrun', hbody, hbody', hadvances, hholds, hstep⟩ |
    ⟨s₁, s₁', hrun, hrun', hs₁, hs₁'⟩ | ⟨s₁, htail, hrun, hs₁, hspent⟩ | hfails :=
      hs.takeBoth_cases assignmentOps rfl
  · rw [bind_of_ok hrun, bind_of_ok hrun']
    simp only [hbody, hbody']
    have hvalue : Paces σ c (g.steps - 1) (fun _ => 0)
        (nested (ParseM.descend σ.limit) g.assignment >>= fun value =>
          pure (Node.binOp u.body (.var t.body false) value))
        (nested (ParseM.descend σ.limit) g'.assignment >>= fun value =>
          pure (Node.binOp u.body (.var t.body false) value)) :=
      Paces.bind (.nested (hg.assignment c)) fun value => .pure rfl
    exact .after hadvances hholds
      (hvalue P hP s₁ s₁' hstep (hadvances.holds.context.trans hc))
  · rw [bind_of_ok hrun, bind_of_ok hrun']
    exact .after (.ofNil hs.left hs₁) hs₁'.keeps.holds
      (hternary P hP s₁ s₁' (hs.stay hs₁ hs₁') (hs₁.keeps.context.trans hc))
  · have hc₁ := hs₁.keeps.context.trans hc
    rw [bind_of_ok hrun]
    refine .afterLost (.ofNil hs.left hs₁) htail
      (hternary (.same P.left) (σ.admits_same _) s₁ s₁ (Pair.inStep_same hs₁.current) hc₁)
      (hternary.lapses (fun _ _ => id) P.left s₁ hs₁.current hc₁ ?_)
    rw [hs₁.here_nil hs.left, Context.Spent, ← hrules]
    exact hspent
  · exact hfails.bind.tracks

theorem Agree.assignmentOperand (hg : Agree σ g g') :
    Paces σ c g.steps (fun _ => 0) (Grammar.assignmentOperand g)
      (Grammar.assignmentOperand g') :=
  hg.assignmentOver hg.ternaryOperand

/-- Operators whose text is all that is taken of them. -/
theorem Paces.operatorAmong {kinds : List Kind} (hkinds : Definite kinds = true) (room : Nat) :
    Paces σ c room some1 (Grammar.operatorAmong kinds) (Grammar.operatorAmong kinds) := by
  refine Paces.next_bind hkinds (.pure rfl) fun t t' _ _ hbody => ?_
  simp only [Option.map_some, hbody]
  exact .pure rfl

/-- Anything joined by commas. -/
theorem Agree.expressionOver (hg : Agree σ g g') {assignment assignment' : ParseM Node}
    (hassignment : Paces σ c g.steps (fun _ => 0) assignment assignment') :
    Paces σ c g.steps (fun _ => 0) (Grammar.expressionOver g assignment)
      (Grammar.expressionOver g' assignment') := by
  refine Paces.chain hg.descend hg.descend' hg.steps hassignment (Paces.operatorAmong rfl _)
    (fun _ => id) (fun _ => ?_) fun _ => hassignment.lapses fun _ _ => id
  exact hassignment.mono (fun _ _ => id) (Nat.sub_le _ _) fun _ => Nat.le_refl _

theorem Agree.expression (hg : Agree σ g g') :
    Paces σ c g.steps (fun _ => 0) (Grammar.expression g) (Grammar.expression g') :=
  hg.expressionOver hg.assignmentOperand

end ShellGrammar
