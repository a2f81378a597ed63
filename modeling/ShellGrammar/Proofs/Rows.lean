import ShellGrammar.Proofs.Pair.Command

/-! Climbing the rows of binary operators is recursive descent, one row after another.

The loop of `binaryOperand` takes operators of all the rows from some `min` inward and
joins them into one tree. The layered grammar has a loop for each row. The two meet in
`climb_split`: a loop from row `min` inward is a loop from the next row inward and then a
loop over the operators of row `min` alone. For when an operator of row `min` has taken its
right side, that side was read from the next row inward, so what follows is no operator of
those rows, and the first of the two loops would end at once. Row by row this takes the
one loop apart into ten.

All that is said here is about runs without a limit on levels, where how many levels are
open is seen by no one. -/
namespace ShellGrammar
open ParseM Grammar

variable {σ : Setting} {c : Context} {g g' : Grammar} {β : Type}

/-! ### Looking twice -/

theorem LexM.current_eq {l l' : Lexer} {t : Token} (h : current l = .ok t l') :
    l' = l ∧ l.tokens[l.next]? = some t := by
  unfold current at h
  cases hget : l.tokens[l.next]? with
  | none =>
    rw [hget] at h
    cases h
  | some u =>
    rw [hget] at h
    cases h
    exact ⟨rfl, rfl⟩

/-- Once the token at the cursor was looked at, a look at it changes nothing. -/
theorem LexM.peekAny_again {l l' : Lexer} {t : Token} (h : peekAny l = .ok t l') :
    peekAny l' = .ok t l' := by
  have hcurrent : ∃ l₀, current l₀ = .ok t l' := by
    unfold peekAny at h
    split at h
    · exact ⟨l, h⟩
    · obtain ⟨_, l₀, _, hl₀⟩ := ok_of_bind h
      exact ⟨l₀, hl₀⟩
  obtain ⟨l₀, hl₀⟩ := hcurrent
  obtain ⟨rfl, hget⟩ := current_eq hl₀
  have hlt : l'.next < l'.tokens.size := (Array.getElem?_eq_some_iff.mp hget).1
  rw [peekAny, if_pos hlt]
  exact hl₀

namespace ParseM
variable {s s₁ : ParseState} {t : Token}

theorem lexing_eq_ok {α : Type} {act : LexM α} {a : α} (h : lexing act s = .ok a s₁) :
    ∃ l, act s.lexer = .ok a l ∧ s₁ = { s with lexer := l } := by
  rw [lexing_eq] at h
  cases hact : act s.lexer with
  | error e l =>
    rw [hact] at h
    cases h
  | ok b l =>
    rw [hact] at h
    cases h
    exact ⟨l, rfl, rfl⟩

theorem peekAny_again (h : peekAny s = .ok t s₁) : peekAny s₁ = .ok t s₁ := by
  obtain ⟨l, hl, rfl⟩ := lexing_eq_ok h
  rw [peekAny, lexing_eq, LexM.peekAny_again hl]

/-- How many levels are open is nothing to a look at the token at the cursor. -/
theorem peekAny_depth (h : peekAny s = .ok t s₁) (depth : Nat) :
    peekAny { s with depth } = .ok t { s₁ with depth } := by
  obtain ⟨l, hl, rfl⟩ := lexing_eq_ok h
  rw [peekAny, lexing_eq, hl]

/-- Past the token at the cursor. -/
def past (s : ParseState) : ParseState := { s with lexer := s.lexer.consume }

theorem next_of_peekAny (h : peekAny s = .ok t s₁) (kinds : List Kind) :
    next kinds s =
      if t.isVisible kinds s₁.lexer.mode.allowBlank then .ok (some t) (past s₁)
      else .ok none s₁ := by
  obtain ⟨l, hl, rfl⟩ := lexing_eq_ok h
  rw [next, lexing_eq, LexM.next_eq, hl]
  by_cases hv : t.isVisible kinds l.mode.allowBlank = true
  · simp only [hv, if_true, past]
  · simp only [hv]
    rfl

theorem peek_of_peekAny (h : peekAny s = .ok t s₁) (kinds : List Kind) :
    peek kinds s =
      .ok (if t.isVisible kinds s₁.lexer.mode.allowBlank then some t else none) s₁ := by
  obtain ⟨l, hl, rfl⟩ := lexing_eq_ok h
  rw [peek, lexing_eq, LexM.peek_eq, hl]

/-- Where looking stops, so does taking. -/
theorem next_of_error {e : Halt Fault} (h : peekAny s = .error e s₁) (kinds : List Kind) :
    next kinds s = .error e s₁ := by
  rw [peekAny, lexing_eq] at h
  rw [next, lexing_eq, LexM.next_eq]
  cases hl : LexM.peekAny s.lexer with
  | ok t l =>
    rw [hl] at h
    cases h
  | error e l =>
    rw [hl] at h
    cases h
    rfl

theorem peek_of_error {e : Halt Fault} (h : peekAny s = .error e s₁) (kinds : List Kind) :
    peek kinds s = .error e s₁ := by
  rw [peekAny, lexing_eq] at h
  rw [peek, lexing_eq, LexM.peek_eq]
  cases hl : LexM.peekAny s.lexer with
  | ok t l =>
    rw [hl] at h
    cases h
  | error e l =>
    rw [hl] at h
    cases h
    rfl

/-- The token at the cursor was looked at. -/
def Looked (s : ParseState) : Prop := ∃ t, peekAny s = .ok t s

/-- Whoever takes no token has looked at one. -/
theorem looked_of_next {kinds : List Kind} (h : next kinds s = .ok none s₁) : Looked s₁ := by
  cases hpeek : peekAny s with
  | error e s₂ =>
    rw [next_of_error hpeek] at h
    cases h
  | ok t s₂ =>
    rw [next_of_peekAny hpeek] at h
    split at h
    · cases h
    · cases h
      exact ⟨t, peekAny_again hpeek⟩

theorem Looked.depth (h : Looked s) (depth : Nat) : Looked { s with depth } := by
  obtain ⟨t, ht⟩ := h
  exact ⟨t, peekAny_depth ht depth⟩

end ParseM

/-! ### The operators of a row -/

/-- The row of an operator is the one that holds it: no operator is in two. -/
theorem rowOf?_eq_some_iff {kind : Kind} {n : Nat} {kinds : List Kind}
    (hn : binaryRows[n]? = some kinds) : rowOf? kind = some n ↔ kinds.contains kind = true := by
  have hapart : ∀ i < 10, ∀ j < i, ∀ k ∈ (binaryRows[i]?).getD [],
      ((binaryRows[j]?).getD []).contains k = false := by decide
  obtain ⟨hlt, hget⟩ := List.getElem?_eq_some_iff.mp hn
  rw [rowOf?, List.findIdx?_eq_some_iff_getElem]
  constructor
  · rintro ⟨_, hcontains, _⟩
    rw [← hget]
    exact hcontains
  · intro hcontains
    refine ⟨hlt, by rw [hget]; exact hcontains, fun j hj => ?_⟩
    have hnot := hapart n hlt j hj kind (by rw [hn]; exact List.contains_iff_mem.mp hcontains)
    rw [List.getElem?_eq_getElem (Nat.lt_trans hj hlt), Option.getD_some] at hnot
    rw [hnot]
    exact Bool.false_ne_true

theorem ne_nil_of_row {n : Nat} {kinds : List Kind} (hn : binaryRows[n]? = some kinds) :
    kinds ≠ [] := by
  have hall : ∀ row ∈ binaryRows, row ≠ [] := by decide
  exact hall kinds (List.mem_of_getElem? hn)

/-- An operator from row `min` inward is one from the next row inward or one of its own. -/
theorem isBinaryFrom_succ {min : Nat} {kinds : List Kind} (hn : binaryRows[min]? = some kinds)
    (kind : Kind) :
    isBinaryFrom min kind = (isBinaryFrom (min + 1) kind || kinds.contains kind) := by
  have hiff : rowOf? kind = some min ↔ kinds.contains kind = true := rowOf?_eq_some_iff hn
  cases hrow : rowOf? kind with
  | none =>
    have hnot : kinds.contains kind = false := by
      rw [← Bool.not_eq_true, ← hiff, hrow]
      exact nofun
    simp only [isBinaryFrom, hrow, hnot, Option.any_none, Bool.or_false]
  | some row =>
    by_cases heq : row = min
    · have hyes : kinds.contains kind = true := hiff.mp (by rw [hrow, heq])
      simp only [isBinaryFrom, hrow, heq, hyes, Option.any_some, Bool.or_true, Nat.le_refl,
        decide_true]
    · have hnot : kinds.contains kind = false := by
        rw [← Bool.not_eq_true, ← hiff, hrow]
        exact fun h => heq (Option.some.inj h)
      simp only [isBinaryFrom, hrow, hnot, Option.any_some, Bool.or_false, decide_eq_decide]
      omega

theorem isBinaryFrom_ten {min : Nat} (h : 10 ≤ min) (kind : Kind) :
    isBinaryFrom min kind = false := by
  cases hrow : rowOf? kind with
  | none => simp only [isBinaryFrom, hrow, Option.any_none]
  | some row =>
    have := rowOf?_lt hrow
    simp only [isBinaryFrom, hrow, Option.any_some, decide_eq_false_iff_not]
    omega

section Operators
variable {s s₁ : ParseState} {t : Token} {min : Nat}

/-- Whether the token that was looked at can be seen. -/
def visible (s : ParseState) (t : Token) : Bool := t.isVisible [] s.lexer.mode.allowBlank

theorem binaryOperator_of_peekAny (h : peekAny s = .ok t s₁) (min : Nat) :
    binaryOperator min s =
      if isBinaryFrom min t.kind && visible s₁ t then
        .ok (some ((rowOf? t.kind).getD 0, t.body)) (past s₁)
      else .ok none s₁ := by
  rw [binaryOperator, bind_of_ok (peek_of_peekAny h [])]
  cases hv : t.isVisible [] s₁.lexer.mode.allowBlank with
  | false =>
    simp only [visible, hv, Bool.and_false, Bool.false_eq_true, if_false]
    rfl
  | true =>
    have hnext := next_of_peekAny (peekAny_again h) []
    rw [hv, if_pos rfl] at hnext
    cases hrow : rowOf? t.kind with
    | none =>
      simp only [isBinaryFrom, hrow, Option.any_none, Bool.false_and, Bool.false_eq_true, if_false,
        if_true]
      rfl
    | some row =>
      simp only [isBinaryFrom, hrow, Option.any_some, visible, hv, Bool.and_true, if_true,
        decide_eq_true_eq, Option.getD_some]
      by_cases hlt : row < min
      · rw [if_pos hlt, if_neg (by omega)]
        rfl
      · rw [if_neg hlt, if_pos (by omega), bind_of_ok hnext]
        rfl

theorem binaryOperator_of_error {e : Halt Fault} (h : peekAny s = .error e s₁) (min : Nat) :
    binaryOperator min s = .error e s₁ :=
  bind_of_error (peek_of_error h [])

theorem operatorAmong_of_peekAny (h : peekAny s = .ok t s₁) {kinds : List Kind}
    (hne : kinds ≠ []) :
    operatorAmong kinds s =
      if kinds.contains t.kind && visible s₁ t then .ok (some t.body) (past s₁)
      else .ok none s₁ := by
  have hvisible : t.isVisible kinds s₁.lexer.mode.allowBlank =
      (kinds.contains t.kind && visible s₁ t) := by
    have hempty : kinds.isEmpty = false := by
      rw [← Bool.not_eq_true, List.isEmpty_iff]
      exact hne
    simp only [Token.isVisible, visible, hempty, Bool.false_or, List.isEmpty_nil, Bool.true_or,
      Bool.true_and]
  have hnext := next_of_peekAny h kinds
  rw [hvisible] at hnext
  by_cases hv : (kinds.contains t.kind && visible s₁ t) = true
  · rw [if_pos hv] at hnext ⊢
    exact bind_of_ok hnext
  · rw [if_neg hv] at hnext ⊢
    exact bind_of_ok hnext

/-- Where an operator was looked for and none was found, none is found again. -/
theorem binaryOperator_again (h : binaryOperator min s = .ok none s₁) (depth : Nat) :
    binaryOperator min { s₁ with depth } = .ok none { s₁ with depth } := by
  cases hpeek : peekAny s with
  | error e s₂ =>
    rw [binaryOperator_of_error hpeek] at h
    cases h
  | ok t s₂ =>
    rw [binaryOperator_of_peekAny hpeek] at h
    split at h
    · cases h
    · rename_i hnot
      cases h
      rw [binaryOperator_of_peekAny (peekAny_depth (peekAny_again hpeek) depth)]
      exact if_neg hnot

end Operators

/-! ### The loop of a chain -/

section ChainRest
variable {descend : ParseM Unit} {operator : ParseM (Option β)} {operand : β → ParseM Node}
  {join : β → Node → Node → Node} {bound : Nat} {left right : Node} {op : β}
  {s s₁ s₂ s₃ : ParseState} {e : Halt Fault}

theorem chainRest_none (h : operator s = .ok none s₁) :
    chainRest descend operator operand join (bound + 1) left s = .ok left s₁ :=
  bind_of_ok h

theorem chainRest_error (h : operator s = .error e s₁) :
    chainRest descend operator operand join (bound + 1) left s = .error e s₁ :=
  bind_of_error h

theorem chainRest_some (h : operator s = .ok (some op) s₁) (hopen : descend s₁ = .ok () s₂) :
    chainRest descend operator operand join (bound + 1) left s =
      (operand op >>= fun right =>
        chainRest descend operator operand join bound (join op left right)) s₂ :=
  (bind_of_ok h).trans (bind_of_ok hopen)

/-- A loop that ends well has looked for one more operator and found none. -/
theorem none_of_chainRest : ∀ {bound left s},
    chainRest descend operator operand join bound left s = .ok right s₃ →
      ∃ s₀, operator s₀ = .ok none s₃
  | 0, _, _, h => nomatch h
  | bound + 1, left, s, h => by
    obtain ⟨o, s₁, hop, hrest⟩ := ok_of_bind h
    cases o with
    | none =>
      cases hrest
      exact ⟨s, hop⟩
    | some op =>
      obtain ⟨_, s₂, _, hrest⟩ := ok_of_bind hrest
      obtain ⟨b, s₄, _, hrest⟩ := ok_of_bind hrest
      exact none_of_chainRest hrest

end ChainRest

theorem folding_eq {α : Type} (act : ParseM α) (s : ParseState) :
    folding act s =
      match act s with
      | .ok a s₁ => .ok a { s₁ with depth := s.depth }
      | .error e s₁ => .error e { s₁ with depth := s.depth } := by
  show ensuring act (modify fun s₁ => { s₁ with depth := s.depth }) s = _
  unfold ensuring
  cases act s <;> rfl

theorem ok_of_nested {α : Type} {descend : ParseM Unit} {act : ParseM α} {a : α}
    {s s₁ : ParseState} (h : nested descend act s = .ok a s₁) :
    ∃ s₂ s₃ depth, act s₂ = .ok a s₃ ∧ s₁ = { s₃ with depth } := by
  obtain ⟨_, s₂, _, h⟩ := ok_of_bind h
  unfold ensuring at h
  cases hact : act s₂ with
  | error e s₃ =>
    simp only [hact] at h
    split at h <;> cases h
  | ok b s₃ =>
    simp only [hact, ascend] at h
    cases hdepth : s₃.depth with
    | zero =>
      simp only [hdepth] at h
      cases h
    | succ depth =>
      simp only [hdepth] at h
      cases h
      exact ⟨s₂, s₃, depth, hact, rfl⟩

/-! ### Taking the loop apart -/

/-- Operands from a row inward leave nothing behind that they could have taken. -/
def Sated (g : Grammar) : Prop :=
  ∀ min s a s₁, g.binary min s = .ok a s₁ → binaryOperator min s₁ = .ok none s₁

theorem binaryOperand_sated {min : Nat} {s s₁ : ParseState} {a : Node}
    (h : binaryOperand g min s = .ok a s₁) : binaryOperator min s₁ = .ok none s₁ := by
  rw [binaryOperand, chain, folding_eq] at h
  split at h
  · rename_i hact
    cases h
    obtain ⟨left, s₂, _, hrest⟩ := ok_of_bind hact
    obtain ⟨s₃, hnone⟩ := none_of_chainRest hrest
    exact binaryOperator_again hnone s.depth
  · cases h

/-- The loop over operators from row `min` inward. -/
def climbRest (g : Grammar) (min bound : Nat) (left : Node) : ParseM Node :=
  chainRest g.descend (binaryOperator min) (fun op => g.binary (op.1 + 1))
    (fun op left right => .binOp op.2 left right) bound left

/-- The loop over the operators of row `min`, which are of some kinds. -/
def rowRest (g : Grammar) (kinds : List Kind) (min bound : Nat) (left : Node) : ParseM Node :=
  chainRest g.descend (operatorAmong kinds) (fun _ => g.binary (min + 1)) .binOp bound left

/-- What a run without enough steps comes to is not compared. -/
def Breaches {α : Type} (r : EStateM.Result (Halt Fault) ParseState α) : Prop :=
  ∃ b s, r = .error (.breach b) s

/-- A loop from row `min` inward is one from the next row inward and then one over row
`min`. -/
theorem climb_split (hopen : ∀ s, g.descend s = .ok () s.deeper) (hsated : Sated g) {min : Nat}
    {kinds : List Kind} (hrow : binaryRows[min]? = some kinds) :
    ∀ {bound bound₁ bound₂ : Nat}, bound ≤ bound₁ → bound ≤ bound₂ → ∀ left s,
      Breaches (climbRest g min bound left s) ∨
        climbRest g min bound left s =
          (climbRest g (min + 1) bound₁ left >>= rowRest g kinds min bound₂) s
  | 0, _, _, _, _, _, s => .inl ⟨.outOfSteps, s, rfl⟩
  | bound + 1, 0, _, hle, _, _, _ => absurd hle (Nat.not_succ_le_zero _)
  | bound + 1, _ + 1, 0, _, hle, _, _ => absurd hle (Nat.not_succ_le_zero _)
  | bound + 1, bound₁ + 1, bound₂ + 1, hle₁, hle₂, left, s => by
    cases hpeek : peekAny s with
    | error e s₁ =>
      right
      rw [climbRest, chainRest_error (binaryOperator_of_error hpeek min)]
      exact (bind_of_error (chainRest_error (binaryOperator_of_error hpeek (min + 1)))).symm
    | ok t s₁ =>
      have hop := binaryOperator_of_peekAny hpeek min
      have hop₁ := binaryOperator_of_peekAny hpeek (min + 1)
      have hop₂ := operatorAmong_of_peekAny (peekAny_again hpeek) (ne_nil_of_row hrow)
      rw [isBinaryFrom_succ hrow, Bool.and_or_distrib_right] at hop
      by_cases htighter : (isBinaryFrom (min + 1) t.kind && visible s₁ t) = true
      · -- An operator past row `min` is taken by the first of the two loops.
        rw [htighter, Bool.true_or, if_pos rfl] at hop
        rw [if_pos htighter] at hop₁
        rw [climbRest, climbRest, chainRest_some hop (hopen _)]
        cases hright : g.binary ((rowOf? t.kind).getD 0 + 1) (past s₁).deeper with
        | error e s₂ =>
          right
          rw [bind_of_error hright]
          refine (bind_of_error ?_).symm
          rw [chainRest_some hop₁ (hopen _)]
          exact bind_of_error hright
        | ok right s₂ =>
          rw [bind_of_ok hright, bind_of_eq ((chainRest_some hop₁ (hopen _)).trans
            (bind_of_ok hright))]
          exact climb_split hopen hsated hrow (Nat.le_of_succ_le_succ hle₁)
            (Nat.le_of_succ_le hle₂) _ s₂
      · rw [if_neg htighter] at hop₁
        rw [Bool.not_eq_true] at htighter
        have hfirst : (climbRest g (min + 1) (bound₁ + 1) left >>= rowRest g kinds min (bound₂ + 1)) s =
            rowRest g kinds min (bound₂ + 1) left s₁ := bind_of_ok (chainRest_none hop₁)
        rw [hfirst]
        by_cases hown : (kinds.contains t.kind && visible s₁ t) = true
        · -- One of row `min` is taken by the second, and its right side ends the first.
          have hmin : rowOf? t.kind = some min :=
            (rowOf?_eq_some_iff hrow).mpr (Bool.and_eq_true_iff.mp hown).1
          rw [hown, Bool.or_true, if_pos rfl, hmin, Option.getD_some] at hop
          rw [if_pos hown] at hop₂
          rw [climbRest, rowRest, chainRest_some hop (hopen _), chainRest_some hop₂ (hopen _)]
          cases hright : g.binary (min + 1) (past s₁).deeper with
          | error e s₂ =>
            right
            rw [bind_of_error hright, bind_of_error hright]
          | ok right s₂ =>
            rw [bind_of_ok hright, bind_of_ok hright]
            have hends : climbRest g (min + 1) (bound₁ + 1) (.binOp t.body left right) s₂ =
                .ok (.binOp t.body left right) s₂ :=
              chainRest_none (hsated _ _ _ _ hright)
            have hle₁' : bound ≤ bound₁ + 1 := Nat.le_of_succ_le hle₁
            have hrest := climb_split hopen hsated hrow hle₁' (Nat.le_of_succ_le_succ hle₂)
              (.binOp t.body left right) s₂
            rw [bind_of_ok hends] at hrest
            exact hrest
        · right
          rw [Bool.not_eq_true] at hown
          rw [htighter, hown, Bool.or_false, if_neg Bool.false_ne_true] at hop
          rw [hown, if_neg Bool.false_ne_true] at hop₂
          rw [climbRest, rowRest, chainRest_none hop, chainRest_none hop₂]

/-! ### Without levels -/

/-- With nothing open to close, closing levels changes nothing. -/
theorem Follows.ofFolding {α : Type} {D : α → Scan → Prop} {room : Nat} {ate : α → Nat}
    {act act' : ParseM α} (hlimit : σ.limit = 0)
    (h : Follows σ c true D room ate (ParseM.folding act) act') :
    Follows σ c false D room ate act act' := by
  intro P hP s s' hs hc
  have htracks := h P hP s s' hs hc
  rw [folding_eq] at htracks
  cases hrun : act s with
  | ok a s₁ =>
    rw [hrun] at htracks
    obtain ⟨hadvances, hright⟩ := htracks
    have hholds : Holds false s s₁ := ⟨hadvances.holds.modes, hadvances.holds.inBackquote, nofun⟩
    refine ⟨⟨hadvances.current, hholds, hadvances.suffix, hadvances.ate_le⟩, ?_⟩
    obtain ⟨s₁', hok, hholds', hstep⟩ | hlost := hright
    · refine .inl ⟨s₁', hok, hholds'.opened, ?_⟩
      exact ⟨hstep.left, hstep.right, hstep.context, fun hne => absurd hlimit hne, hstep.beside⟩
    · exact .inr hlost
  | error e s₁ =>
    rw [hrun] at htracks
    cases e with
    | breach b => exact ⟨⟨htracks.1.modes, htracks.1.inBackquote, nofun⟩, htracks.2⟩
    | fault f =>
      refine ⟨⟨htracks.1.modes, htracks.1.inBackquote, nofun⟩, fun htail => ?_⟩
      obtain ⟨s₁', herr, hholds⟩ := htracks.2 htail
      exact ⟨s₁', herr, hholds.opened⟩

/-- What is followed may be put in other terms, where it has enough steps. -/
theorem Follows.unlessBreach {α : Type} {D : α → Scan → Prop} {room : Nat} {ate : α → Nat}
    {closed : Bool} {act act₁ act' act'' : ParseM α} (hself : Follows σ c closed D room ate act act'')
    (heq : ∀ s, Breaches (act s) ∨ act s = act₁ s) (h : Follows σ c closed D room ate act₁ act') :
    Follows σ c closed D room ate act act' := by
  intro P hP s s' hs hc
  rcases heq s with ⟨b, s₁, hbreach⟩ | heq
  · have htracks := hself P hP s s' hs hc
    rw [hbreach] at htracks ⊢
    exact htracks
  · rw [heq]
    exact h P hP s s' hs hc

/-! ### Rows -/

/-- Behind a power the next token was looked at. -/
def PowerLooks (g : Grammar) : Prop := ∀ s a s₁, g.power s = .ok a s₁ → Looked s₁

theorem powerOperand_looked (hg : PowerLooks g) {s s₁ : ParseState} {a : Node}
    (h : powerOperand g s = .ok a s₁) : Looked s₁ := by
  obtain ⟨base, s₂, _, hrest⟩ := ok_of_bind h
  obtain ⟨o, s₃, hnext, hrest⟩ := ok_of_bind hrest
  cases o with
  | none =>
    cases hrest
    exact looked_of_next hnext
  | some op =>
    obtain ⟨b, s₄, hpower, hrest⟩ := ok_of_bind hrest
    cases hrest
    obtain ⟨s₅, s₆, depth, hright, rfl⟩ := ok_of_nested hpower
    exact (hg _ _ _ hright).depth depth

theorem powerLooks_level (descend : ParseM Unit) : ∀ n, PowerLooks (Grammar.level descend n)
  | 0 => fun _ _ _ h => nomatch h
  | n + 1 => fun _ _ _ h => powerOperand_looked (powerLooks_level descend n) h

theorem sated_level (descend : ParseM Unit) : ∀ n, Sated (Grammar.level descend n)
  | 0 => fun _ _ _ _ h => nomatch h
  | _ + 1 => fun _ _ _ _ h => binaryOperand_sated h

/-- Past the last row there are no operators to climbRest. -/
theorem binaryOperand_ten (hg : PowerLooks g) {min : Nat} (hmin : 10 ≤ min) (s : ParseState) :
    Breaches (binaryOperand g min s) ∨ binaryOperand g min s = folding (powerOperand g) s := by
  rw [binaryOperand, chain, folding_eq, folding_eq]
  cases hfirst : powerOperand g s with
  | error e s₁ =>
    right
    rw [bind_of_error hfirst]
  | ok a s₁ =>
    rw [bind_of_ok hfirst]
    cases g.steps with
    | zero => exact .inl ⟨_, _, rfl⟩
    | succ bound =>
      right
      obtain ⟨t, ht⟩ := powerOperand_looked hg hfirst
      have hnone := binaryOperator_of_peekAny ht min
      rw [isBinaryFrom_ten hmin, Bool.false_and, if_neg Bool.false_ne_true] at hnone
      rw [chainRest_none hnone]

/-- Row `min` and the rows past it, each with a loop of its own. -/
theorem binaryOperand_split (hopen : ∀ s, g.descend s = .ok () s.deeper) (hsated : Sated g)
    {min : Nat} {kinds : List Kind} (hrow : binaryRows[min]? = some kinds) (s : ParseState) :
    Breaches (binaryOperand g min s) ∨
      binaryOperand g min s = folding ((powerOperand g >>= climbRest g (min + 1) g.steps) >>=
        rowRest g kinds min g.steps) s := by
  rw [binaryOperand, chain, folding_eq, folding_eq, bind_assoc]
  cases hfirst : powerOperand g s with
  | error e s₁ =>
    right
    rw [bind_of_error hfirst, bind_of_error hfirst]
  | ok a s₁ =>
    rw [bind_of_ok hfirst, bind_of_ok hfirst]
    rcases climb_split hopen hsated hrow (Nat.le_refl g.steps) (Nat.le_refl g.steps) a s₁ with
      ⟨b, s₂, hbreach⟩ | heq
    · refine .inl ⟨b, { s₂ with depth := s.depth }, ?_⟩
      rw [climbRest] at hbreach
      rw [hbreach]
    · right
      rw [← heq]
      rfl

/-- Closing levels after a computation that leaves none open changes nothing. -/
theorem Follows.foldingClosed {α : Type} {D : α → Scan → Prop} {room : Nat} {ate : α → Nat}
    {act act' : ParseM α} (h : Follows σ c true D room ate act act') :
    Follows σ c true D room ate (ParseM.folding act) act' := by
  intro P hP s s' hs hc
  have htracks := h P hP s s' hs hc
  have hsame : ParseM.folding act s = act s := by
    rw [folding_eq]
    cases hrun : act s with
    | ok a s₁ =>
      rw [hrun] at htracks
      simp only [← htracks.1.holds.depth rfl]
    | error e s₁ =>
      rw [hrun] at htracks
      cases e with
      | fault f => simp only [← htracks.1.depth rfl]
      | breach b => simp only [← htracks.1.depth rfl]
  rw [hsame]
  exact htracks

/-- The kinds of a row are those of no text and no end. -/
theorem definite_of_row {n : Nat} {kinds : List Kind} (hn : binaryRows[n]? = some kinds) :
    Definite kinds = true := by
  have hall : ∀ row ∈ binaryRows, Definite row = true := by decide
  exact hall kinds (List.mem_of_getElem? hn)

section Rows
variable (hlimit : σ.limit = 0)
include hlimit

/-- Climbing from row `min` inward is followed by a loop for each row, if that is so of the
right sides that operators take. -/
theorem Agree.rowOperand (hg : Agree σ g g') (hlooks : PowerLooks g) (hsated : Sated g)
    (hbinary : ∀ min, Paces σ c (g.steps - 1) (fun _ => 0) (g.binary min)
      (Grammar.rowOperand g' (binaryRows.drop min))) :
    ∀ rows min, rows = binaryRows.drop min →
      Paces σ c g.steps (fun _ => 0) (Grammar.binaryOperand g min) (Grammar.rowOperand g' rows)
  | [], min, hdrop => by
    have hmin : 10 ≤ min := List.drop_eq_nil_iff.mp hdrop.symm
    exact Follows.unlessBreach (hg.binaryOperand min) (binaryOperand_ten hlooks hmin)
      hg.powerOperand.foldingClosed
  | kinds :: tighter, min, hdrop => by
    have hrow : binaryRows[min]? = some kinds := by
      rw [← List.head?_drop, ← hdrop, List.head?_cons]
    have htighter : tighter = binaryRows.drop (min + 1) := by
      rw [← List.tail_drop, ← hdrop, List.tail_cons]
    have hopen : ∀ s, g.descend s = .ok () s.deeper := by
      intro s
      rw [hg.descend, hlimit, descend_zero]
      rfl
    have hfirst : Follows σ c false (fun _ => c.Spent) g.steps (fun _ => 0)
        (Grammar.powerOperand g >>= climbRest g (min + 1) g.steps) (Grammar.rowOperand g' tighter) :=
      .ofFolding hlimit (rowOperand hg hlooks hsated hbinary tighter (min + 1) htighter)
    have hrest := fun left => Follows.chainRest .binOp (Paces.operatorAmong
      (definite_of_row hrow) g.steps) (fun _ => id) (fun _ : Text => htighter ▸ hbinary (min + 1))
      (fun _ => (hbinary (min + 1)).lapses fun _ _ => id) g.steps g'.steps (Nat.le_refl _) hg.steps
      left
    refine Follows.unlessBreach (hg.binaryOperand min) (binaryOperand_split hopen hsated hrow) ?_
    rw [Grammar.rowOperand, ParseM.chain, hg.descend']
    refine .folding (hfirst.bind (fun left => ?_) fun left => ?_)
    · rw [rowRest, hg.descend]
      exact hrest left
    · rw [rowRest, hg.descend]
      exact (hrest left).lapses fun _ _ => id

/-- The productions of a level and of all below it are followed by those of `g'`. -/
def AgreeUpTo (σ : Setting) (n : Nat) (g' : Grammar) : Prop :=
  ∀ m ≤ n, Agree σ (Grammar.level (ParseM.descend σ.limit) m) g'

namespace AgreeUpTo
variable {n : Nat}

/-- Climbing at a level is followed by a loop for each row. -/
theorem rowOperand : ∀ {n}, AgreeUpTo σ n g' → ∀ min,
    Paces σ c (Grammar.level (ParseM.descend σ.limit) n).steps (fun _ => 0)
      (Grammar.binaryOperand (Grammar.level (ParseM.descend σ.limit) n) min)
      (Grammar.rowOperand g' (binaryRows.drop min))
  | 0, hg, min =>
    (hg 0 (Nat.le_refl _)).rowOperand hlimit (powerLooks_level _ 0) (sated_level _ 0)
      (fun _ => .breached _ _) (binaryRows.drop min) min rfl
  | n + 1, hg, min => by
    have hbelow : AgreeUpTo σ n g' := fun m hm => hg m (Nat.le_succ_of_le hm)
    refine (hg (n + 1) (Nat.le_refl _)).rowOperand hlimit (powerLooks_level _ (n + 1))
      (sated_level _ (n + 1)) (fun min => ?_) (binaryRows.drop min) min rfl
    refine (hbelow.rowOperand min).less ?_
    rw [steps_level, steps_level]
    exact Nat.le_refl n

variable (hg : AgreeUpTo σ n g')
include hg

theorem layeredTernary :
    Paces σ c (Grammar.level (ParseM.descend σ.limit) n).steps (fun _ => 0)
      (Grammar.ternaryOperand (Grammar.level (ParseM.descend σ.limit) n))
      (Grammar.layeredTernary g') :=
  (hg n (Nat.le_refl n)).ternaryOver (hg.rowOperand hlimit 0)

theorem layeredAssignment :
    Paces σ c (Grammar.level (ParseM.descend σ.limit) n).steps (fun _ => 0)
      (Grammar.assignmentOperand (Grammar.level (ParseM.descend σ.limit) n))
      (Grammar.layeredAssignment g') :=
  (hg n (Nat.le_refl n)).assignmentOver (hg.layeredTernary hlimit)

theorem layeredExpression :
    Paces σ c (Grammar.level (ParseM.descend σ.limit) n).steps (fun _ => 0)
      (Grammar.expression (Grammar.level (ParseM.descend σ.limit) n))
      (Grammar.layeredExpression g') :=
  (hg n (Nat.le_refl n)).expressionOver (hg.layeredAssignment hlimit)

end AgreeUpTo

/-- The grammar proper is followed by the layered one. -/
theorem agree_layered (n' : Nat) :
    AgreeUpTo σ n' (Grammar.layered (ParseM.descend σ.limit) n') := by
  induction n' with
  | zero =>
    intro m hm
    obtain rfl := Nat.le_zero.mp hm
    exact agree_zero σ rfl
  | succ n' ih =>
    intro m hm
    cases m with
    | zero => exact agree_zero σ rfl
    | succ n =>
      have hbelow : AgreeUpTo σ n (Grammar.layered (ParseM.descend σ.limit) n') :=
        fun m hle => ih m (Nat.le_trans hle (Nat.le_of_succ_le_succ hm))
      have hg := hbelow n (Nat.le_refl n)
      have hlevel := agree_level σ (n + 1) (n' + 1) hm
      have hroom : (Grammar.level (ParseM.descend σ.limit) (n + 1)).steps - 1 ≤
          (Grammar.level (ParseM.descend σ.limit) n).steps := by
        rw [steps_level, steps_level]
        exact Nat.le_refl _
      rw [Grammar.layered]
      exact
        { descend := rfl
          descend' := rfl
          steps := hlevel.steps
          doubleQuoted := hlevel.doubleQuoted
          parameter := hlevel.parameter
          arithExpansion := hlevel.arithExpansion
          nestedList := hlevel.nestedList
          arith := fun _ => (hbelow.layeredExpression hlimit).less hroom
          assignment := fun _ => (hbelow.layeredAssignment hlimit).less hroom
          ternary := fun _ => (hbelow.layeredTernary hlimit).less hroom
          binary := fun _ min => (hbelow.rowOperand hlimit min).less hroom
          power := fun _ => hg.powerOperand.less hroom
          unary := fun _ => hg.unaryOperand.less hroom }

end Rows

/-! ### The same outcome -/

/-- Places of one text with the same text ahead are the same place. -/
theorem Scan.On.eq_of_rest {source : Text} {a b : Scan} (ha : a.On source) (hb : b.On source)
    (h : b.rest = a.rest) : b = a := by
  have hwhole : b.before.reverse ++ b.rest = a.before.reverse ++ a.rest :=
    hb.whole.trans ha.whole.symm
  rw [h] at hwhole
  have hbefore : b.before = a.before :=
    List.reverse_inj.mp (List.append_cancel_right hwhole)
  have hpos : b.pos = a.pos := by rw [hb.placed, ha.placed, hbefore]
  cases a
  cases b
  cases hpos
  cases hbefore
  cases h
  rfl

/-- Two outcomes are the same to whoever goes on from them: the same tree at the same place
in the same setting, or the same fault. -/
inductive SameOutcome {α : Type} : EStateM.Result (Halt Fault) ParseState α →
    EStateM.Result (Halt Fault) ParseState α → Prop where
  | ok {a s s'} : s'.here = s.here → s'.context = s.context → s'.depth = s.depth →
      SameOutcome (.ok a s) (.ok a s')
  | fault {e s s'} : SameOutcome (.error (.fault e) s) (.error (.fault e) s')

theorem Paces.sameOutcome {source : Text} {s : ParseState} {room : Nat} {act act' : ParseM Node}
    (h : Paces σ s.context room (fun _ => 0) act act') (hs : s.lexer.Current source)
    (hroom : s.left < room) : SameOutcome (act s) (act' s) := by
  have htracks := h (.same source) (σ.admits_same source) s s (Pair.inStep_same hs) rfl
  cases hrun : act s with
  | ok a s₁ =>
    rw [hrun] at htracks
    obtain ⟨hadvances, ⟨s₁', hok, hholds, hstep⟩ | ⟨htail, _⟩⟩ := htracks
    · rw [hok]
      refine .ok ?_ hstep.context ?_
      · exact hstep.left.toTiled.here_on.eq_of_rest hstep.right.toTiled.here_on
          (hstep.beside.rest.trans (List.append_nil _))
      · rw [hadvances.holds.depth rfl, hholds.depth rfl]
    · exact absurd rfl htail
  | error e s₁ =>
    rw [hrun] at htracks
    cases e with
    | fault f =>
      obtain ⟨s₁', herr, _⟩ := htracks.2 rfl
      rw [herr]
      exact .fault
    | breach b =>
      have hbreach : room ≤ s.left := htracks.2
      omega

/-- Without a limit on levels, climbing the rows of binary operators from any of them
inward, at any place of any text, comes to the same as recursive descent with a loop for
each row; and so a full expression comes to the same as in the layered grammar. -/
theorem climbing_eq_descent (source : Text) (s : ParseState) (hs : s.lexer.Current source)
    (levels : Nat) (hlevels : s.left < levels) :
    (∀ min, SameOutcome (binaryOperand (Grammar.level (descend 0) levels) min s)
      (rowOperand (Grammar.level (descend 0) levels) (binaryRows.drop min) s)) ∧
    SameOutcome (expression (Grammar.level (descend 0) levels) s)
      (layeredExpression (Grammar.layered (descend 0) levels) s) := by
  have hlimit : (⟨true, 0⟩ : Setting).limit = 0 := rfl
  have hroom : s.left < (Grammar.level (descend 0) levels).steps := by
    rw [steps_level]
    exact hlevels
  have hlevel : AgreeUpTo ⟨true, 0⟩ levels (Grammar.level (descend 0) levels) :=
    fun m hm => agree_level ⟨true, 0⟩ m levels hm
  constructor
  · intro min
    exact (hlevel.rowOperand hlimit min).sameOutcome hs hroom
  · exact ((agree_layered hlimit levels).layeredExpression hlimit).sameOutcome hs hroom

/-- At the start of a text under the rules of arithmetic. -/
def arithStart (source : Text) : ParseState :=
  ⟨(Lexer.ofText source).enter .arith true, false, 0⟩

theorem current_arithStart (source : Text) : (arithStart source).lexer.Current source :=
  (Lexer.current_ofText source).enter .arith true

/-- The tree of an outcome, if there is one. -/
def treeOf : EStateM.Result (Halt Fault) ParseState Node → Option Node
  | .ok a _ => some a
  | .error _ _ => none

theorem SameOutcome.treeOf_eq {r r' : EStateM.Result (Halt Fault) ParseState Node}
    (h : SameOutcome r r') : treeOf r' = treeOf r := by
  cases h <;> rfl

/-- Read row by row, `1-2*3-4` is the difference of a difference. -/
theorem climbing_eq_descent_minus :
    treeOf (rowOperand (Grammar.level (descend 0) 8) (binaryRows.drop 0)
      (arithStart ['1', '-', '2', '*', '3', '-', '4'])) =
      some (.binOp ['-'] (.binOp ['-'] (.number ['1']) (.binOp ['*'] (.number ['2'])
        (.number ['3']))) (.number ['4'])) := by
  have hclimb : treeOf (binaryOperand (Grammar.level (descend 0) 8) 0
      (arithStart ['1', '-', '2', '*', '3', '-', '4'])) =
      some (.binOp ['-'] (.binOp ['-'] (.number ['1']) (.binOp ['*'] (.number ['2'])
        (.number ['3']))) (.number ['4'])) := by decide +kernel
  have hleft : (arithStart ['1', '-', '2', '*', '3', '-', '4']).left < 8 := by decide +kernel
  have hboth := climbing_eq_descent _ _ (current_arithStart _) 8 hleft
  have hsame := hboth.1 0
  rw [hsame.treeOf_eq, hclimb]

end ShellGrammar
