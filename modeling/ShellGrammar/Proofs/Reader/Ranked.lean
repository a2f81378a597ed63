import ShellGrammar.Proofs.Contract
import ShellGrammar.Proofs.Reader.Ensures
import ShellGrammar.Proofs.Tree.Ranked

/-! The trees of arithmetic are well-ranked.

Each production of arithmetic yields a tree that binds at least as tightly as its own level,
and whose symbols are the tokens that were taken for it (`Production.Ranks`). What keeps the
operators of one row apart from those of the next is where a chain ends: behind the operand
that a row takes on its right, no operator of a tighter row is left (`Climbed`). -/
namespace ShellGrammar
open Grammar ParseM Node

/-! ### Tokens for symbols -/

namespace Node

/-- Tokens stand for symbols: one for each token of an expression, and at least one for an
expansion. -/
inductive Spells : List Symbol → List Token → Prop where
  | nil : Spells [] []
  | token {kind : Kind} {body : Text} {ss : List Symbol} {t : Token} {ts : List Token} :
      t.kind = kind → t.body = body → Spells ss ts → Spells (.token kind body :: ss) (t :: ts)
  | expansion {n : Node} {ss : List Symbol} {t : Token} {us ts : List Token} :
      Spells ss ts → Spells (.expansion n :: ss) (t :: us ++ ts)

namespace Spells
variable {ss ss' : List Symbol} {ts ts' : List Token} {t : Token}

theorem append (h : Spells ss ts) (h' : Spells ss' ts') : Spells (ss ++ ss') (ts ++ ts') := by
  induction h with
  | nil => exact h'
  | token hkind hbody _ ih => exact .token hkind hbody ih
  | expansion _ ih =>
    rw [List.append_assoc]
    exact .expansion ih

theorem cons {kind : Kind} {body : Text} (hkind : t.kind = kind) (hbody : t.body = body)
    (h : Spells ss ts) : Spells (.token kind body :: ss) (t :: ts) :=
  .token hkind hbody h

/-- An expansion alone, out of some tokens. -/
theorem alone {n : Node} : Spells [.expansion n] (t :: ts) := by
  have h : Spells [.expansion n] (t :: ts ++ []) := .expansion .nil
  rwa [List.append_nil] at h

end Spells

end Node

/-! ### Operators and their tokens -/

section Tokens
variable {c : Context} {place : Scan} {t : Token}

theorem operatorKind?_spelling {kind : Kind}
    (h : (goesOn? kind).isSome = true ∨ frontOps.contains kind = true) :
    ∃ body, kind.spelling? = some body ∧ operatorKind? body = some kind := by
  cases kind <;> first | exact ⟨_, rfl, by decide⟩ | (revert h; decide)

/-- The text of an operator's token says which operator it is. -/
theorem operatorKind?_body (ht : c.token? place = some t)
    (h : (goesOn? t.kind).isSome = true ∨ frontOps.contains t.kind = true) :
    operatorKind? t.body = some t.kind := by
  obtain ⟨body, hspelling, hkind⟩ := operatorKind?_spelling h
  rwa [Rules.body_of_spelling (Context.token?_eq_some.mp ht) hspelling]

theorem isSome_goesOn? {kind : Kind} {j : Joint} (h : Joint.ofKind? kind = some j) :
    (goesOn? kind).isSome = true := by
  obtain ⟨hquestion, hbehind, -⟩ := Joint.ofKind?_eq h
  rw [goesOn?, if_neg hquestion, hbehind, h]
  rfl

theorem joint?_body (ht : c.token? place = some t) {j : Joint}
    (h : Joint.ofKind? t.kind = some j) : joint? t.body = some j := by
  rw [joint?, operatorKind?_body ht (.inl (isSome_goesOn? h))]
  exact h

/-- The token of an operator stands for its symbol. -/
theorem operator_spells (ht : c.token? place = some t)
    (h : (goesOn? t.kind).isSome = true ∨ frontOps.contains t.kind = true) {ss : List Symbol}
    {ts : List Token} (hss : Spells ss ts) : Spells (.operator t.body :: ss) (t :: ts) := by
  refine .token ?_ rfl hss
  rw [operatorKind?_body ht h]
  rfl

end Tokens

/-! ### What productions yield -/

/-- A tree is well-ranked, binds as tightly as asked for, and its symbols stand for some
tokens. -/
structure Node.RankedFrom (r : Rank) (ts : List Token) (n : Node) : Prop where
  wellRanked : n.WellRanked
  le_rank : r ≤ n.rank
  spells : Spells n.symbols ts

theorem Node.RankedFrom.mono {r r' : Rank} {ts : List Token} {n : Node} (h : n.RankedFrom r ts)
    (hr : r' ≤ r) : n.RankedFrom r' ts :=
  ⟨h.wellRanked, Nat.le_trans hr h.le_rank, h.spells⟩

/-- No operator of row `min` or tighter stands at a place. -/
def Climbed (c : Context) (min : Nat) (place : Scan) : Prop :=
  ∀ t, c.token? place = some t → c.wants false (isBinaryFrom min) t = false

/-- The operators of rows that stand at a place bind no tighter than a rank. -/
def Bounded (c : Context) (r : Rank) (place : Scan) : Prop :=
  ∀ t, c.token? place = some t → ∀ min n, c.wants false (isBinaryFrom min) t = true →
    rowOf? t.kind = some n → .row n ≤ r

/-- What a production of arithmetic yields. -/
def Production.Ranks (c : Context) (p : Production) (place : Scan) (ns : List Node)
    (xs : List Taken) (place' : Scan) : Prop :=
  let ts := xs.map Taken.token
  match p with
  | chain .comma => ∀ n ∈ ns, n.RankedFrom .comma ts
  | chainRest .comma left => ∀ us, left.RankedFrom .comma us →
    ∀ n ∈ ns, n.RankedFrom .comma (us ++ ts)
  | chain (.binary min) => min ≤ 10 → (∀ n ∈ ns, n.RankedFrom (.row min) ts) ∧ Climbed c min place'
  | chainRest (.binary min) left => ∀ us, left.RankedFrom (.row min) us →
    Bounded c left.rank place →
    (∀ n ∈ ns, n.RankedFrom (.row min) (us ++ ts)) ∧ Climbed c min place'
  | assignment => ∀ n ∈ ns, n.RankedFrom .assignment ts
  | ternary => ∀ n ∈ ns, n.RankedFrom .ternary ts
  | power => ∀ n ∈ ns, n.RankedFrom .power ts
  | unary => ∀ n ∈ ns, n.RankedFrom .unary ts
  | post => ∀ n ∈ ns, n.RankedFrom .post ts
  | primary => ∀ n ∈ ns, n.RankedFrom .primary ts
  | arithClosed => ∀ n ∈ ns, ∀ t : Token, t.kind = .dollarParen2 → t.body = ['$', '(', '('] →
    n.RankedFrom .primary (t :: ts)
  | _ => True

namespace Ranks
variable {c : Context} {place : Scan}

/-- What the productions that are called yield. -/
def Known : Recording := fun c p place ns xs place' =>
  Records c p place ns xs place' ∧ p.Ranks c place ns xs place'

theorem post : Production.post.body.Ensures Known c place (Production.post.Ranks c place) := by
  simp only [Production.body, ensures_bind, ensures_one, ensures_next, ensures_pure,
    Token.lexeme, List.append_nil, List.nil_append]
  intro n xs place' hn t ht
  have hn := hn.2 n List.mem_cons_self
  constructor
  · rintro - _ ⟨⟩
    · exact hn.mono (Nat.le_succ 15)
    · contradiction
  · rintro hw _ ⟨⟩
    · have hbehind := mem_of_wants (by decide) hw
      have hgoes : (goesOn? t.kind).isSome = true := by
        revert hbehind
        cases t.kind <;> decide
      refine ⟨.postOp ?_ hn.le_rank hn.wellRanked, Nat.le_refl _, ?_⟩
      · rw [isBehindOp, operatorKind?_body ht (.inl hgoes)]
        simpa using hbehind
      · rw [List.map_append]
        exact hn.spells.append (operator_spells ht (.inl hgoes) .nil)
    · contradiction

theorem unary : Production.unary.body.Ensures Known c place (Production.unary.Ranks c place) := by
  simp only [Production.body, ensures_bind, ensures_one, ensures_all, ensures_next, ensures_pure,
    Token.lexeme, List.append_nil, List.nil_append]
  intro t ht
  constructor
  · rintro - ns xs place' hns n hn
    exact (hns.2 n hn).mono (Nat.le_succ 14)
  · rintro hw n xs place' hn _ ⟨⟩
    · have hn := hn.2 n List.mem_cons_self
      have hfront := mem_of_wants (by decide) hw
      have hcontains : frontOps.contains t.kind = true := List.contains_iff_mem.mpr hfront
      refine ⟨.unOp ?_ hn.le_rank hn.wellRanked, Nat.le_refl _, ?_⟩
      · rw [isFrontOp, operatorKind?_body ht (.inr hcontains)]
        exact hcontains
      · exact operator_spells ht (.inr hcontains) hn.spells
    · contradiction

theorem power : Production.power.body.Ensures Known c place
    (Production.power.Ranks c place) := by
  simp only [Production.body, ensures_bind, ensures_one, ensures_next, ensures_pure,
    Token.lexeme, List.append_nil, List.nil_append]
  intro n xs place' hn t ht
  have hn := hn.2 n List.mem_cons_self
  constructor
  · rintro - _ ⟨⟩
    · exact hn.mono (Nat.le_succ 13)
    · contradiction
  · rintro hw m ys place'' hm _ ⟨⟩
    · have hm := hm.2 m List.mem_cons_self
      have hj : joint? t.body = some .power := joint?_body ht (by rw [kind_of_wants hw]; rfl)
      refine ⟨.power hj hn.le_rank hm.le_rank hn.wellRanked hm.wellRanked, ?_, ?_⟩
      · exact Nat.le_of_eq (by rw [rank_binOp (j := .power) hj]; rfl)
      · rw [List.map_append]
        exact hn.spells.append (operator_spells ht (.inl (by rw [kind_of_wants hw]; rfl))
          hm.spells)
    · contradiction

theorem ternary : Production.ternary.body.Ensures Known c place
    (Production.ternary.Ranks c place) := by
  simp only [Production.body, ensures_bind, ensures_one, ensures_next, ensures_expect,
    ensures_pure, List.append_nil, List.nil_append]
  intro n xs place' hn t ht
  have hn := (hn.2 (Nat.zero_le 10)).1 n List.mem_cons_self
  constructor
  · rintro - _ ⟨⟩
    · exact hn.mono (Nat.le_succ 2)
    · contradiction
  · rintro hw yes ys place₂ hyes u hu hcolon no zs place₃ hno _ ⟨⟩
    · have hyes := hyes.2 yes List.mem_cons_self
      have hno := hno.2 no List.mem_cons_self
      have hquestion : t.body = ['?'] :=
        Rules.body_of_spelling (Context.token?_eq_some.mp ht) (by rw [kind_of_wants hw]; rfl)
      have hcolon' : u.body = [':'] :=
        Rules.body_of_spelling (Context.token?_eq_some.mp hu) (by rw [kind_of_wants hcolon]; rfl)
      refine ⟨.ternary hn.le_rank hno.le_rank hn.wellRanked hyes.wellRanked hno.wellRanked,
        Nat.le_refl _, ?_⟩
      have hrest := hyes.spells.append (.token (kind_of_wants hcolon) hcolon' hno.spells)
      simpa [symbols] using hn.spells.append (.token (kind_of_wants hw) hquestion hrest)
    · contradiction

theorem assignment : Production.assignment.body.Ensures Known c place
    (Production.assignment.Ranks c place) := by
  simp only [Production.body, ensures_bind, ensures_query]
  rintro o ts place₁ ⟨t, ht, ⟨-, rfl, rfl, rfl⟩ | ⟨hname, u, hu, ⟨-, rfl, rfl, rfl⟩ |
    ⟨hop, rfl, rfl, rfl⟩⟩⟩
  · rw [ensures_all]
    exact fun ns xs place' hns n hn => (hns.2 n hn).mono (Nat.le_succ 1)
  · rw [ensures_all]
    exact fun ns xs place' hns n hn => (hns.2 n hn).mono (Nat.le_succ 1)
  · simp only [ensures_bind, ensures_one, ensures_pure, List.append_nil]
    rintro n xs place' hn _ ⟨⟩
    · have hn := hn.2 n List.mem_cons_self
      have hkind := mem_of_wants (by decide) hop
      have hof : Joint.ofKind? u.kind = some .assignment := by
        revert hkind
        cases u.kind <;> decide
      have hj := joint?_body hu hof
      refine ⟨.assignment hj hn.le_rank hn.wellRanked, ?_, ?_⟩
      · exact Nat.le_of_eq (by rw [rank_binOp (j := .assignment) hj]; rfl)
      · refine .token (kind_of_wants hname) rfl (operator_spells hu (.inl ?_) hn.spells)
        revert hkind
        cases u.kind <;> decide
    · contradiction

/-- What closes arithmetic has one text. -/
theorem arithClosed : Production.arithClosed.body.Ensures Known c place
    (Production.arithClosed.Ranks c place) := by
  simp only [Production.body, ensures_bind, ensures_one, ensures_close, ensures_pure,
    List.append_nil]
  rintro n xs place' hn u hu _ ⟨⟩
  · intro t hkind hbody
    have hn := hn.2 n List.mem_cons_self
    obtain ⟨hclose, hmatches⟩ := Rules.takeAt_matches hu
    refine ⟨.arithExpansion hn.wellRanked, Nat.le_refl _, ?_⟩
    rw [List.map_append]
    exact .token hkind hbody (hn.spells.append (.token hclose hmatches.of_lit .nil))
  · contradiction

theorem chain_comma : (Production.chain .comma).body.Ensures Known c place
    ((Production.chain .comma).Ranks c place) := by
  simp only [Production.body, ensures_bind, ensures_one, ensures_all]
  intro n xs place' hn ns ys place'' hns m hm
  have hn := (hn.2 n List.mem_cons_self).mono (Rank.comma_le _)
  rw [List.map_append]
  exact hns.2 _ hn m hm

theorem ensures_operator {ch : Chain} (hch : ch.isCommand = false)
    {post : Option Lexeme → List Taken → Scan → Prop} {below : Recording} :
    ch.operator.Ensures below c place post ↔
      ∀ t, c.token? place = some t →
        (c.wants false ch.wants t = false → post none [] place) ∧
        (c.wants false ch.wants t = true → post (some t.lexeme) [⟨c, t⟩] t.after) := by
  rw [Chain.operator, ensures_bind, ensures_take]
  simp only [hch, Bool.false_eq_true, if_false, ensures_pure, List.append_nil]

theorem chainRest_comma {left : Node} : (Production.chainRest .comma left).body.Ensures Known c place
    ((Production.chainRest .comma left).Ranks c place) := by
  simp only [Production.body, ensures_bind, ensures_operator (show Chain.comma.isCommand = false from rfl), ensures_one,
    ensures_all, ensures_pure, Token.lexeme, List.nil_append]
  intro t ht
  constructor
  · rintro - us hleft _ ⟨⟩
    · simpa using hleft
    · contradiction
  · intro hw n xs place' hn ns ys place'' hns us hleft m hm
    have hn := hn.2 n List.mem_cons_self
    have hj : joint? t.body = some .comma := joint?_body ht (by rw [kind_of_wants hw]; rfl)
    have hjoined : (binOp t.body left n).RankedFrom .comma
        (us ++ t :: xs.map Taken.token) := by
      refine ⟨.comma hj hn.le_rank hleft.wellRanked hn.wellRanked, Rank.comma_le _, ?_⟩
      exact hleft.spells.append (operator_spells ht (.inl (by rw [kind_of_wants hw]; rfl))
        hn.spells)
    simpa using hns.2 _ hjoined m hm

/-- Rows have an operator, so there are ten of them. -/
theorem row_lt {t : Token} {min : Nat} (h : c.wants false (isBinaryFrom min) t = true) :
    ∃ n, rowOf? t.kind = some n ∧ min ≤ n ∧ n < 10 := by
  have hfrom := (Context.wants_iff.mp h).1
  rw [isBinaryFrom] at hfrom
  cases hrow : rowOf? t.kind with
  | none => simp [hrow] at hfrom
  | some n => exact ⟨n, rfl, by simpa [hrow] using hfrom, rowOf?_lt hrow⟩

theorem ofKind?_row {kind : Kind} {n : Nat} (h : rowOf? kind = some n) :
    Joint.ofKind? kind = some (.row n) := by
  cases kind <;> first | (cases h; rfl) | cases h

theorem chainRest_binary {min : Nat} {left : Node} :
    (Production.chainRest (.binary min) left).body.Ensures Known c place
      ((Production.chainRest (.binary min) left).Ranks c place) := by
  simp only [Production.body, ensures_bind, ensures_operator (show (Chain.binary min).isCommand = false from rfl), ensures_one,
    ensures_all, ensures_pure, Token.lexeme, List.nil_append, Context.shift]
  intro t ht
  constructor
  · intro hw us hleft _
    refine ⟨?_, ?_⟩
    · rintro _ ⟨⟩
      · simpa using hleft
      · contradiction
    · intro u hu
      cases ht.symm.trans hu
      exact hw
  · intro hw n xs place' hn ns ys place'' hns us hleft hbounded
    obtain ⟨row, hrow, hmin, hlt⟩ := row_lt hw
    have hoperand : (Chain.binary min).operand t.kind = .chain (.binary (row + 1)) := by
      rw [Chain.operand, hrow]
      rfl
    rw [hoperand] at hn
    obtain ⟨hn, hclimbed⟩ := hn.2 hlt
    have hn := hn n List.mem_cons_self
    have hj := joint?_body ht (ofKind?_row hrow)
    have hrank : (binOp t.body left n).rank = .row row := rank_binOp hj
    have hjoined : (binOp t.body left n).RankedFrom (.row min) (us ++ t :: xs.map Taken.token) := by
      refine ⟨.row hj (hbounded t ht min row hw hrow) (Nat.lt_of_lt_of_le (Nat.lt_succ_self _)
        hn.le_rank) hleft.wellRanked hn.wellRanked, ?_, ?_⟩
      · rw [hrank]
        exact Nat.add_le_add_left hmin 3
      · exact hleft.spells.append (operator_spells ht (.inl (isSome_goesOn? (ofKind?_row hrow)))
          hn.spells)
    have hnext : Bounded c (binOp t.body left n).rank place' := by
      intro u hu min' row' hw' hrow'
      rw [hrank]
      have hno := hclimbed u hu
      have hvisible := (Context.wants_iff.mp hw').2
      have hle : ¬ row + 1 ≤ row' := by
        intro hle
        have hloose : isBinaryFrom (row + 1) u.kind = true := by
          rw [isBinaryFrom, hrow']
          exact decide_eq_true hle
        rw [Context.wants_iff.mpr ⟨hloose, hvisible⟩] at hno
        cases hno
      exact Nat.add_le_add_left (by omega) 3
    simpa using hns.2 _ hjoined hnext

theorem chain_binary {min : Nat} : (Production.chain (.binary min)).body.Ensures Known c place
    ((Production.chain (.binary min)).Ranks c place) := by
  simp only [Production.body, ensures_bind, ensures_one, ensures_all, Context.shift]
  intro n xs place' hn ns ys place'' hns hmin
  have hn := hn.2 n List.mem_cons_self
  rw [List.map_append]
  refine hns.2 _ (hn.mono (Nat.add_le_add_left hmin 3)) fun t ht min' row hw hrow => ?_
  exact Nat.le_trans (Nat.add_le_add_left (Nat.le_of_lt (rowOf?_lt hrow)) 3) hn.le_rank

theorem isExpansion_of_isParameter {n : Node} (h : n.isParameter = true) :
    n.isExpansion = true := by
  cases n <;> first | rfl | exact h

theorem primary : Production.primary.body.Ensures Known c place
    (Production.primary.Ranks c place) := by
  simp only [Production.body, ensures_bind, ensures_expect]
  intro t ht hw
  have hlexed := Context.token?_eq_some.mp ht
  have hspelling : ∀ {body}, t.kind.spelling? = some body → t.body = body :=
    Rules.body_of_spelling hlexed
  have hkind : t.kind = .number ∨ t.kind = .ident ∨ t.kind = .dollarName ∨ t.kind = .lparen ∨
      t.kind = .dollarBrace ∨ t.kind = .dollarParen2 ∨ t.kind = .dollarParen := by
    simpa [primaryStart] using mem_of_wants (by decide) hw
  rw [Reader.primaryRest, Token.lexeme]
  rcases hkind with hk | hk | hk | hk | hk | hk | hk <;> simp only [hk]
  · rw [ensures_pure]
    rintro _ ⟨⟩
    · exact ⟨.number, Nat.le_refl _, .token hk rfl .nil⟩
    · contradiction
  · rw [ensures_pure]
    rintro _ ⟨⟩
    · exact ⟨.var, Nat.le_refl _, .token hk rfl .nil⟩
    · contradiction
  · rw [ensures_pure]
    rintro _ ⟨⟩
    · exact ⟨.var, Nat.le_refl _, .token hk (Rules.body_of_dollarName hlexed hk) .nil⟩
    · contradiction
  · simp only [ensures_bind, ensures_one, ensures_expect, ensures_pure]
    rintro n xs place' hn u hu hclose _ ⟨⟩
    · have hn := hn.2 n List.mem_cons_self
      have hbody : u.body = [')'] :=
        Rules.body_of_spelling (Context.token?_eq_some.mp hu) (by rw [kind_of_wants hclose]; rfl)
      refine ⟨.parentheses hn.wellRanked, Nat.le_refl _, .token hk (hspelling (by rw [hk]; rfl)) ?_⟩
      simpa using hn.spells.append (.token (kind_of_wants hclose) hbody .nil)
    · contradiction
  · rw [ensures_all]
    intro ns xs place' hns n hn
    have hexpansion := isExpansion_of_isParameter ((contracted hns.1.parses trivial).makes n hn)
    refine ⟨.expansion hexpansion, Nat.le_of_eq (by rw [rank_expansion hexpansion]), ?_⟩
    rw [symbols_expansion hexpansion]
    exact .alone
  · rw [ensures_all]
    intro ns xs place' hns n hn
    exact hns.2 n hn t hk (hspelling (by rw [hk]; rfl))
  · simp only [ensures_bind, ensures_one, ensures_pure]
    rintro n xs place' hn _ ⟨⟩
    · exact ⟨.expansion rfl, Nat.le_refl _, .alone⟩
    · contradiction

end Ranks

/-- What every production of arithmetic yields. -/
theorem Records.ranks {c : Context} {p : Production} {place place' : Scan} {ns : List Node}
    {xs : List Taken} (h : Records c p place ns xs place') : p.Ranks c place ns xs place' := by
  refine h.ensured (P := fun c p place ns xs place' => p.Ranks c place ns xs place') ?_
  intro c p place
  cases p with
  | chain ch =>
    cases ch with
    | comma => exact Ranks.chain_comma
    | binary min => exact Ranks.chain_binary
    | andOr | pipe => exact fun _ _ _ _ => trivial
  | chainRest ch left =>
    cases ch with
    | comma => exact Ranks.chainRest_comma
    | binary min => exact Ranks.chainRest_binary
    | andOr | pipe => exact fun _ _ _ _ => trivial
  | assignment => exact Ranks.assignment
  | ternary => exact Ranks.ternary
  | power => exact Ranks.power
  | unary => exact Ranks.unary
  | post => exact Ranks.post
  | primary => exact Ranks.primary
  | arithClosed => exact Ranks.arithClosed
  | _ => exact fun _ _ _ _ => trivial

end ShellGrammar
