import ShellGrammar.Proofs.Tree.Contract

/-! Arithmetic trees that their tokens determine.

A form of arithmetic has a rank: how tightly it binds. A tree is `WellRanked` if its operands
bind as tightly as their places ask for, so that it needs no parentheses beyond those it has.
`Node.symbols` is the row of tokens that a tree is written with. Two well-ranked trees with
the same tokens are equal (`wellRanked_unique`).

The proof reads both trees from the left. Down its left side a tree is an operand without
binary operators, and then one tail after another: an operator and what stands behind it
(`WellRanked.spine`). Where the first operands agree, the next token tells whether there is a
tail and of what kind, and what stands in a tail ends where no operator goes on with it. -/
namespace ShellGrammar
open Grammar

/-! ### Ranks -/

namespace Grammar

/-- The kind that the rules of arithmetic give a text, if they take all of it. -/
def operatorKind? (op : Text) : Option Kind :=
  match Rules.firstFit Rules.arith.set.rules op with
  | some (kind, n) => if n = op.length then some kind else none
  | none => none

def isFrontOp (op : Text) : Bool := (operatorKind? op).any (frontOps.contains ·)

def isBehindOp (op : Text) : Bool := (operatorKind? op).any (behindOps.contains ·)

/-- What joins two operands. -/
inductive Joint where
  | comma
  | assignment
  /-- An operator of a row of `binaryRows`. -/
  | row (n : Nat)
  | power
deriving DecidableEq

namespace Joint

def ofKind? (kind : Kind) : Option Joint :=
  if kind = .comma then some comma
  else if assignmentOps.contains kind then some assignment
  else if kind = .starStar then some power
  else (rowOf? kind).map row

end Joint

/-- How an operator joins its operands, if it is one. -/
def joint? (op : Text) : Option Joint := (operatorKind? op).bind Joint.ofKind?

/-- How tightly forms bind, from the loosest to the tightest. -/
inductive Rank where
  | comma
  | assignment
  | ternary
  | row (n : Nat)
  | power
  | unary
  | post
  | primary

/-- There are ten rows. -/
@[simp] def Rank.toNat : Rank → Nat
  | comma => 0
  | assignment => 1
  | ternary => 2
  | row n => 3 + n
  | power => 13
  | unary => 14
  | post => 15
  | primary => 16

instance : LE Rank := ⟨fun a b => a.toNat ≤ b.toNat⟩

instance : LT Rank := ⟨fun a b => a.toNat < b.toNat⟩

instance (a b : Rank) : Decidable (a ≤ b) := inferInstanceAs (Decidable (a.toNat ≤ b.toNat))

instance (a b : Rank) : Decidable (a < b) := inferInstanceAs (Decidable (a.toNat < b.toNat))

theorem Rank.le_iff {a b : Rank} : a ≤ b ↔ a.toNat ≤ b.toNat := Iff.rfl

theorem Rank.lt_iff {a b : Rank} : a < b ↔ a.toNat < b.toNat := Iff.rfl

theorem Rank.comma_le (r : Rank) : .comma ≤ r := Nat.zero_le _

namespace Joint

def rank : Joint → Rank
  | comma => .comma
  | assignment => .assignment
  | row n => .row n
  | power => .power

/-- How tightly what stands in front of an operator binds at least. -/
def left : Joint → Rank
  | comma => .comma
  | assignment => .primary
  | row n => .row n
  | power => .unary

/-- How tightly what stands behind an operator binds at least. -/
def right : Joint → Rank
  | comma | assignment => .assignment
  | row n => .row (n + 1)
  | power => .power

end Joint

end Grammar

namespace Node

/-- What is no arithmetic itself, where it stands in arithmetic. -/
def isExpansion : Node → Bool
  | commandSubst .. => true
  | n => n.isParameter

/-- How tightly a form of arithmetic binds. -/
def rank : Node → Rank
  | binOp op _ _ => ((joint? op).map Joint.rank).getD .comma
  | ternary .. => .ternary
  | unOp .. => .unary
  | postOp .. => .post
  | _ => .primary

/-- The operands of an arithmetic tree bind as tightly as their places ask for. -/
inductive WellRanked : Node → Prop where
  | number {value : Text} : WellRanked (.number value)
  | var {name : Text} {dollar : Bool} : WellRanked (.var name dollar)
  | expansion {a : Node} : a.isExpansion = true → WellRanked a
  | arithExpansion {a : Node} : WellRanked a → WellRanked (.arithExpansion a)
  | parentheses {a : Node} : WellRanked a → WellRanked (.parentheses a)
  | postOp {op : Text} {a : Node} : isBehindOp op = true → .primary ≤ a.rank → WellRanked a →
      WellRanked (.postOp op a)
  | unOp {op : Text} {a : Node} : isFrontOp op = true → .unary ≤ a.rank → WellRanked a →
      WellRanked (.unOp op a)
  | power {op : Text} {a b : Node} : joint? op = some .power → .unary ≤ a.rank →
      .power ≤ b.rank → WellRanked a → WellRanked b → WellRanked (.binOp op a b)
  | row {op : Text} {n : Nat} {a b : Node} : joint? op = some (.row n) → .row n ≤ a.rank →
      .row n < b.rank → WellRanked a → WellRanked b → WellRanked (.binOp op a b)
  | ternary {a b d : Node} : .row 0 ≤ a.rank → .ternary ≤ d.rank → WellRanked a →
      WellRanked b → WellRanked d → WellRanked (.ternary a b d)
  | assignment {op name : Text} {b : Node} : joint? op = some .assignment →
      .assignment ≤ b.rank → WellRanked b → WellRanked (.binOp op (.var name false) b)
  | comma {op : Text} {a b : Node} : joint? op = some .comma → .assignment ≤ b.rank →
      WellRanked a → WellRanked b → WellRanked (.binOp op a b)

/-! ### The tokens of a tree -/

/-- What an arithmetic tree is written with: tokens, and parameters and substitutions, of which
each is one unit here. An expression inside of one, such as its offset, is no part of this tree:
it is covered on its own, as one of `Node.allExpressions`. -/
inductive Symbol where
  | token (kind : Kind) (body : Text)
  | expansion (n : Node)

/-- The token of an operator. -/
def Symbol.operator (op : Text) : Symbol := .token ((operatorKind? op).getD .op) op

theorem Symbol.operator_inj {op op' : Text} (h : Symbol.operator op = .operator op') : op = op' :=
  (Symbol.token.inj h).2

/-- The symbols that an arithmetic tree is written with, from left to right. -/
def symbols : Node → List Symbol
  | number value => [.token .number value]
  | var name dollar => [if dollar then .token .dollarName ('$' :: name) else .token .ident name]
  | parentheses body =>
    .token .lparen ['('] :: body.symbols ++ [.token .rparen [')']]
  | arithExpansion body =>
    .token .dollarParen2 ['$', '(', '('] :: body.symbols ++ [.token .rparen [')', ')']]
  | postOp op operand => operand.symbols ++ [.operator op]
  | unOp op operand => .operator op :: operand.symbols
  | binOp op left right => left.symbols ++ .operator op :: right.symbols
  | ternary cond yes no =>
    cond.symbols ++ .token .question ['?'] :: yes.symbols ++ .token .colon [':'] :: no.symbols
  | n => [.expansion n]

end Node

/-! ### What goes on behind an operand -/

namespace Grammar

theorem Joint.ofKind?_eq {kind : Kind} {j : Joint} (h : Joint.ofKind? kind = some j) :
    kind ≠ .question ∧ behindOps.contains kind = false ∧ ∀ n, j = .row n → n < 10 := by
  simp only [Joint.ofKind?] at h
  split at h
  · rename_i hk
    cases h
    subst hk
    exact ⟨by decide, by decide, nofun⟩
  · split at h
    · rename_i hk
      cases h
      refine ⟨?_, ?_, nofun⟩
      · rintro rfl
        cases hk
      · revert hk
        cases kind <;> decide
    · split at h
      · rename_i hk
        cases h
        subst hk
        exact ⟨by decide, by decide, nofun⟩
      · obtain ⟨n, hrow, rfl⟩ := Option.map_eq_some_iff.mp h
        refine ⟨?_, ?_, ?_⟩
        · rintro rfl
          cases hrow
        · cases kind <;> first | rfl | cases hrow
        · rintro _ ⟨⟩
          exact rowOf?_lt hrow

/-- The rank of what a token goes on with, behind an operand. -/
def goesOn? (kind : Kind) : Option Rank :=
  if kind = .question then some .ternary
  else if behindOps.contains kind then some .post
  else (Joint.ofKind? kind).map Joint.rank

/-- What joins operands goes on behind one. -/
theorem goesOn?_joint {op : Text} {j : Joint} (h : joint? op = some j) :
    goesOn? ((operatorKind? op).getD .op) = some j.rank := by
  obtain ⟨kind, hkind, hj⟩ := Option.bind_eq_some_iff.mp h
  obtain ⟨hquestion, hbehind, -⟩ := Joint.ofKind?_eq hj
  rw [hkind, Option.getD_some, goesOn?, if_neg hquestion, hbehind, hj]
  rfl

theorem goesOn?_behind {op : Text} (h : isBehindOp op = true) :
    goesOn? ((operatorKind? op).getD .op) = some .post := by
  rw [isBehindOp] at h
  cases hkind : operatorKind? op with
  | none => simp [hkind] at h
  | some kind =>
    rw [hkind, Option.any_some] at h
    rw [Option.getD_some, goesOn?, if_neg (by rintro rfl; cases h), if_pos h]

theorem frontOp_kind {op : Text} (h : isFrontOp op = true) :
    frontOps.contains ((operatorKind? op).getD .op) = true := by
  rw [isFrontOp] at h
  cases hkind : operatorKind? op with
  | none => simp [hkind] at h
  | some kind => rwa [hkind, Option.any_some] at h

end Grammar

namespace Node

def Symbol.goesOn? : Symbol → Option Rank
  | token kind _ => Grammar.goesOn? kind
  | expansion _ => none

/-- An operand of a rank ends in front of some symbols: they go on with it too loosely, if at
all. -/
def Ends (r : Rank) (ss : List Symbol) : Prop :=
  ∀ s ∈ ss.head?, ∀ k ∈ s.goesOn?, k < r

theorem ends_nil (r : Rank) : Ends r [] := nofun

theorem ends_cons {r : Rank} {s : Symbol} {ss : List Symbol} :
    Ends r (s :: ss) ↔ ∀ k ∈ s.goesOn?, k < r := by
  simp [Ends]

theorem Ends.mono {r r' : Rank} {ss : List Symbol} (h : Ends r ss) (hle : r ≤ r') : Ends r' ss :=
  fun s hs k hk => Nat.lt_of_lt_of_le (h s hs k hk) hle

theorem symbols_expansion {a : Node} (h : a.isExpansion = true) : a.symbols = [.expansion a] := by
  cases a <;> first | rfl | cases h

theorem rank_expansion {a : Node} (h : a.isExpansion = true) : a.rank = .primary := by
  cases a <;> first | rfl | cases h

theorem rank_binOp {op : Text} {j : Joint} {a b : Node} (h : joint? op = some j) :
    (binOp op a b).rank = j.rank := by
  simp [rank, h]

/-! ### Left sides and tails -/

/-- An operator and what stands behind it. -/
inductive Tail where
  | joined (op : Text) (j : Joint) (right : Node)
  | chosen (yes no : Node)

namespace Tail

/-- A tail behind a left side. -/
def onto (left : Node) : Tail → Node
  | joined op _ right => .binOp op left right
  | chosen yes no => .ternary left yes no

def symbols : Tail → List Symbol
  | joined op _ right => .operator op :: right.symbols
  | chosen yes no => .token .question ['?'] :: yes.symbols ++ .token .colon [':'] :: no.symbols

def rank : Tail → Rank
  | joined _ j _ => j.rank
  | chosen .. => .ternary

/-- How tightly what stands in front binds at least. -/
def left : Tail → Rank
  | joined _ j _ => j.left
  | chosen .. => .row 0

/-- How tightly the last operand binds at least. -/
def right : Tail → Rank
  | joined _ j _ => j.right
  | chosen .. => .ternary

/-- The operands of a tail are well-ranked, bind as tightly as their places ask for, and are
smaller than something. -/
def WellRanked (n : Nat) : Tail → Prop
  | joined op j right => joint? op = some j ∧ j.right ≤ right.rank ∧ right.WellRanked ∧
      sizeOf right < n
  | chosen yes no => .ternary ≤ no.rank ∧ yes.WellRanked ∧ no.WellRanked ∧ sizeOf yes < n ∧
      sizeOf no < n

variable {left : Node} {t u : Tail} {n n' : Nat}

theorem symbols_onto : (t.onto left).symbols = left.symbols ++ t.symbols := by
  cases t <;> simp [onto, Node.symbols, symbols]

theorem WellRanked.mono (h : t.WellRanked n) (hle : n ≤ n') : t.WellRanked n' := by
  cases t with
  | joined op j right => exact ⟨h.1, h.2.1, h.2.2.1, Nat.lt_of_lt_of_le h.2.2.2 hle⟩
  | chosen yes no =>
    exact ⟨h.1, h.2.1, h.2.2.1, Nat.lt_of_lt_of_le h.2.2.2.1 hle,
      Nat.lt_of_lt_of_le h.2.2.2.2 hle⟩

theorem rank_le_left (t : Tail) : t.rank ≤ t.left := by
  cases t with
  | joined op j right => cases j <;> simp [Rank.le_iff, rank, Tail.left, Joint.rank, Joint.left]
  | chosen yes no => exact Nat.le_succ 2

theorem rank_le_right (t : Tail) : t.rank ≤ t.right := by
  cases t with
  | joined op j right => cases j <;> simp [Rank.le_iff, rank, Tail.right, Joint.rank, Joint.right]
  | chosen yes no => exact Nat.le_refl 2

/-- A tail that goes on behind another does not go on with the last operand of it. -/
theorem WellRanked.lt_right (hu : u.WellRanked n) (h : u.left ≤ t.rank) : u.rank < t.right := by
  cases u with
  | joined op j right =>
    obtain ⟨kind, -, hj⟩ := Option.bind_eq_some_iff.mp hu.1
    have hrow := (Joint.ofKind?_eq hj).2.2
    cases t with
    | joined op' j' right' =>
      cases j <;> cases j' <;>
        simp_all [Rank.le_iff, Rank.lt_iff, rank, Tail.left, Tail.right, Joint.rank, Joint.left,
          Joint.right] <;> omega
    | chosen yes no =>
      cases j <;>
        simp_all [Rank.le_iff, Rank.lt_iff, rank, Tail.left, Tail.right, Joint.rank, Joint.left]
      omega
  | chosen yes no =>
    cases t with
    | joined op' j' right' =>
      cases j' <;>
        simp_all [Rank.le_iff, Rank.lt_iff, rank, Tail.left, Tail.right, Joint.rank, Joint.right]
      omega
    | chosen yes no => simp [Rank.le_iff, Tail.left, rank] at h

theorem WellRanked.right_le (h : t.WellRanked n) : t.right ≤ .unary := by
  cases t with
  | joined op j right =>
    obtain ⟨kind, -, hj⟩ := Option.bind_eq_some_iff.mp h.1
    have hrow := (Joint.ofKind?_eq hj).2.2
    cases j <;> simp_all [Rank.le_iff, Tail.right, Joint.right]
    omega
  | chosen yes no => exact Nat.le_add_left 2 12

theorem WellRanked.rank_lt (h : t.WellRanked n) : t.rank < .unary := by
  cases t with
  | joined op j right =>
    obtain ⟨kind, -, hj⟩ := Option.bind_eq_some_iff.mp h.1
    have hrow := (Joint.ofKind?_eq hj).2.2
    cases j <;> simp_all [Rank.lt_iff, rank, Joint.rank]
    omega
  | chosen yes no => exact Nat.le_add_left 3 11

/-- The symbol that a tail starts with goes on with what stands in front. -/
theorem WellRanked.symbols_eq (h : t.WellRanked n) :
    ∃ s ss, t.symbols = s :: ss ∧ s.goesOn? = some t.rank := by
  cases t with
  | joined op j right => exact ⟨_, _, rfl, goesOn?_joint h.1⟩
  | chosen yes no => exact ⟨_, _, rfl, rfl⟩

theorem WellRanked.not_ends {r : Rank} {ss : List Symbol} (h : t.WellRanked n) (hr : r ≤ t.rank) :
    ¬ Ends r (t.symbols ++ ss) := by
  obtain ⟨s, ss', heq, hs⟩ := h.symbols_eq
  rw [heq, List.cons_append, ends_cons]
  intro hends
  exact Nat.lt_irrefl _ (Nat.lt_of_lt_of_le (hends _ hs) hr)

end Tail

/-- Tails go on one behind the other, the first behind something of rank `k`. The rank of
the last is `r` or above. -/
def Tails (n : Nat) (r k : Rank) : List Tail → Prop
  | [] => r ≤ k
  | t :: ts => t.WellRanked n ∧ t.left ≤ k ∧ Tails n r t.rank ts

namespace Tails
variable {n n' : Nat} {r r' k : Rank} {t : Tail} {ts : List Tail} {ss : List Symbol}

theorem mono (h : Tails n r k ts) (hn : n ≤ n') : Tails n' r k ts := by
  induction ts generalizing k with
  | nil => exact h
  | cons t ts ih => exact ⟨h.1.mono hn, h.2.1, ih h.2.2⟩

theorem le (h : Tails n r k ts) : r ≤ k := by
  induction ts generalizing k with
  | nil => exact h
  | cons t ts ih => exact Nat.le_trans (ih h.2.2) (Nat.le_trans t.rank_le_left h.2.1)

/-- One tail more at the end. -/
theorem snoc (h : Tails n t.left k ts) (ht : t.WellRanked n) (hr : r ≤ t.rank) :
    Tails n r k (ts ++ [t]) := by
  induction ts generalizing k with
  | nil => exact ⟨ht, h, hr⟩
  | cons u us ih => exact ⟨h.1, h.2.1, ih h.2.2⟩

/-- The last operand of a tail ends in front of the tails behind it. -/
theorem ends (h : Tails n r t.rank ts) (hends : Ends r ss) :
    Ends t.right (ts.flatMap Tail.symbols ++ ss) := by
  cases ts with
  | nil => exact hends.mono (Nat.le_trans h t.rank_le_right)
  | cons u us =>
    obtain ⟨s, ss', heq, hs⟩ := h.1.symbols_eq
    rw [List.flatMap_cons, heq, List.cons_append, List.cons_append, ends_cons, hs]
    rintro _ ⟨⟩
    exact h.1.lt_right h.2.1

/-- What stands in front of all the tails ends in front of them. -/
theorem ends_base (h : Tails n r k ts) (hr : r ≤ .unary) (hends : Ends r ss) :
    Ends .unary (ts.flatMap Tail.symbols ++ ss) := by
  cases ts with
  | nil => exact hends.mono hr
  | cons u us =>
    obtain ⟨s, ss', heq, hs⟩ := h.1.symbols_eq
    rw [List.flatMap_cons, heq, List.cons_append, List.cons_append, ends_cons, hs]
    rintro _ ⟨⟩
    exact h.1.rank_lt

end Tails

theorem symbols_foldl {left : Node} {ts : List Tail} :
    (ts.foldl Tail.onto left).symbols = left.symbols ++ ts.flatMap Tail.symbols := by
  induction ts generalizing left with
  | nil => simp
  | cons t ts ih => rw [List.foldl_cons, ih, Tail.symbols_onto, List.flatMap_cons, List.append_assoc]

/-- Down its left side a tree is an operand without binary operators, and then one tail after
another. The rank of the last is `r` or above. -/
def Spine (r : Rank) (a : Node) : Prop :=
  ∃ base ts, a = ts.foldl Tail.onto base ∧ base.WellRanked ∧ .unary ≤ base.rank ∧
    sizeOf base ≤ sizeOf a ∧ Tails (sizeOf a) r base.rank ts

theorem Spine.alone {r : Rank} {a : Node} (h : a.WellRanked) (hunary : .unary ≤ a.rank)
    (hr : r ≤ a.rank) : Spine r a :=
  ⟨a, [], rfl, h, hunary, Nat.le_refl _, hr⟩

theorem Spine.onto {r : Rank} {a : Node} {t : Tail} (h : Spine t.left a)
    (hsize : sizeOf a ≤ sizeOf (t.onto a)) (ht : t.WellRanked (sizeOf (t.onto a)))
    (hr : r ≤ t.rank) : Spine r (t.onto a) := by
  obtain ⟨base, ts, heq, hbase, hunary, hle, hts⟩ := h
  refine ⟨base, ts ++ [t], ?_, hbase, hunary, Nat.le_trans hle hsize, (hts.mono hsize).snoc ht hr⟩
  rw [List.foldl_append, ← heq]
  rfl

theorem Spine.joined {r : Rank} {op : Text} {j : Joint} {a b : Node} (h : Spine j.left a)
    (hj : joint? op = some j) (hright : j.right ≤ b.rank) (hb : b.WellRanked) (hr : r ≤ j.rank) :
    Spine r (.binOp op a b) := by
  refine Spine.onto (t := .joined op j b) h ?_ ⟨hj, hright, hb, ?_⟩ hr
  · simp only [Tail.onto, binOp.sizeOf_spec]
    omega
  · simp only [Tail.onto, binOp.sizeOf_spec]
    omega

theorem WellRanked.spine {a : Node} (h : a.WellRanked) :
    ∀ {r : Rank}, r ≤ a.rank → Spine r a := by
  induction h with
  | number => exact .alone .number (Nat.le_add_left ..)
  | var => exact .alone .var (Nat.le_add_left ..)
  | expansion ha =>
    exact .alone (.expansion ha) (by rw [rank_expansion ha]; exact Nat.le_add_left ..)
  | arithExpansion ha => exact .alone (.arithExpansion ha) (Nat.le_add_left ..)
  | parentheses ha => exact .alone (.parentheses ha) (Nat.le_add_left ..)
  | postOp hop hrank ha => exact .alone (.postOp hop hrank ha) (Nat.le_add_left ..)
  | unOp hop hrank ha => exact .alone (.unOp hop hrank ha) (Nat.le_refl _)
  | power hj hleft hright _ hb ih =>
    exact fun hr => Spine.joined (j := .power) (ih hleft) hj hright hb (rank_binOp hj ▸ hr)
  | @row op n a b hj hleft hright _ hb ih =>
    exact fun hr => Spine.joined (j := .row n) (ih hleft) hj hright hb (rank_binOp hj ▸ hr)
  | @ternary a b d hcond hno ha hb hd ih =>
    intro r hr
    refine Spine.onto (t := .chosen b d) (ih hcond) ?_ ⟨hno, hb, hd, ?_, ?_⟩ hr
    · simp only [Tail.onto, ternary.sizeOf_spec]
      omega
    · simp only [Tail.onto, ternary.sizeOf_spec]
      omega
    · simp only [Tail.onto, ternary.sizeOf_spec]
      omega
  | assignment hj hright hb =>
    exact fun hr => Spine.joined (j := .assignment)
      (.alone .var (Nat.le_add_left ..) (Nat.le_refl _)) hj hright hb (rank_binOp hj ▸ hr)
  | comma hj hright _ hb ih =>
    exact fun hr => Spine.joined (j := .comma) (ih (Nat.zero_le _)) hj hright hb
      (rank_binOp hj ▸ hr)

/-! ### One tree for the symbols -/

/-- Trees smaller than `n` are determined by their symbols, whatever follows where they end. -/
def Told (n : Nat) : Prop :=
  ∀ {a b : Node} {r : Rank} {xs ys : List Symbol}, sizeOf a < n → a.WellRanked → b.WellRanked →
    r ≤ .unary → r ≤ a.rank → r ≤ b.rank → Ends r xs → Ends r ys → a.symbols ++ xs = b.symbols ++ ys →
    a = b ∧ xs = ys

section Told
variable {n : Nat} {a b : Node} {xs ys : List Symbol}

theorem not_le_rank_binOp {op : Text} {j : Joint} {a b : Node} {r : Rank} (h : joint? op = some j)
    (hr : .power < r) : ¬ r ≤ (binOp op a b).rank := by
  rw [rank_binOp h]
  obtain ⟨kind, -, hj⟩ := Option.bind_eq_some_iff.mp h
  have hrow := (Joint.ofKind?_eq hj).2.2
  cases j <;> simp_all [Rank.le_iff, Rank.lt_iff, Joint.rank] <;> omega

theorem Tail.WellRanked.ne_question {op : Text} {j : Joint} {right : Node} {m : Nat}
    (h : (Tail.joined op j right).WellRanked m) :
    Symbol.operator op ≠ .token .question ['?'] := by
  intro heq
  obtain ⟨kind, hkind, hj⟩ := Option.bind_eq_some_iff.mp h.1
  rw [Symbol.operator, hkind] at heq
  exact (Joint.ofKind?_eq hj).1 (Symbol.token.inj heq).1

theorem behind_not_ends {op : Text} {ss : List Symbol} (h : isBehindOp op = true) :
    ¬ Ends .post (.operator op :: ss) :=
  fun hends => Nat.lt_irrefl _ (ends_cons.mp hends _ (goesOn?_behind h))

/-- What a tree of the tightest rank is. -/
theorem WellRanked.primary_cases (h : a.WellRanked) (hrank : .primary ≤ a.rank) :
    (∃ value, a = .number value) ∨ (∃ name dollar, a = .var name dollar) ∨
      a.isExpansion = true ∨ (∃ d : Node, a = .arithExpansion d ∧ d.WellRanked) ∨
      ∃ d : Node, a = .parentheses d ∧ d.WellRanked := by
  cases h with
  | number => exact .inl ⟨_, rfl⟩
  | var => exact .inr (.inl ⟨_, _, rfl⟩)
  | expansion h => exact .inr (.inr (.inl h))
  | arithExpansion h => exact .inr (.inr (.inr (.inl ⟨_, rfl, h⟩)))
  | parentheses h => exact .inr (.inr (.inr (.inr ⟨_, rfl, h⟩)))
  | postOp | unOp | ternary => simp [Rank.le_iff, rank] at hrank
  | power hj | row hj | assignment hj | comma hj =>
    exact absurd hrank (not_le_rank_binOp hj (by decide))

/-- An operand ends in front of a token that does not go on with it. -/
theorem ends_token {r : Rank} {kind : Kind} {body : Text} {ss : List Symbol}
    (h : Grammar.goesOn? kind = none) : Ends r (.token kind body :: ss) := by
  rw [ends_cons, Symbol.goesOn?, h]
  nofun

/-- A primary is determined whatever follows. -/
theorem Told.primary (ih : Told n) (hsize : sizeOf a ≤ n) (ha : a.WellRanked) (hb : b.WellRanked)
    (ra : .primary ≤ a.rank) (rb : .primary ≤ b.rank)
    (heq : a.symbols ++ xs = b.symbols ++ ys) : a = b ∧ xs = ys := by
  have hb := hb.primary_cases rb
  obtain ⟨value, rfl⟩ | ⟨name, dollar, rfl⟩ | ha | ⟨d, rfl, hd⟩ | ⟨d, rfl, hd⟩ :=
    ha.primary_cases ra
  · obtain ⟨value', rfl⟩ | ⟨name', dollar', rfl⟩ | hb | ⟨d', rfl, hd'⟩ | ⟨d', rfl, hd'⟩ := hb
    · simpa [symbols] using heq
    · cases dollar' <;> simp [symbols] at heq
    · simp [symbols, symbols_expansion hb] at heq
    · simp [symbols] at heq
    · simp [symbols] at heq
  · obtain ⟨value', rfl⟩ | ⟨name', dollar', rfl⟩ | hb | ⟨d', rfl, hd'⟩ | ⟨d', rfl, hd'⟩ := hb
    · cases dollar <;> simp [symbols] at heq
    · cases dollar <;> cases dollar' <;> simp [symbols] at heq <;> simpa using heq
    · simp [symbols, symbols_expansion hb] at heq
      cases dollar <;> simp at heq
    · cases dollar <;> simp [symbols] at heq
    · cases dollar <;> simp [symbols] at heq
  · obtain ⟨value', rfl⟩ | ⟨name', dollar', rfl⟩ | hb | ⟨d', rfl, hd'⟩ | ⟨d', rfl, hd'⟩ := hb
    · simp [symbols, symbols_expansion ha] at heq
    · cases dollar' <;> simp [symbols, symbols_expansion ha] at heq
    · simpa [symbols_expansion ha, symbols_expansion hb] using heq
    · simp [symbols, symbols_expansion ha] at heq
    · simp [symbols, symbols_expansion ha] at heq
  · obtain ⟨value', rfl⟩ | ⟨name', dollar', rfl⟩ | hb | ⟨d', rfl, hd'⟩ | ⟨d', rfl, hd'⟩ := hb
    · simp [symbols] at heq
    · cases dollar' <;> simp [symbols] at heq
    · simp [symbols, symbols_expansion hb] at heq
    · have hsize : sizeOf d < n := by
        simp at hsize
        omega
      have heq : d.symbols ++ (.token .rparen [')', ')'] :: xs) =
          d'.symbols ++ (.token .rparen [')', ')'] :: ys) := by
        simpa [symbols] using heq
      obtain ⟨rfl, hrest⟩ := ih hsize hd hd' (Rank.comma_le _) (Rank.comma_le _)
        (Rank.comma_le _) (ends_token rfl) (ends_token rfl) heq
      exact ⟨rfl, (List.cons.inj hrest).2⟩
    · simp [symbols] at heq
  · obtain ⟨value', rfl⟩ | ⟨name', dollar', rfl⟩ | hb | ⟨d', rfl, hd'⟩ | ⟨d', rfl, hd'⟩ := hb
    · simp [symbols] at heq
    · cases dollar' <;> simp [symbols] at heq
    · simp [symbols, symbols_expansion hb] at heq
    · simp [symbols] at heq
    · have hsize : sizeOf d < n := by
        simp at hsize
        omega
      have heq : d.symbols ++ (.token .rparen [')'] :: xs) =
          d'.symbols ++ (.token .rparen [')'] :: ys) := by
        simpa [symbols] using heq
      obtain ⟨rfl, hrest⟩ := ih hsize hd hd' (Rank.comma_le _) (Rank.comma_le _)
        (Rank.comma_le _) (ends_token rfl) (ends_token rfl) heq
      exact ⟨rfl, (List.cons.inj hrest).2⟩

/-- What a tree is that binds at least as tightly as an operator behind its operand. -/
theorem WellRanked.post_cases (h : a.WellRanked) (hrank : .post ≤ a.rank) :
    .primary ≤ a.rank ∨ ∃ (op : Text) (d : Node), a = .postOp op d ∧ isBehindOp op = true ∧
      .primary ≤ d.rank ∧ d.WellRanked := by
  cases h with
  | postOp hop hd h => exact .inr ⟨_, _, rfl, hop, hd, h⟩
  | number | var | arithExpansion | parentheses => exact .inl (Nat.le_refl _)
  | expansion h => exact .inl (Nat.le_of_eq (by rw [rank_expansion h]))
  | unOp | ternary => simp [Rank.le_iff, rank] at hrank
  | power hj | row hj | assignment hj | comma hj =>
    exact absurd hrank (not_le_rank_binOp hj (by decide))

/-- What a tree is that binds at least as tightly as an operator in front of its operand. -/
theorem WellRanked.unary_cases (h : a.WellRanked) (hrank : .unary ≤ a.rank) :
    .post ≤ a.rank ∨ ∃ (op : Text) (d : Node), a = .unOp op d ∧ isFrontOp op = true ∧
      .unary ≤ d.rank ∧ d.WellRanked := by
  cases h with
  | unOp hop hd h => exact .inr ⟨_, _, rfl, hop, hd, h⟩
  | postOp => exact .inl (Nat.le_refl _)
  | number | var | arithExpansion | parentheses => exact .inl (Nat.le_succ _)
  | expansion h => exact .inl (by rw [rank_expansion h]; exact Nat.le_succ _)
  | ternary => simp [Rank.le_iff, rank] at hrank
  | power hj | row hj | assignment hj | comma hj =>
    exact absurd hrank (not_le_rank_binOp hj (by decide))

/-- A primary or one with an operator behind it is determined if no other such operator
follows. -/
theorem Told.post (ih : Told n) (hsize : sizeOf a ≤ n) (ha : a.WellRanked) (hb : b.WellRanked)
    (ra : .post ≤ a.rank) (rb : .post ≤ b.rank) (hxs : Ends .post xs) (hys : Ends .post ys)
    (heq : a.symbols ++ xs = b.symbols ++ ys) : a = b ∧ xs = ys := by
  obtain ra | ⟨op, d, rfl, hop, rd, hd⟩ := ha.post_cases ra <;>
    obtain rb | ⟨op', d', rfl, hop', rd', hd'⟩ := hb.post_cases rb
  · exact ih.primary hsize ha hb ra rb heq
  · rw [symbols, List.append_assoc] at heq
    obtain ⟨-, rfl⟩ := ih.primary hsize ha hd' ra rd' heq
    exact absurd hxs (behind_not_ends hop')
  · rw [symbols, List.append_assoc] at heq
    have hsize : sizeOf d ≤ n := by
      simp at hsize
      omega
    obtain ⟨-, rfl⟩ := ih.primary hsize hd hb rd rb heq
    exact absurd hys (behind_not_ends hop)
  · rw [symbols, symbols, List.append_assoc, List.append_assoc] at heq
    have hsize : sizeOf d ≤ n := by
      simp at hsize
      omega
    obtain ⟨rfl, hrest⟩ := ih.primary hsize hd hd' rd rd' heq
    obtain ⟨hhead, htail⟩ := List.cons.inj hrest
    exact ⟨by rw [Symbol.operator_inj hhead], htail⟩

/-- The token that an operator in front stands for starts no primary. -/
theorem WellRanked.front_ne (hb : b.WellRanked) (rb : .post ≤ b.rank) {op : Text}
    (hop : isFrontOp op = true) : Symbol.operator op :: xs ≠ b.symbols ++ ys := by
  have hkind := frontOp_kind hop
  have hprimary : ∀ {d : Node} {ss : List Symbol}, d.WellRanked → .primary ≤ d.rank →
      Symbol.operator op :: xs ≠ d.symbols ++ ss := by
    intro d ss hd rd heq
    rw [Symbol.operator] at heq
    obtain ⟨value, rfl⟩ | ⟨name, dollar, rfl⟩ | hd | ⟨d, rfl, hd⟩ | ⟨d, rfl, hd⟩ :=
      hd.primary_cases rd
    · rw [(Symbol.token.inj (List.cons.inj heq).1).1] at hkind
      cases hkind
    · cases dollar <;>
        · rw [(Symbol.token.inj (List.cons.inj heq).1).1] at hkind
          cases hkind
    · rw [symbols_expansion hd] at heq
      cases (List.cons.inj heq).1
    · rw [(Symbol.token.inj (List.cons.inj heq).1).1] at hkind
      cases hkind
    · rw [(Symbol.token.inj (List.cons.inj heq).1).1] at hkind
      cases hkind
  obtain rb | ⟨op', d', rfl, -, rd', hd'⟩ := hb.post_cases rb
  · exact hprimary hb rb
  · rw [symbols, List.append_assoc]
    exact hprimary hd' rd'

/-- An operand without binary operators is determined if no operator behind an operand
follows. -/
theorem Told.unary (ih : Told n) (hsize : sizeOf a ≤ n) (ha : a.WellRanked) (hb : b.WellRanked)
    (ra : .unary ≤ a.rank) (rb : .unary ≤ b.rank) (hxs : Ends .unary xs) (hys : Ends .unary ys)
    (heq : a.symbols ++ xs = b.symbols ++ ys) : a = b ∧ xs = ys := by
  have hpost : Rank.unary ≤ .post := by decide
  obtain ra | ⟨op, d, rfl, hop, rd, hd⟩ := ha.unary_cases ra <;>
    obtain rb | ⟨op', d', rfl, hop', rd', hd'⟩ := hb.unary_cases rb
  · exact ih.post hsize ha hb ra rb (hxs.mono hpost) (hys.mono hpost) heq
  · exact absurd heq.symm (ha.front_ne ra hop')
  · exact absurd heq (hb.front_ne rb hop)
  · have hsize : sizeOf d < n := by
      simp at hsize
      omega
    obtain ⟨hhead, htail⟩ := List.cons.inj heq
    obtain ⟨rfl, rfl⟩ := ih hsize hd hd' (Nat.le_refl _) rd rd' hxs hys htail
    exact ⟨by rw [Symbol.operator_inj hhead], rfl⟩

/-- A tail is determined if its last operand ends. -/
theorem Told.tail {t u : Tail} {m : Nat} (ih : Told n) (ht : t.WellRanked n)
    (hu : u.WellRanked m) (hxs : Ends t.right xs) (hys : Ends u.right ys)
    (heq : t.symbols ++ xs = u.symbols ++ ys) : t = u ∧ xs = ys := by
  cases t with
  | joined op j a =>
    cases u with
    | joined op' j' b =>
      obtain ⟨hj, ra, ha, hsize⟩ := id ht
      obtain ⟨hj', rb, hb, -⟩ := hu
      obtain ⟨hhead, htail⟩ := List.cons.inj heq
      obtain rfl := Symbol.operator_inj hhead
      cases hj.symm.trans hj'
      obtain ⟨rfl, rfl⟩ := ih hsize ha hb ht.right_le ra rb hxs hys htail
      exact ⟨rfl, rfl⟩
    | chosen yes no => exact absurd (List.cons.inj heq).1 ht.ne_question
  | chosen yes no =>
    cases u with
    | joined op' j' b => exact absurd (List.cons.inj heq).1.symm hu.ne_question
    | chosen yes' no' =>
      obtain ⟨rno, hyes, hno, hsize, hsize'⟩ := id ht
      obtain ⟨rno', hyes', hno', -⟩ := hu
      have heq : yes.symbols ++ .token .colon [':'] :: (no.symbols ++ xs) =
          yes'.symbols ++ .token .colon [':'] :: (no'.symbols ++ ys) := by
        simpa [Tail.symbols] using heq
      obtain ⟨rfl, hrest⟩ := ih hsize hyes hyes' (Rank.comma_le _) (Rank.comma_le _)
        (Rank.comma_le _) (ends_token rfl) (ends_token rfl) heq
      obtain ⟨rfl, rfl⟩ := ih hsize' hno hno' ht.right_le rno rno' hxs hys (List.cons.inj hrest).2
      exact ⟨rfl, rfl⟩

/-- Tails are determined if nothing behind them goes on with them. -/
theorem Told.tails {r k k' : Rank} {ts us : List Tail} {m : Nat} (ih : Told n)
    (hts : Tails n r k ts) (hus : Tails m r k' us) (hxs : Ends r xs) (hys : Ends r ys)
    (heq : ts.flatMap Tail.symbols ++ xs = us.flatMap Tail.symbols ++ ys) : ts = us ∧ xs = ys := by
  induction ts generalizing k k' us with
  | nil =>
    cases us with
    | nil => exact ⟨rfl, heq⟩
    | cons u us =>
      rw [List.flatMap_nil, List.nil_append, List.flatMap_cons, List.append_assoc] at heq
      exact absurd (heq ▸ hxs) (hus.1.not_ends hus.2.2.le)
  | cons t ts iht =>
    cases us with
    | nil =>
      rw [List.flatMap_nil, List.nil_append, List.flatMap_cons, List.append_assoc] at heq
      exact absurd (heq ▸ hys) (hts.1.not_ends hts.2.2.le)
    | cons u us =>
      rw [List.flatMap_cons, List.flatMap_cons, List.append_assoc, List.append_assoc] at heq
      obtain ⟨rfl, hrest⟩ := ih.tail hts.1 hus.1 (hts.2.2.ends hxs) (hus.2.2.ends hys) heq
      obtain ⟨rfl, rfl⟩ := iht hts.2.2 hus.2.2 hrest
      exact ⟨rfl, rfl⟩

theorem Told.succ (ih : Told n) : Told (n + 1) := by
  intro a b r xs ys hsize ha hb hr ra rb hxs hys heq
  obtain ⟨base, ts, rfl, hbase, rbase, hle, hts⟩ := ha.spine ra
  obtain ⟨base', us, rfl, hbase', rbase', -, hus⟩ := hb.spine rb
  have hn := Nat.le_of_lt_succ hsize
  rw [symbols_foldl, symbols_foldl, List.append_assoc, List.append_assoc] at heq
  obtain ⟨rfl, hrest⟩ := ih.unary (Nat.le_trans hle hn) hbase hbase' rbase rbase'
    (hts.ends_base hr hxs) (hus.ends_base hr hys) heq
  obtain ⟨rfl, rfl⟩ := ih.tails (hts.mono hn) hus hxs hys hrest
  exact ⟨rfl, rfl⟩

theorem told : ∀ n, Told n
  | 0 => fun h => absurd h (Nat.not_lt_zero _)
  | n + 1 => Told.succ (told n)

end Told

/-- A well-ranked tree is the only one with its symbols. -/
theorem wellRanked_unique {a b : Node} (ha : a.WellRanked) (hb : b.WellRanked)
    (h : a.symbols = b.symbols) : a = b :=
  (told (sizeOf a + 1) (Nat.lt_succ_self _) ha hb (Rank.comma_le _) (Rank.comma_le _) (Rank.comma_le _)
    (ends_nil _) (ends_nil _) (congrArg (· ++ []) h)).1

end Node

end ShellGrammar
