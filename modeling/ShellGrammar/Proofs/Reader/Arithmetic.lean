import ShellGrammar.Proofs.Reader.Tail
import ShellGrammar.Proofs.Rules.Language

/-! Arithmetic expressions and what stands behind them.

No part of an arithmetic expression takes the parenthesis, bracket or brace that closes
what the expression stands in. So an expression in front of `))` is the same expression in
front of any other closer (`Parses.exchange`), also behind other blank
(`Parses.exchange_fronts`), and it ends with something that is not blank
(`Parses.endsSolid`). -/
namespace ShellGrammar
open Grammar ParseM Rules

/-! ### What ends an expression -/

namespace Rules
variable {x : Char} {t more : Text}

/-- The characters that close what an expression can stand in. -/
def arithEnds : Text := [')', ']', '}']

theorem firstFit_congr {rs : List Rule} {t u : Text}
    (h : ∀ r ∈ rs, r.pattern.reach? t = r.pattern.reach? u) : firstFit rs t = firstFit rs u := by
  induction rs with
  | nil => rfl
  | cons r rs ih =>
    simp only [firstFit, h r List.mem_cons_self, ih fun r' hr' => h r' (List.mem_cons_of_mem r hr')]

/-- In an expression nothing but the closer itself takes a closer. -/
theorem firstFit_arith (hx : x ∈ arithEnds) (ht : t ≠ []) (more : Text) :
    firstFit arith.set.rules (t ++ x :: more) = firstFit arith.set.rules t := by
  have hrules : arith.set.rules.all (fun r => r.pattern.avoids x || r.pattern.isShort) = true := by
    simp only [arithEnds, List.mem_cons, List.not_mem_nil, or_false] at hx
    rcases hx with rfl | rfl | rfl <;> rfl
  refine firstFit_congr fun r hr => ?_
  rcases Bool.or_eq_true_iff.mp (List.all_eq_true.mp hrules r hr) with havoids | hshort
  · rw [Pattern.reach?, Pattern.steady_of_avoids havoids t more id]
    rfl
  · rw [Pattern.reach?, Pattern.reach_short hshort ht]
    rfl

theorem blankLength_arith (hx : x ∈ arithEnds) (t more : Text) :
    arith.blankLength (t ++ x :: more) = arith.blankLength t := by
  have hblank : (blankOf [' ', '\t', '\n']).avoids x = true := by
    simp only [arithEnds, List.mem_cons, List.not_mem_nil, or_false] at hx
    rcases hx with rfl | rfl | rfl <;> rfl
  show ((blankOf [' ', '\t', '\n']).reach (t ++ x :: more)).getD 0 = _
  rw [Pattern.steady_of_avoids hblank t more id]
  rfl

/-- A character that closes what an expression can stand in, and the kind of its token. -/
inductive EndsArith : Char → Kind → Prop where
  | paren : EndsArith ')' .rparen
  | bracket : EndsArith ']' .rbracket
  | brace : EndsArith '}' .rbrace

theorem EndsArith.mem {kind : Kind} (h : EndsArith x kind) : x ∈ arithEnds := by
  cases h <;> decide

theorem EndsArith.fit {kind : Kind} (h : EndsArith x kind) (more : Text) :
    firstFit arith.set.rules (x :: more) = some (kind, 1) := by
  cases h <;> rfl

theorem skipLength_arith (place : Scan) : arith.skipLength place = arith.blankLength place.rest := rfl

end Rules

namespace Scan.Ahead
variable {m a : Scan} {x : Char} {more : Text} {kind : Kind}

theorem skipLength_arith (h : m.Ahead (x :: more) a) (hx : EndsArith x kind) :
    arith.skipLength a = arith.skipLength m := by
  rw [Rules.skipLength_arith, Rules.skipLength_arith, h.rest, blankLength_arith hx.mem]

/-- With a tail behind an expression the same token is read, if one is left. -/
theorem tokenAt_arith (h : m.Ahead (x :: more) a) (hx : EndsArith x kind)
    (hne : m.rest.drop (arith.skipLength m) ≠ []) :
    (arith.tokenAt a).toOption = (arith.tokenAt m).toOption.map (·.at a) :=
  h.tokenAt_of_same (h.skipLength_arith hx) hne (firstFit_arith hx.mem hne more)

/-- Behind an expression the first character of the tail is read. -/
theorem tokenAt_arith_end (h : m.Ahead (x :: more) a) (hx : EndsArith x kind)
    (hnil : m.rest.drop (arith.skipLength m) = []) :
    ∃ t, arith.tokenAt a = .ok t ∧ t.kind = kind ∧ t.after.rest = more := by
  have hdrop : a.rest.drop (arith.skipLength a) = x :: more := by
    rw [h.skipLength_arith hx, h.rest, List.drop_append_of_le_length (skipLength_le arith m), hnil,
      List.nil_append]
  have hfit : firstFit arith.set.rules (a.rest.drop (arith.skipLength a)) = some (kind, 1) := by
    rw [hdrop]
    exact hx.fit more
  refine ⟨_, tokenAt_of_fit hfit, rfl, ?_⟩
  obtain ⟨hblank, hbody⟩ := length_cut kind hfit
  rw [Token.after, hblank, hbody, Rules.cut, Scan.rest_forward, ← List.drop_drop, hdrop]
  rfl

end Scan.Ahead

variable {c : Context} {x x' : Char} {more more' : Text} {kind kind' : Kind} {a a₁ b : Scan}
  {t : Token}

/-- With another tail behind an expression the same token is read, or the first character of
each tail. -/
theorem Scan.Fork.token?_arith (h : a.Fork (x :: more) (x' :: more') b) (hx : EndsArith x kind)
    (hx' : EndsArith x' kind') (hrules : c.mode.rules = .arith) (ht : c.token? a = some t) :
    (c.token? b = some (t.at b) ∧ t.after.Fork (x :: more) (x' :: more') (t.at b).after) ∨
      (t.kind = kind ∧ t.after.rest = more ∧ ∃ t', c.token? b = some t' ∧ t'.kind = kind') := by
  obtain ⟨m, hm, hb⟩ := h
  rw [Context.token?, hrules] at ht ⊢
  by_cases hnil : m.rest.drop (arith.skipLength m) = []
  · right
    obtain ⟨u, hu, hkind, hrest⟩ := hm.tokenAt_arith_end hx hnil
    obtain ⟨v, hv, hkind', _⟩ := hb.tokenAt_arith_end hx' hnil
    rw [hu] at ht
    cases ht
    rw [hv]
    exact ⟨hkind, hrest, v, rfl, hkind'⟩
  · left
    rw [hm.tokenAt_arith hx hnil, Option.map_eq_some_iff] at ht
    obtain ⟨u, hu, rfl⟩ := ht
    rw [hb.tokenAt_arith hx' hnil, hu]
    have hlexed : arith.tokenAt m = .ok u := by
      have hcontext : Context.token? (c.under .arith true) m = some u := hu
      exact Context.token?_eq_some.mp hcontext
    obtain ⟨rfl, hfits⟩ := tokenAt_fits hlexed
    exact ⟨rfl, u.after, hm.after hfits, hb.after hfits⟩

/-! ### Expressions -/

/-- The productions of arithmetic expressions. -/
def Production.IsArithmetic : Production → Prop
  | chain ch | chainRest ch _ => ch.isCommand = false
  | assignment | ternary | power | unary | post | primary => True
  | _ => False

/-- The questions that are asked in arithmetic expressions: none takes a bracket or brace that
closes. -/
def Query.IsArithmetic : (β : Type) → Query β → Prop
  | _, take _ want => ∀ b, want b .rbracket = false ∧ want b .rbrace = false
  | _, target => True
  | _, _ => False

/-- The calls that are made in arithmetic expressions. -/
def Shift.IsArithmetic (shift : Shift) (p : Production) : Prop :=
  (shift = .here ∧ p.IsArithmetic) ∨ p.IsClosing

namespace Reader

theorem within_next {kinds : List Kind}
    (h : among kinds .rbracket = false ∧ among kinds .rbrace = false) :
    (next kinds).Within Query.IsArithmetic Shift.IsArithmetic := within_query fun _ => h

end Reader

open Reader in
theorem Production.IsArithmetic.within {p : Production} (hp : p.IsArithmetic) :
    p.body.Within Query.IsArithmetic Shift.IsArithmetic := by
  have hhere : ∀ {p : Production}, p.IsArithmetic → Shift.IsArithmetic .here p :=
    fun hp => .inl ⟨rfl, hp⟩
  cases p with
  | chain ch =>
    cases ch with
    | andOr | pipe => cases hp
    | comma =>
      exact within_bind (within_one (hhere trivial)) fun _ => within_all (hhere rfl)
    | binary min =>
      exact within_bind (within_one (hhere trivial)) fun _ => within_all (hhere rfl)
  | chainRest ch left =>
    have hoperator : ch.operator.Within Query.IsArithmetic Shift.IsArithmetic := by
      refine within_bind (within_query fun _ => ?_) fun o => ?_
      · cases ch with
        | andOr | pipe => cases hp
        | comma => exact ⟨rfl, rfl⟩
        | binary min => exact ⟨rfl, rfl⟩
      · cases o with
        | none => exact within_pure
        | some op =>
          simp only [show ch.isCommand = false from hp, Bool.false_eq_true, if_false]
          exact within_pure
    refine within_bind hoperator fun o => ?_
    cases o with
    | none => exact within_pure
    | some op =>
      refine within_bind (within_one (hhere ?_)) fun _ => within_all (hhere hp)
      cases ch with
      | andOr | pipe => cases hp
      | comma => trivial
      | binary min => rfl
  | assignment =>
    refine within_bind (within_query trivial) fun o => ?_
    cases o with
    | none => exact within_all (hhere trivial)
    | some target => exact within_bind (within_one (hhere trivial)) fun _ => within_pure
  | ternary =>
    refine within_bind (within_one (hhere rfl)) fun _ => within_bind (within_next ⟨rfl, rfl⟩) fun o => ?_
    cases o with
    | none => exact within_pure
    | some _ =>
      refine within_bind (within_one (hhere rfl)) fun _ => ?_
      refine within_bind (within_expect (within_next ⟨rfl, rfl⟩)) fun _ => ?_
      exact within_bind (within_one (hhere trivial)) fun _ => within_pure
  | power =>
    refine within_bind (within_one (hhere trivial)) fun _ => within_bind (within_next ⟨rfl, rfl⟩) fun o => ?_
    cases o with
    | none => exact within_pure
    | some _ => exact within_bind (within_one (hhere trivial)) fun _ => within_pure
  | unary =>
    refine within_bind (within_next ⟨rfl, rfl⟩) fun o => ?_
    cases o with
    | none => exact within_all (hhere trivial)
    | some _ => exact within_bind (within_one (hhere trivial)) fun _ => within_pure
  | post =>
    refine within_bind (within_one (hhere trivial)) fun _ => within_bind (within_next ⟨rfl, rfl⟩) fun o => ?_
    cases o <;> exact within_pure
  | primary =>
    refine within_bind (within_expect (within_next ⟨rfl, rfl⟩)) fun l => ?_
    unfold primaryRest
    split
    · exact within_pure
    · exact within_pure
    · exact within_pure
    · refine within_bind (within_one (hhere rfl)) fun _ => ?_
      exact within_bind (within_expect (within_next ⟨rfl, rfl⟩)) fun _ => within_pure
    · exact within_all (.inr trivial)
    · exact within_all (.inr trivial)
    · exact within_bind (within_one (.inr trivial)) fun _ => within_pure
    · trivial
  | many | newlines | list | entries | entry | pipeline | command | assign | word | piece | quoted
    | braced | arithClosed => cases hp

/-! ### Expressions with other tails -/

/-- A tail that is ahead is not behind its first character. -/
theorem not_suffix_cons {y : Char} {u : Text} : ¬ (y :: u) <:+ u := by
  intro h
  have hle := h.length_le
  rw [List.length_cons] at hle
  omega

/-- The productions of arithmetic expressions read the same with another tail. -/
def Exchanged (x x' : Char) (more more' : Text) : Yielding := fun c p a ns a₁ =>
  c.mode.rules = .arith → p.IsArithmetic → (x :: more) <:+ a₁.rest →
    ∀ b, a.Fork (x :: more) (x' :: more') b →
      ∃ b₁, Parses c p b ns b₁ ∧ a₁.Fork (x :: more) (x' :: more') b₁

/-- What is known of calls. -/
abbrev BeforeExchange (x x' : Char) (more more' : Text) : Yielding := fun c p a ns a₁ =>
  Parses c p a ns a₁ ∧ Exchanged x x' more more' c p a ns a₁

theorem Scan.Fork.suffix {tail tail' : Text} (h : a.Fork tail tail' b) : tail <:+ a.rest := by
  obtain ⟨m, hm, _⟩ := h
  exact ⟨m.rest, hm.rest.symm⟩

section Fork
variable (hx : EndsArith x kind) (hx' : EndsArith x' kind') (hkind' : kind' ∈ [.rbracket, .rbrace])
include hx hx' hkind'

/-- A token that is the first of the other tail is not wanted. -/
theorem Scan.Fork.take_arith (h : a.Fork (x :: more) (x' :: more') b)
    (hrules : c.mode.rules = .arith) {adjacent : Bool} {want : Bool → Kind → Bool}
    (hwant : ∀ b, want b .rbracket = false ∧ want b .rbrace = false) {o : Option Lexeme}
    (hanswer : (Query.take adjacent want).answer c a = some (o, a₁))
    (hend : (x :: more) <:+ a₁.rest) :
    ∃ b₁, (Query.take adjacent want).answer c b = some (o, b₁) ∧
      a₁.Fork (x :: more) (x' :: more') b₁ := by
  cases o with
  | none =>
    obtain ⟨t, ht, hwants, rfl⟩ := Query.take_none.mp hanswer
    obtain ⟨ht', _⟩ | ⟨_, _, t', ht', hthere⟩ := h.token?_arith hx hx' hrules ht
    · exact ⟨b, Query.take_none.mpr ⟨_, ht', hwants, rfl⟩, h⟩
    · have hno : want c.inBackquote t'.kind = false := by
        rw [hthere]
        simp only [List.mem_cons, List.not_mem_nil, or_false] at hkind'
        rcases hkind' with rfl | rfl
        · exact (hwant _).1
        · exact (hwant _).2
      refine ⟨b, Query.take_none.mpr ⟨t', ht', ?_, rfl⟩, h⟩
      rw [Context.wants, hno, Bool.false_and]
  | some l =>
    obtain ⟨t, ht, hwants, rfl, rfl⟩ := Query.take_some.mp hanswer
    obtain ⟨ht', hafter⟩ | ⟨_, hrest, _⟩ := h.token?_arith hx hx' hrules ht
    · exact ⟨_, Query.take_some.mpr ⟨_, ht', hwants, rfl, rfl⟩, hafter⟩
    · rw [hrest] at hend
      exact absurd hend not_suffix_cons

/-- Behind a name that stands at both places, an assignment is found alike. -/
theorem Scan.Fork.target_arith {t' : Token} (h : t.after.Fork (x :: more) (x' :: more') t'.after)
    (hrules : c.mode.rules = .arith) (ht : c.token? a = some t) (ht' : c.token? b = some t')
    (hsame : c.wants false (among [.ident]) t' = c.wants false (among [.ident]) t)
    (hbody : t'.body = t.body) {o : Option (Text × Text)}
    (hanswer : Query.target.answer c a = some (o, a₁)) (hend : (x :: more) <:+ a₁.rest) :
    (o = none ∧ a₁ = a ∧ Query.target.answer c b = some (none, b)) ∨
      ∃ b₁, Query.target.answer c b = some (o, b₁) ∧ a₁.Fork (x :: more) (x' :: more') b₁ := by
  have hnext : ∀ {l : Option Lexeme} {a₂ : Scan},
      (Query.take false fun _ => among assignmentOps).answer c t.after = some (l, a₂) →
      (x :: more) <:+ a₂.rest →
      ∃ b₂, (Query.take false fun _ => among assignmentOps).answer c t'.after = some (l, b₂) ∧
        a₂.Fork (x :: more) (x' :: more') b₂ :=
    h.take_arith hx hx' hkind' hrules fun _ => ⟨rfl, rfl⟩
  obtain ⟨u, hu, hcase⟩ := Query.target_iff.mp hanswer
  obtain rfl := Option.some.inj (ht.symm.trans hu)
  obtain ⟨hwants, rfl, rfl⟩ | ⟨hwants, v, hv, ⟨hno, rfl, rfl⟩ | ⟨hyes, rfl, rfl⟩⟩ := hcase
  · exact .inl ⟨rfl, rfl, Query.target_iff.mpr ⟨t', ht', .inl ⟨hsame.trans hwants, rfl, rfl⟩⟩⟩
  · obtain ⟨_, htake, _⟩ := hnext (Query.take_none.mpr ⟨v, hv, hno, rfl⟩) h.suffix
    obtain ⟨v', hv', hno', _⟩ := Query.take_none.mp htake
    exact .inl ⟨rfl, rfl, Query.target_iff.mpr
      ⟨t', ht', .inr ⟨hsame.trans hwants, v', hv', .inl ⟨hno', rfl, rfl⟩⟩⟩⟩
  · obtain ⟨_, htake, hfork⟩ := hnext (Query.take_some.mpr ⟨v, hv, hyes, rfl, rfl⟩) hend
    obtain ⟨v', hv', hyes', hlexeme, rfl⟩ := Query.take_some.mp htake
    have hop : v.body = v'.body := congrArg Lexeme.body hlexeme
    exact .inr ⟨v'.after, Query.target_iff.mpr ⟨t', ht', .inr ⟨hsame.trans hwants, v', hv',
      .inr ⟨hyes', by rw [hbody, hop], rfl⟩⟩⟩, hfork⟩

theorem Scan.Fork.answer_arith (h : a.Fork (x :: more) (x' :: more') b)
    (hrules : c.mode.rules = .arith) {β : Type} {q : Query β} (hq : Query.IsArithmetic β q) {r : β}
    (hanswer : q.answer c a = some (r, a₁)) (hend : (x :: more) <:+ a₁.rest) :
    ∃ b₁, q.answer c b = some (r, b₁) ∧ a₁.Fork (x :: more) (x' :: more') b₁ := by
  cases q with
  | take adjacent want => exact h.take_arith hx hx' hkind' hrules hq hanswer hend
  | target =>
    obtain ⟨t, ht, hcase⟩ := Query.target_iff.mp hanswer
    obtain ⟨ht', hafter⟩ | ⟨hkind, _, t', ht', hthere⟩ := h.token?_arith hx hx' hrules ht
    · obtain ⟨rfl, rfl, hthere⟩ | hthere :=
        hafter.target_arith hx hx' hkind' hrules ht ht' rfl rfl hanswer hend
      · exact ⟨b, hthere, h⟩
      · exact hthere
    · have hident : ∀ {u : Token}, u.kind = kind ∨ u.kind = kind' →
          c.wants false (among [.ident]) u = false := by
        intro u hu
        have hno : among [.ident] u.kind = false := by
          rcases hu with hu | hu <;> rw [hu]
          · cases hx <;> rfl
          · cases hx' <;> rfl
        rw [Context.wants, hno, Bool.false_and]
      obtain ⟨_, rfl, rfl⟩ | ⟨hwants, _⟩ := hcase
      · exact ⟨b, Query.target_iff.mpr ⟨t', ht', .inl ⟨hident (.inr hthere), rfl, rfl⟩⟩, h⟩
      · rw [hident (.inl hkind)] at hwants
        cases hwants
  | peek | mark | close | bang => exact hq.elim

variable (htail : Text.isInert (x :: more) = true) (htail' : Text.isInert (x' :: more') = true)
include htail htail'

theorem carries_arith (hrules : c.mode.rules = .arith) :
    Carries Query.IsArithmetic Shift.IsArithmetic (BeforeExchange x x' more more') Parses c c
      (Scan.Fork (x :: more) (x' :: more')) (fun place => (x :: more) <:+ place.rest) where
  ask hq hanswer hend hfork := hfork.answer_arith hx hx' hkind' hrules hq hanswer hend
  call hcall hbelow hend hfork := by
    obtain ⟨rfl, hp⟩ | hp := hcall
    · exact hbelow.2 hrules hp hend _ hfork
    · exact hbelow.1.fork_of_closing htail htail' hp hend hfork
  asked _ hanswer hend := hend.trans (Query.suffix_of_answer hanswer)
  called _ hbelow hend := hend.trans hbelow.1.suffix

/-- An arithmetic production that ends in front of one tail ends in front of any other. -/
theorem Parses.exchange {p : Production} {ns : List Node} (h : Parses c p a ns a₁)
    (hp : p.IsArithmetic) (hrules : c.mode.rules = .arith) (hend : (x :: more) <:+ a₁.rest)
    (hfork : a.Fork (x :: more) (x' :: more') b) :
    ∃ b₁, Parses c p b ns b₁ ∧ a₁.Fork (x :: more) (x' :: more') b₁ := by
  refine @Parses.induct _ _ _ (Exchanged x x' more more') ?_ _ _ h hrules hp hend b hfork
  intro c p a ns a₁ hbody hrules hp hend b hfork
  obtain ⟨b₁, hleads, hfork₁⟩ :=
    ((carries_arith hx hx' hkind' htail htail' hrules).leads hp.within hbody hend).2 b hfork
  exact ⟨b₁, parses_iff.mpr hleads, hfork₁⟩

/-- So does a reader that reads arithmetic. -/
theorem leads_exchange {α : Type} {m : Reader α} {r : α}
    (h : Leads c m a r a₁) (hm : m.Within Query.IsArithmetic Shift.IsArithmetic)
    (hrules : c.mode.rules = .arith) (hend : (x :: more) <:+ a₁.rest)
    (hfork : a.Fork (x :: more) (x' :: more') b) :
    ∃ b₁, Leads c m b r b₁ ∧ a₁.Fork (x :: more) (x' :: more') b₁ := by
  have hknown : m.LeadsBy (BeforeExchange x x' more more') c a r a₁ :=
    h.mono fun _ _ _ _ _ hcall => ⟨hcall, fun hrules hp hend _ hfork =>
      hcall.exchange hx hx' hkind' htail htail' hp hrules hend hfork⟩
  exact ((carries_arith hx hx' hkind' htail htail' hrules).leads hm hknown hend).2 b hfork

end Fork

/-! ### In front of an expression -/

/-- Productions that start with an operand. -/
def Production.IsOperand : Production → Prop
  | chain ch => ch.isCommand = false
  | assignment | ternary | power | unary | post | primary => True
  | _ => False

/-- What starts with an operand calls another production for it, or asks for a token. -/
theorem Production.IsOperand.cases {p : Production} (hp : p.IsOperand) :
    (∃ q k, q.IsOperand ∧ p.body = Reader.one .here q >>= k) ∨ p = .assignment ∨ p = .unary ∨
      p = .primary := by
  cases p with
  | chain ch =>
    refine .inl ⟨ch.first, _, ?_, rfl⟩
    cases ch with
    | andOr | pipe => cases hp
    | comma | binary => trivial
  | ternary => exact .inl ⟨.chain (.binary 0), _, rfl, rfl⟩
  | power => exact .inl ⟨.unary, _, trivial, rfl⟩
  | post => exact .inl ⟨.primary, _, trivial, rfl⟩
  | assignment => exact .inr (.inl rfl)
  | unary => exact .inr (.inr (.inl rfl))
  | primary => exact .inr (.inr (.inr rfl))
  | chainRest | many | newlines | list | entries | entry | pipeline | command | assign | word
    | piece | quoted | braced | arithClosed => exact hp.elim

theorem Production.IsOperand.isArithmetic {p : Production} (hp : p.IsOperand) :
    p.IsArithmetic := by
  cases p with
  | chain ch => exact hp
  | ternary | power | post | assignment | unary | primary => trivial
  | chainRest | many | newlines | list | entries | entry | pipeline | command | assign | word
    | piece | quoted | braced | arithClosed => exact hp.elim

/-- An expression starts with an operand, or with an operator in front of one. -/
theorem Parses.operand_start {p : Production} {ns : List Node} (h : Parses c p a ns a₁)
    (hp : p.IsOperand) : ∃ t, c.token? a = some t ∧ t.kind ∈ frontOps ++ primaryStart := by
  refine @Parses.induct _ _ _ (fun c p a _ _ => p.IsOperand →
    ∃ t, c.token? a = some t ∧ t.kind ∈ frontOps ++ primaryStart) ?_ _ _ h hp
  intro c p a ns a₁ hbody hp
  obtain ⟨q, k, hq, heq⟩ | rfl | rfl | rfl := hp.cases
  · rw [heq] at hbody
    obtain ⟨_, _, hone, _⟩ := leads_bind.mp hbody
    exact (leads_one.mp hone).2 hq
  · obtain ⟨o, a₂, hask, hrest⟩ := leads_bind.mp hbody
    obtain ⟨t, ht, hcase⟩ := Query.target_iff.mp (leads_query.mp hask)
    obtain ⟨_, rfl, rfl⟩ | ⟨hwants, _⟩ := hcase
    · exact (leads_all.mp hrest).2 trivial
    · refine ⟨t, ht, ?_⟩
      rw [List.mem_singleton.mp (mem_of_wants (by decide) hwants)]
      decide
  · obtain ⟨o, a₂, hfront, hrest⟩ := leads_bind.mp hbody
    cases o with
    | none =>
      obtain ⟨_, _, _, rfl⟩ := leads_next_none.mp hfront
      exact (leads_all.mp hrest).2 trivial
    | some l =>
      obtain ⟨t, ht, hwants, _⟩ := leads_next_some.mp hfront
      exact ⟨t, ht, List.mem_append_left _ (mem_of_wants (by decide) hwants)⟩
  · obtain ⟨l, a₂, hexpect, _⟩ := leads_bind.mp hbody
    obtain ⟨t, ht, hwants, _⟩ := leads_next_some.mp (leads_expect.mp hexpect)
    exact ⟨t, ht, List.mem_append_right _ (mem_of_wants (by decide) hwants)⟩

/-- The same token stands at both places, whatever is in front of it, and behind it stands
the same up to the tails. -/
def Context.Fronts (c : Context) (tail tail' : Text) (place other : Scan) : Prop :=
  ∀ t, c.token? place = some t →
    ∃ t', c.token? other = some t' ∧ t'.lexeme = t.lexeme ∧ t.after.Fork tail tail' t'.after

theorem wants_of_lexeme {t t' : Token} (h : t'.lexeme = t.lexeme) (hblank : c.mode.allowBlank = true)
    (want : Kind → Bool) : c.wants false want t' = c.wants false want t := by
  have hkind : t'.kind = t.kind := congrArg Lexeme.kind h
  simp only [Context.wants, hkind, hblank, Bool.not_false, Bool.true_and, Bool.true_or]

section Fronts
variable (hx : EndsArith x kind) (hx' : EndsArith x' kind') (hkind' : kind' ∈ [.rbracket, .rbrace])
  (htail : Text.isInert (x :: more) = true) (htail' : Text.isInert (x' :: more') = true)
include hx hx' hkind' htail htail'

/-- An operand is read the same where its first token is. -/
theorem Parses.exchange_fronts {p : Production} {ns : List Node} (h : Parses c p a ns a₁)
    (hp : p.IsOperand) (hrules : c.mode.rules = .arith) (hblank : c.mode.allowBlank = true)
    (hend : (x :: more) <:+ a₁.rest) (hfronts : c.Fronts (x :: more) (x' :: more') a b) :
    ∃ b₁, Parses c p b ns b₁ ∧ a₁.Fork (x :: more) (x' :: more') b₁ := by
  refine @Parses.induct _ _ _ (fun c p a ns a₁ => p.IsOperand → c.mode.rules = .arith →
    c.mode.allowBlank = true → (x :: more) <:+ a₁.rest → ∀ b,
      c.Fronts (x :: more) (x' :: more') a b →
      ∃ b₁, Parses c p b ns b₁ ∧ a₁.Fork (x :: more) (x' :: more') b₁)
    ?_ _ _ h hp hrules hblank hend b hfronts
  intro c p a ns a₁ hbody hp hrules hblank hend b hfronts
  have hwithin := hp.isArithmetic.within
  -- Behind the first token the other tail makes no difference.
  have hgo : ∀ {α : Type} {m : Reader α} {r : α} {a₂ b₂ : Scan},
      m.Within Query.IsArithmetic Shift.IsArithmetic → Leads c m a₂ r a₁ →
      a₂.Fork (x :: more) (x' :: more') b₂ →
      ∃ b₁, Leads c m b₂ r b₁ ∧ a₁.Fork (x :: more) (x' :: more') b₁ :=
    fun hm hleads => leads_exchange hx hx' hkind' htail htail' hleads hm hrules hend
  obtain ⟨q, k, hq, heq⟩ | rfl | rfl | rfl := hp.cases
  · rw [heq] at hbody hwithin
    obtain ⟨n, a₂, hone, hrest⟩ := leads_bind.mp hbody
    have hrest : Leads c (k n) a₂ ns a₁ := hrest.mono fun _ _ _ _ _ => And.left
    have hend₂ : (x :: more) <:+ a₂.rest :=
      hend.trans (hrest.suffix fun _ _ _ _ _ => Parses.suffix)
    obtain ⟨b₂, hthere, hfork₂⟩ := (leads_one.mp hone).2 hq hrules hblank hend₂ b hfronts
    obtain ⟨b₁, hthere₁, hfork₁⟩ := hgo (hwithin.2 [n]) hrest hfork₂
    refine ⟨b₁, parses_iff.mpr ?_, hfork₁⟩
    rw [heq]
    exact leads_bind.mpr ⟨n, b₂, leads_one.mpr hthere, hthere₁⟩
  · obtain ⟨o, a₂, hask, hrest⟩ := leads_bind.mp hbody
    have hanswer := leads_query.mp hask
    obtain ⟨t, ht, _⟩ := Query.target_iff.mp hanswer
    obtain ⟨t', ht', hlexeme, hfork⟩ := hfronts t ht
    have hend₂ : (x :: more) <:+ a₂.rest :=
      hend.trans (hrest.suffix fun _ _ _ _ _ hcall => hcall.1.suffix)
    obtain ⟨rfl, rfl, hthere⟩ | ⟨b₂, hthere, hfork₂⟩ := hfork.target_arith hx hx' hkind' hrules ht ht'
      (wants_of_lexeme hlexeme hblank _) (congrArg Lexeme.body hlexeme) hanswer hend₂
    · obtain ⟨b₁, hternary, hfork₁⟩ := (leads_all.mp hrest).2 trivial hrules hblank hend b hfronts
      exact ⟨b₁, parses_iff.mpr (leads_bind.mpr
        ⟨none, b, leads_query.mpr hthere, leads_all.mpr hternary⟩), hfork₁⟩
    · obtain ⟨b₁, hthere₁, hfork₁⟩ := hgo (hwithin.2 o) (hrest.mono fun _ _ _ _ _ => And.left) hfork₂
      exact ⟨b₁, parses_iff.mpr (leads_bind.mpr ⟨o, b₂, leads_query.mpr hthere, hthere₁⟩), hfork₁⟩
  · obtain ⟨o, a₂, hfront, hrest⟩ := leads_bind.mp hbody
    cases o with
    | none =>
      obtain ⟨t, ht, hwants, rfl⟩ := leads_next_none.mp hfront
      obtain ⟨t', ht', hlexeme, _⟩ := hfronts t ht
      obtain ⟨b₁, hthere, hfork₁⟩ := (leads_all.mp hrest).2 trivial hrules hblank hend b hfronts
      refine ⟨b₁, parses_iff.mpr (leads_bind.mpr ⟨none, b, ?_, leads_all.mpr hthere⟩), hfork₁⟩
      exact leads_next_none.mpr ⟨t', ht', (wants_of_lexeme hlexeme hblank _).trans hwants, rfl⟩
    | some l =>
      obtain ⟨t, ht, hwants, rfl, rfl⟩ := leads_next_some.mp hfront
      obtain ⟨t', ht', hlexeme, hfork⟩ := hfronts t ht
      obtain ⟨b₁, hthere, hfork₁⟩ := hgo (hwithin.2 (some t.lexeme))
        (hrest.mono fun _ _ _ _ _ => And.left) hfork
      refine ⟨b₁, parses_iff.mpr (leads_bind.mpr ⟨some t.lexeme, t'.after, ?_, hthere⟩), hfork₁⟩
      exact leads_next_some.mpr
        ⟨t', ht', (wants_of_lexeme hlexeme hblank _).trans hwants, hlexeme.symm, rfl⟩
  · obtain ⟨l, a₂, hexpect, hrest⟩ := leads_bind.mp hbody
    obtain ⟨t, ht, hwants, rfl, rfl⟩ := leads_next_some.mp (leads_expect.mp hexpect)
    obtain ⟨t', ht', hlexeme, hfork⟩ := hfronts t ht
    obtain ⟨b₁, hthere, hfork₁⟩ := hgo (hwithin.2 (some t.lexeme))
      (hrest.mono fun _ _ _ _ _ => And.left) hfork
    refine ⟨b₁, parses_iff.mpr (leads_bind.mpr ⟨t.lexeme, t'.after, ?_, hthere⟩), hfork₁⟩
    exact leads_expect.mpr (leads_next_some.mpr
      ⟨t', ht', (wants_of_lexeme hlexeme hblank _).trans hwants, hlexeme.symm, rfl⟩)

end Fronts

/-! ### Where an expression starts -/

theorem Scan.forward_add (n k : Nat) (s : Scan) : (s.forward n).forward k = s.forward (n + k) := by
  induction n generalizing s with
  | zero => rw [Nat.zero_add]; rfl
  | succ n ih =>
    rw [Nat.succ_add]
    cases hrest : s.rest with
    | nil =>
      have hstay : ∀ m, s.forward m = s := by
        intro m
        cases m with
        | zero => rfl
        | succ m => simp only [Scan.forward, hrest]
      rw [hstay, hstay, hstay]
    | cons ch r =>
      simp only [Scan.forward, hrest]
      exact ih _

/-- A space is blank, and more blank may follow it. -/
theorem Rules.blankLength_space (t : Text) :
    arith.blankLength (' ' :: t) = arith.blankLength t + 1 := by
  have hpos : ∀ u : Text, Pattern.reach (.alt (.oneOf [' ', '\t', '\n']) (.lit ['\\', '\n'])) u ≠
      some 0 := by
    intro u hu
    cases u with
    | nil => cases hu
    | cons c u =>
      cases hspace : List.contains [' ', '\t', '\n'] c with
      | true =>
        simp only [Pattern.reach, Pattern.oneOf, hspace, if_true] at hu
        cases hu
      | false =>
        simp only [Pattern.reach, Pattern.oneOf, hspace, Bool.false_eq_true, if_false,
          Option.ite_none_right_eq_some] at hu
        cases hu.2
  show ((blankOf [' ', '\t', '\n']).reach (' ' :: t)).getD 0 =
    ((blankOf [' ', '\t', '\n']).reach t).getD 0 + 1
  rw [blankOf, Pattern.reach_some1 (hpos _), Pattern.reach_some1 (hpos _)]
  simp [Pattern.covered, Pattern.reach, Pattern.oneOf]

/-- The first token of an expression, where it is written perhaps behind a space. -/
theorem tokenAt_expression {y : Char} {E gap tail : Text} {k : Kind} {n : Nat} {place : Scan}
    (hy : y ∈ arithEnds) (hplace : place.rest = gap ++ (E ++ y :: tail))
    (hgap : gap = [] ∨ gap = [' '])
    (hfit : firstFit arith.set.rules (E.drop (arith.blankLength E)) = some (k, n)) :
    ∃ t, arith.tokenAt place = .ok t ∧ t.lexeme = ⟨k, (E.drop (arith.blankLength E)).take n⟩ ∧
      t.after = (place.forward gap.length).forward (arith.blankLength E + n) := by
  have hskip : arith.skipLength place = gap.length + arith.blankLength E := by
    rw [skipLength_arith, hplace]
    rcases hgap with rfl | rfl
    · rw [List.nil_append, blankLength_arith hy, List.length_nil, Nat.zero_add]
    · rw [List.singleton_append, blankLength_space, blankLength_arith hy, List.length_singleton,
        Nat.add_comm]
  have hdrop : place.rest.drop (arith.skipLength place) =
      E.drop (arith.blankLength E) ++ y :: tail := by
    rw [hskip, hplace, ← List.drop_drop, List.drop_left,
      List.drop_append_of_le_length (blankLength_le _ _)]
  obtain ⟨hne, hle⟩ := firstFit_bounds hfit
  have hthere : firstFit arith.set.rules (place.rest.drop (arith.skipLength place)) =
      some (k, n) := by
    rw [hdrop, firstFit_arith hy hne, hfit]
  obtain ⟨hblank, hbody⟩ := length_cut k hthere
  refine ⟨_, tokenAt_of_fit hthere, ?_, ?_⟩
  · simp only [Token.lexeme, Rules.cut, hdrop, List.take_append_of_le_length hle]
  · rw [Token.after, hblank, hbody, hskip, Nat.add_assoc, Scan.forward_add]
    rfl

/-- Where the same expression is written, perhaps behind a space, stands the same token. -/
theorem Context.fronts_of_rest (hx : EndsArith x kind) (hx' : EndsArith x' kind')
    (hrules : c.mode.rules = .arith) {E gap : Text} (ha : a.rest = E ++ x :: more)
    (hb : b.rest = gap ++ (E ++ x' :: more')) (hgap : gap = [] ∨ gap = [' '])
    (hstart : ∀ t, c.token? a = some t → t.kind ≠ kind) :
    c.Fronts (x :: more) (x' :: more') a b := by
  intro t ht
  have hkind := hstart t ht
  rw [Context.token?_eq_some, hrules] at ht
  have hdrop : a.rest.drop (arith.skipLength a) = E.drop (arith.blankLength E) ++ x :: more := by
    rw [skipLength_arith, ha, blankLength_arith hx.mem,
      List.drop_append_of_le_length (blankLength_le _ _)]
  obtain ⟨hnil, _⟩ | ⟨k, n, hfit, rfl⟩ := tokenAt_cases ht
  · rw [hdrop] at hnil
    exact absurd hnil (by simp)
  · rw [hdrop] at hfit
    by_cases hne : E.drop (arith.blankLength E) = []
    · rw [hne, List.nil_append, hx.fit] at hfit
      cases hfit
      exact absurd rfl hkind
    · rw [firstFit_arith hx.mem hne] at hfit
      obtain ⟨_, hreach⟩ := firstFit_bounds hfit
      have hpos : 0 < n := by
        obtain ⟨_, _, _, hreach⟩ := firstFit_mem hfit
        exact (Pattern.reach?_eq_some_iff.mp hreach).2
      have hle : arith.blankLength E + n ≤ E.length := by
        rw [List.length_drop] at hreach
        have := blankLength_le arith E
        omega
      have hstart : a.rest = [] ++ (E ++ x :: more) := ha
      obtain ⟨u, hu, hlexeme, hafter⟩ := tokenAt_expression hx.mem hstart (.inl rfl) hfit
      obtain ⟨u', hu', hlexeme', hafter'⟩ := tokenAt_expression hx'.mem hb hgap hfit
      obtain rfl := Except.ok.inj (ht.symm.trans hu)
      refine ⟨u', Context.token?_eq_some.mpr (hrules ▸ hu'), hlexeme'.trans hlexeme.symm,
        (Scan.ofText E).forward (arith.blankLength E + n), ?_, ?_⟩
      · rw [hafter]
        exact Scan.ahead_forward ha (by omega) hle
      · rw [hafter']
        refine Scan.ahead_forward ?_ (by omega) hle
        rw [Scan.rest_forward, hb, List.drop_left]
        rfl

/-! ### Where an expression ends -/

/-- The text from one place to another ends with something that is not blank. -/
def Scan.EndsSolid (place place' : Scan) : Prop :=
  ∃ (t : Text) (ch : Char), place.rest = t ++ ch :: place'.rest ∧ Text.isBarren [ch] = false

theorem Scan.EndsSolid.of_suffix {place place' place'' : Scan} (h : place'.EndsSolid place'')
    (hs : place'.rest <:+ place.rest) : place.EndsSolid place'' := by
  obtain ⟨t, ch, ht, hch⟩ := h
  obtain ⟨front, hfront⟩ := hs
  exact ⟨front ++ t, ch, by rw [← hfront, ht, List.append_assoc], hch⟩

/-- No token of an expression holds blank. -/
theorem Rules.endsSolid_of_token (ht : arith.tokenAt a = .ok t) (heos : t.kind ≠ .eos) :
    a.EndsSolid t.after := by
  have hrest := tokenAt_front ht
  obtain ⟨_, rfl⟩ | ⟨k, n, hfit, rfl⟩ := tokenAt_cases ht
  · exact absurd rfl heos
  · obtain ⟨r, hr, _, hreach⟩ := firstFit_mem hfit
    obtain ⟨hreach, hpos⟩ := Pattern.reach?_eq_some_iff.mp hreach
    have hbody := length_cut k hfit
    have hne : (Rules.cut k (arith.skipLength a) n a).body ≠ [] := by
      intro hnil
      rw [hnil, List.length_nil] at hbody
      omega
    have hsolid : ∀ ch ∈ (Rules.cut k (arith.skipLength a) n a).body, Text.isBarren [ch] = false := by
      intro ch hch
      have hrules : arith.set.rules.all (fun r => [' ', '\t', '\n', '\\'].all (r.pattern.avoids ·))
          = true := rfl
      rw [Bool.eq_false_iff]
      intro hbarren
      have hmem : ch ∈ [' ', '\t', '\n', '\\'] := by
        simpa [Text.isBarren] using hbarren
      exact Pattern.not_mem_of_avoids (List.all_eq_true.mp (List.all_eq_true.mp hrules r hr) ch hmem)
        (Pattern.denotes_of_reach hreach) hch
    refine ⟨(Rules.cut k (arith.skipLength a) n a).blank ++
      (Rules.cut k (arith.skipLength a) n a).body.dropLast, _, ?_, hsolid _ (List.getLast_mem hne)⟩
    rw [hrest, List.append_assoc, List.append_cons (List.dropLast _), List.dropLast_concat_getLast]

theorem Scan.endsSolid_of_close {closing : Closing} {pastBlank : Bool} {u : Unit}
    (h : (Query.close closing pastBlank).answer c a = some (u, a₁)) : a.EndsSolid a₁ := by
  obtain ⟨t, ht, rfl⟩ := Query.close_iff.mp h
  obtain ⟨_, hmatches⟩ := takeAt_matches ht
  obtain ⟨rfl, hfits⟩ := takeAt_fits ht
  have hrest := Token.rest_origin hfits
  rw [Token.text, hmatches.of_lit] at hrest
  cases closing with
  | brace => exact ⟨t.blank, '}', by rw [hrest]; simp [Closing.text], rfl⟩
  | bracket => exact ⟨t.blank, ']', by rw [hrest]; simp [Closing.text], rfl⟩
  | arith => exact ⟨t.blank ++ [')'], ')', by rw [hrest]; simp [Closing.text], rfl⟩

theorem endsSolid_of_expect {below : Yielding} {kind : Kind} {ch : Char}
    (hspelling : kind.spelling? = some [ch]) (hch : Text.isBarren [ch] = false) {l : Lexeme}
    (h : (Reader.expect [kind]).LeadsBy below c a l a₁) : a.EndsSolid a₁ := by
  obtain ⟨t, ht, hwants, _, rfl⟩ := leads_next_some.mp (leads_expect.mp h)
  have hkind : t.kind = kind := by
    simpa [among] using (Context.wants_iff.mp hwants).1
  have ht := Context.token?_eq_some.mp ht
  exact ⟨t.blank, ch, by rw [tokenAt_front ht, body_of_spelling ht (hkind ▸ hspelling)]; simp, hch⟩

/-- An expansion ends with its closer. -/
theorem Parses.endsSolid_of_closing {p : Production} {ns : List Node} (h : Parses c p a ns a₁)
    (hp : p = .braced ∨ p = .arithClosed ∨ p = .list .paren) : a.EndsSolid a₁ := by
  have hbody := parses_iff.mp h
  have hforward : ∀ {α : Type} {m : Reader α} {r : α} {a₂ : Scan}, Leads c m a r a₂ →
      a₂.rest <:+ a.rest := fun hm => hm.suffix fun _ _ _ _ _ => Parses.suffix
  rcases hp with rfl | rfl | rfl
  · obtain ⟨form, a₂, hform, hrest⟩ := leads_bind.mp hbody
    refine Scan.EndsSolid.of_suffix ?_ (hforward hform)
    split at hrest
    · obtain ⟨u, a₃, hclose, hlast⟩ := leads_bind.mp hrest
      rw [hlast.2]
      exact Scan.endsSolid_of_close (leads_query.mp hclose)
    · obtain ⟨l, a₃, hexpect, hlast⟩ := leads_bind.mp hrest
      rw [hlast.2]
      exact endsSolid_of_expect rfl rfl hexpect
  · obtain ⟨body, a₂, hone, hrest⟩ := leads_bind.mp hbody
    obtain ⟨u, a₃, hclose, hlast⟩ := leads_bind.mp hrest
    rw [hlast.2]
    exact (Scan.endsSolid_of_close (leads_query.mp hclose)).of_suffix (hforward hone)
  · obtain ⟨es, a₂, hall, hrest⟩ := leads_bind.mp hbody
    obtain ⟨l, a₃, hexpect, hlast⟩ := leads_bind.mp hrest
    rw [hlast.2]
    exact (endsSolid_of_expect rfl rfl hexpect).of_suffix (hforward hall)

/-- What arithmetic productions read ends with something that is not blank. What is left of a
chain may be nothing. -/
def Solid : Yielding := fun c p a _ a₁ =>
  c.mode.rules = .arith → p.IsArithmetic → a.EndsSolid a₁ ∨ (¬ p.IsOperand ∧ a₁ = a)

/-- What is known of calls. -/
abbrev BeforeSolid : Yielding := fun c p a ns a₁ => Parses c p a ns a₁ ∧ Solid c p a ns a₁

section Solid
variable {ns : List Node} {n : Node} {place place' : Scan}

theorem BeforeSolid.forward {α : Type} {m : Reader α} {r : α}
    (h : m.LeadsBy BeforeSolid c place r place') : place'.rest <:+ place.rest :=
  h.suffix fun _ _ _ _ _ hcall => hcall.1.suffix

theorem endsSolid_of_one {p : Production}
    (h : (Reader.one .here p).LeadsBy BeforeSolid c place n place') (hrules : c.mode.rules = .arith)
    (hp : p.IsOperand) : place.EndsSolid place' := by
  obtain hsolid | ⟨hno, _⟩ := (leads_one.mp h).2 hrules hp.isArithmetic
  · exact hsolid
  · exact absurd hp hno

theorem endsSolid_of_next {kinds : List Kind} (hkinds : kinds ≠ [] ∧ .eos ∉ kinds)
    (hrules : c.mode.rules = .arith) {l : Lexeme}
    (h : (Reader.next kinds).LeadsBy BeforeSolid c place (some l) place') :
    place.EndsSolid place' := by
  obtain ⟨t, ht, hwants, _, rfl⟩ := leads_next_some.mp h
  rw [Context.token?_eq_some, hrules] at ht
  refine endsSolid_of_token ht fun heos => hkinds.2 ?_
  rw [← heos]
  exact mem_of_wants hkinds.1 hwants

/-- What is left of a chain ends where the chain has ended so far, or further. -/
theorem endsSolid_of_chainRest {ch : Chain} (hch : ch.isCommand = false) {left : Node}
    (hrules : c.mode.rules = .arith) (hsolid : a.EndsSolid place)
    (hsuffix : place.rest <:+ a.rest)
    (h : (Reader.all .here (.chainRest ch left)).LeadsBy BeforeSolid c place ns place') :
    a.EndsSolid place' := by
  obtain hmore | ⟨_, rfl⟩ := (leads_all.mp h).2 hrules hch
  · exact hmore.of_suffix hsuffix
  · exact hsolid

theorem Chain.first_isOperand {ch : Chain} (hch : ch.isCommand = false) : ch.first.IsOperand := by
  cases ch with
  | andOr | pipe => cases hch
  | comma | binary => trivial

theorem Chain.operand_isOperand {ch : Chain} (hch : ch.isCommand = false) (kind : Kind) :
    (ch.operand kind).IsOperand := by
  cases ch with
  | andOr | pipe => cases hch
  | comma => trivial
  | binary min => rfl

theorem solid_primary (hrules : c.mode.rules = .arith)
    (h : Production.primary.body.LeadsBy BeforeSolid c a ns a₁) : a.EndsSolid a₁ := by
  obtain ⟨l, a₂, hexpect, hrest⟩ := leads_bind.mp h
  have hfirst := endsSolid_of_next (by decide) hrules (leads_expect.mp hexpect)
  have hforward := BeforeSolid.forward hexpect
  have hclosing : ∀ {p : Production} {shift : Shift} {ms : List Node} {place : Scan},
      p = .braced ∨ p = .arithClosed ∨ p = .list .paren →
      BeforeSolid (c.shift shift) p a₂ ms place → a.EndsSolid place :=
    fun hp hcall => (hcall.1.endsSolid_of_closing hp).of_suffix hforward
  unfold Reader.primaryRest at hrest
  split at hrest
  · rwa [hrest.2]
  · rwa [hrest.2]
  · rwa [hrest.2]
  · obtain ⟨body, a₃, hone, hrest⟩ := leads_bind.mp hrest
    obtain ⟨l', a₄, hexpect', hlast⟩ := leads_bind.mp hrest
    rw [hlast.2]
    have hparen := endsSolid_of_next (by decide) hrules (leads_expect.mp hexpect')
    exact hparen.of_suffix ((BeforeSolid.forward hone).trans hforward)
  · exact hclosing (.inl rfl) (leads_all.mp hrest)
  · exact hclosing (.inr (.inl rfl)) (leads_all.mp hrest)
  · obtain ⟨body, a₃, hone, hlast⟩ := leads_bind.mp hrest
    rw [hlast.2]
    exact hclosing (.inr (.inr rfl)) (leads_one.mp hone)
  · exact hrest.elim

theorem solid_step {p : Production} (hp : p.IsArithmetic) (hrules : c.mode.rules = .arith)
    (h : p.body.LeadsBy BeforeSolid c a ns a₁) : a.EndsSolid a₁ ∨ (¬ p.IsOperand ∧ a₁ = a) := by
  cases p with
  | chain ch =>
    obtain ⟨left, a₂, hone, hrest⟩ := leads_bind.mp h
    exact .inl (endsSolid_of_chainRest hp hrules
      (endsSolid_of_one hone hrules (Chain.first_isOperand hp)) (BeforeSolid.forward hone) hrest)
  | chainRest ch left =>
    obtain ⟨o, a₂, hoperator, hrest⟩ := leads_bind.mp h
    cases o with
    | none =>
      obtain ⟨_, _, _, rfl⟩ := leads_operator_none.mp hoperator
      exact .inr ⟨id, hrest.2⟩
    | some op =>
      obtain ⟨right, a₃, hone, hrest⟩ := leads_bind.mp hrest
      have hright := endsSolid_of_one hone hrules (Chain.operand_isOperand hp op.kind)
      have hforward := BeforeSolid.forward hoperator
      exact .inl (endsSolid_of_chainRest hp hrules (hright.of_suffix hforward)
        ((BeforeSolid.forward hone).trans hforward) hrest)
  | assignment =>
    obtain ⟨o, a₂, hask, hrest⟩ := leads_bind.mp h
    have hforward := BeforeSolid.forward hask
    cases o with
    | none =>
      obtain hsolid | ⟨hno, _⟩ := (leads_all.mp hrest).2 hrules trivial
      · exact .inl (hsolid.of_suffix hforward)
      · exact absurd trivial hno
    | some target =>
      obtain ⟨value, a₃, hone, hlast⟩ := leads_bind.mp hrest
      rw [hlast.2]
      exact .inl ((endsSolid_of_one hone hrules trivial).of_suffix hforward)
  | ternary =>
    obtain ⟨cond, a₂, hcond, hrest⟩ := leads_bind.mp h
    obtain ⟨o, a₃, hnext, hbehind⟩ := leads_bind.mp hrest
    cases o with
    | none =>
      obtain ⟨_, _, _, rfl⟩ := leads_next_none.mp hnext
      rw [hbehind.2]
      exact .inl (endsSolid_of_one hcond hrules rfl)
    | some l =>
      obtain ⟨yes, a₄, hyes, hrest⟩ := leads_bind.mp hbehind
      obtain ⟨l', a₅, hexpect, hrest⟩ := leads_bind.mp hrest
      obtain ⟨no, a₆, hno, hlast⟩ := leads_bind.mp hrest
      rw [hlast.2]
      refine .inl ((endsSolid_of_one hno hrules trivial).of_suffix ?_)
      exact (BeforeSolid.forward hexpect).trans ((BeforeSolid.forward hyes).trans
        ((BeforeSolid.forward hnext).trans (BeforeSolid.forward hcond)))
  | power =>
    obtain ⟨base, a₂, hbase, hrest⟩ := leads_bind.mp h
    obtain ⟨o, a₃, hnext, hbehind⟩ := leads_bind.mp hrest
    cases o with
    | none =>
      obtain ⟨_, _, _, rfl⟩ := leads_next_none.mp hnext
      rw [hbehind.2]
      exact .inl (endsSolid_of_one hbase hrules trivial)
    | some l =>
      obtain ⟨exponent, a₄, hone, hlast⟩ := leads_bind.mp hbehind
      rw [hlast.2]
      exact .inl ((endsSolid_of_one hone hrules trivial).of_suffix
        ((BeforeSolid.forward hnext).trans (BeforeSolid.forward hbase)))
  | unary =>
    obtain ⟨o, a₂, hnext, hrest⟩ := leads_bind.mp h
    have hforward := BeforeSolid.forward hnext
    cases o with
    | none =>
      obtain hsolid | ⟨hno, _⟩ := (leads_all.mp hrest).2 hrules trivial
      · exact .inl (hsolid.of_suffix hforward)
      · exact absurd trivial hno
    | some l =>
      obtain ⟨operand, a₃, hone, hlast⟩ := leads_bind.mp hrest
      rw [hlast.2]
      exact .inl ((endsSolid_of_one hone hrules trivial).of_suffix hforward)
  | post =>
    obtain ⟨operand, a₂, hone, hrest⟩ := leads_bind.mp h
    obtain ⟨o, a₃, hnext, hbehind⟩ := leads_bind.mp hrest
    cases o with
    | none =>
      obtain ⟨_, _, _, rfl⟩ := leads_next_none.mp hnext
      rw [hbehind.2]
      exact .inl (endsSolid_of_one hone hrules trivial)
    | some l =>
      rw [hbehind.2]
      exact .inl ((endsSolid_of_next (by decide) hrules hnext).of_suffix (BeforeSolid.forward hone))
  | primary => exact .inl (solid_primary hrules h)
  | many | newlines | list | entries | entry | pipeline | command | assign | word | piece | quoted
    | braced | arithClosed => exact hp.elim

/-- An expression ends with something that is not blank. -/
theorem Parses.endsSolid {p : Production} (h : Parses c p a ns a₁) (hp : p.IsOperand)
    (hrules : c.mode.rules = .arith) : a.EndsSolid a₁ := by
  have hsolid : Solid c p a ns a₁ := h.induct fun hbody hrules hp => solid_step hp hrules hbody
  obtain hsolid | ⟨hno, _⟩ := hsolid hrules hp.isArithmetic
  · exact hsolid
  · exact absurd hp hno

end Solid

end ShellGrammar
