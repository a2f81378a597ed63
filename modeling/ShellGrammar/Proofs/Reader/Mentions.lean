import ShellGrammar.Proofs.Contract
import ShellGrammar.Proofs.Reader.Ensures
import ShellGrammar.Proofs.Rules.Spelling
import ShellGrammar.Proofs.Tree.Mentions

/-! What the tokens mention, the tree mentions.

`mentionsIn` lists what the tokens that were taken mention, one after another. What a token
says depends a little on what is taken behind it: the name in `${!stem*}` is no parameter, and
a `!` or `#` in front of a brace is one. So a row of tokens `Tells` something if it does so
whatever follows, and rows are put together by `Tells.append`. -/
namespace ShellGrammar
open Grammar ParseM Node

/-! ### What tokens mention -/

/-- The parameters that a token names, if these tokens are taken behind it. -/
def Token.names (t : Token) (behind : List Token) : List Text :=
  match t.kind with
  | .ident => [t.body]
  | .dollarName => [withoutDollar t.body]
  | .name => if (behind.take 2).map (·.kind) = [.glyph, .rbrace] then [] else [t.body]
  | .bang => if (behind.take 1).map (·.kind) = [.rbrace] then [['!']] else []
  | .sharp => if (behind.take 1).map (·.kind) = [.rbrace] then [['#']] else []
  | _ => []

/-- The parameters that tokens name: identifiers of arithmetic, names behind a `$`, names in
`${…}` unless they are the start of the names asked for, and a `!` or `#` in front of the
brace. -/
def namesIn : List Token → List Text
  | [] => []
  | t :: ts => t.names ts ++ namesIn ts

/-- What opens a substitution, or closes one between backquotes. -/
def Kind.isSubstitution (kind : Kind) : Bool :=
  [dollarParen, backquote, inParen, outParen].contains kind

/-- An operator between commands or between pipelines. -/
def Taken.isOperator (x : Taken) : Bool :=
  x.rules = .command && [.pipe, .pipeAmp, .andAnd, .orOr].contains x.kind

/-- What tokens mention that were taken. -/
def mentionsIn : List Taken → List Mention
  | [] => []
  | x :: xs =>
    (x.token.names (xs.map Taken.token)).map .parameter ++
      (if x.kind.isSubstitution then [.substitution] else []) ++
      (if x.isOperator then [.operator] else []) ++ mentionsIn xs

theorem filterMap_mentionsIn (xs : List Taken) :
    (mentionsIn xs).filterMap Mention.parameter? = namesIn (xs.map Taken.token) := by
  induction xs with
  | nil => rfl
  | cons x xs ih =>
    have hnames : ∀ ns : List Text, (ns.map Mention.parameter).filterMap Mention.parameter? = ns := by
      intro ns
      rw [List.filterMap_map]
      exact List.filterMap_some ..
    simp only [mentionsIn, List.filterMap_append, ih, hnames, List.map_cons, namesIn]
    split <;> split <;> simp [Mention.parameter?, List.filterMap_cons]

theorem substitution_mem_mentionsIn (xs : List Taken) :
    .substitution ∈ mentionsIn xs ↔ ∃ x ∈ xs, x.kind.isSubstitution = true := by
  induction xs with
  | nil => simp [mentionsIn]
  | cons x xs ih => simp [mentionsIn, ih]

theorem count_mentionsIn (xs : List Taken) :
    (mentionsIn xs).count .operator = xs.countP Taken.isOperator := by
  induction xs with
  | nil => rfl
  | cons x xs ih =>
    have hnames : ∀ ns : List Text, (ns.map Mention.parameter).count .operator = 0 := by
      intro ns
      simp [List.count_eq_zero]
    simp only [mentionsIn, List.count_append, ih, hnames, List.countP_cons]
    split <;> split <;> simp [Nat.add_comm]

/-- Whatever is taken behind them, tokens mention these things. -/
def Tells (xs : List Taken) (ms : List Mention) : Prop :=
  ∀ ys, mentionsIn (xs ++ ys) = ms ++ mentionsIn ys

/-- Tokens of these kinds mention nothing. -/
def Kind.isSilent (kind : Kind) : Bool :=
  !([ident, dollarName, name, bang, sharp, dollarParen, backquote, inParen, outParen, pipe, pipeAmp,
    andAnd, orOr].contains kind)

namespace Tells
variable {x y : Taken} {xs ys : List Taken} {ms ms' : List Mention}

theorem nil : Tells [] [] := fun _ => rfl

theorem append (h : Tells xs ms) (h' : Tells ys ms') : Tells (xs ++ ys) (ms ++ ms') := by
  intro zs
  rw [List.append_assoc, h, h', List.append_assoc]

theorem cons (h : Tells [x] ms) (h' : Tells xs ms') : Tells (x :: xs) (ms ++ ms') := h.append h'

/-- A token that mentions nothing, and what follows it. -/
theorem past (h : Tells [x] []) (h' : Tells xs ms) : Tells (x :: xs) ms := h.append h'

theorem cast (h : Tells xs ms) (heq : ms = ms') : Tells xs ms' := heq ▸ h

theorem eq (h : Tells xs ms) : mentionsIn xs = ms := by
  simpa [mentionsIn] using h []

/-- A token that mentions something whatever follows. -/
theorem token (h : ∀ ts, (x.token.names ts).map .parameter ++
      (if x.kind.isSubstitution then [.substitution] else []) ++
      (if x.isOperator then [.operator] else []) = ms) : Tells [x] ms := by
  intro ys
  rw [List.singleton_append, mentionsIn, h]

theorem silent {c : Context} {t : Token} (h : t.kind.isSilent = true) : Tells [⟨c, t⟩] [] := by
  refine token fun ts => ?_
  have hnames : t.names ts = [] := by
    rw [Token.names]
    split <;> first | rfl | (rename_i hk; rw [hk] at h; cases h)
  have hsubstitution : t.kind.isSubstitution = false := by
    revert h
    cases t.kind <;> decide
  have hoperator : Taken.isOperator ⟨c, t⟩ = false := by
    have hkind : [Kind.pipe, .pipeAmp, .andAnd, .orOr].contains t.kind = false := by
      revert h
      cases t.kind <;> decide
    rw [Taken.isOperator, hkind, Bool.and_false]
  rw [hnames, hsubstitution, hoperator]
  rfl

theorem silent_of_kind {c : Context} {t : Token} {kind : Kind} (hk : t.kind = kind)
    (h : kind.isSilent = true) : Tells [⟨c, t⟩] [] :=
  silent (hk ▸ h)

/-- An operator joins commands among commands only. -/
theorem joining (hk : [Kind.pipe, .pipeAmp, .andAnd, .orOr].contains x.kind = true) :
    Tells [x] (if x.rules = .command then [.operator] else []) := by
  refine token fun ts => ?_
  have hnames : x.token.names ts = [] := by
    rw [Token.names]
    split <;> first | rfl | (rename_i h; rw [Taken.kind, h] at hk; cases hk)
  have hsubstitution : x.kind.isSubstitution = false := by
    revert hk
    cases x.kind <;> decide
  rw [hnames, hsubstitution, Taken.isOperator, hk, Bool.and_true]
  simp

theorem substitution (hk : x.kind.isSubstitution = true) : Tells [x] [.substitution] := by
  refine token fun ts => ?_
  have hnames : x.token.names ts = [] := by
    rw [Token.names]
    split <;> first | rfl | (rename_i h; rw [Taken.kind, h] at hk; cases hk)
  have hoperator : x.isOperator = false := by
    have hkind : [Kind.pipe, .pipeAmp, .andAnd, .orOr].contains x.kind = false := by
      revert hk
      cases x.kind <;> decide
    rw [Taken.isOperator, hkind, Bool.and_false]
  rw [hnames, if_pos hk, hoperator]
  rfl

/-- A token that can only name a parameter. -/
theorem names_of {kind : Kind} (hk : x.kind = kind)
    (hkind : [Kind.ident, .dollarName, .name, .bang, .sharp].contains kind = true) (ys : List Taken) :
    mentionsIn (x :: ys) =
      (x.token.names (ys.map Taken.token)).map .parameter ++ mentionsIn ys := by
  subst hk
  have hsubstitution : x.kind.isSubstitution = false := by
    revert hkind
    cases x.kind <;> decide
  have hoperator : x.isOperator = false := by
    have hno : [Kind.pipe, .pipeAmp, .andAnd, .orOr].contains x.kind = false := by
      revert hkind
      cases x.kind <;> decide
    rw [Taken.isOperator, hno, Bool.and_false]
  rw [mentionsIn, hsubstitution, hoperator]
  simp

theorem ident (hk : x.kind = .ident) : Tells [x] [.parameter x.token.body] := by
  intro ys
  rw [List.singleton_append, names_of hk rfl, Token.names, show x.token.kind = _ from hk]
  rfl

theorem dollarName (hk : x.kind = .dollarName) :
    Tells [x] [.parameter (withoutDollar x.token.body)] := by
  intro ys
  rw [List.singleton_append, names_of hk rfl, Token.names, show x.token.kind = _ from hk]
  rfl

/-- A mark in front of something else than a brace mentions nothing. -/
theorem mark (hk : x.kind = .bang ∨ x.kind = .sharp) (hy : y.kind ≠ .rbrace) :
    mentionsIn (x :: y :: ys) = mentionsIn (y :: ys) := by
  have hno : (((y :: ys).map Taken.token).take 1).map (·.kind) ≠ [.rbrace] := by
    simpa using hy
  obtain hk | hk := hk
  · rw [names_of hk rfl, Token.names, show x.token.kind = _ from hk]
    exact congrArg (· ++ mentionsIn (y :: ys)) (congrArg (List.map Mention.parameter) (if_neg hno))
  · rw [names_of hk rfl, Token.names, show x.token.kind = _ from hk]
    exact congrArg (· ++ mentionsIn (y :: ys)) (congrArg (List.map Mention.parameter) (if_neg hno))

theorem bang_brace (hk : x.kind = .bang) (hy : y.kind = .rbrace) :
    mentionsIn (x :: y :: ys) = .parameter ['!'] :: mentionsIn (y :: ys) := by
  have hyes : (((y :: ys).map Taken.token).take 1).map (·.kind) = [.rbrace] := by
    simpa using hy
  rw [names_of hk rfl, Token.names, show x.token.kind = _ from hk]
  exact congrArg (· ++ mentionsIn (y :: ys)) (congrArg (List.map Mention.parameter) (if_pos hyes))

theorem sharp_brace (hk : x.kind = .sharp) (hy : y.kind = .rbrace) :
    mentionsIn (x :: y :: ys) = .parameter ['#'] :: mentionsIn (y :: ys) := by
  have hyes : (((y :: ys).map Taken.token).take 1).map (·.kind) = [.rbrace] := by
    simpa using hy
  rw [names_of hk rfl, Token.names, show x.token.kind = _ from hk]
  exact congrArg (· ++ mentionsIn (y :: ys)) (congrArg (List.map Mention.parameter) (if_pos hyes))

theorem bang_cons (hk : x.kind = .bang) (hy : y.kind ≠ .rbrace) (h : Tells (y :: ys) ms) :
    Tells (x :: y :: ys) ms := by
  intro zs
  rw [List.cons_append, List.cons_append, mark (.inl hk) hy]
  exact h zs

/-- A name mentions a parameter, unless it is the start of names. -/
theorem name (hk : x.kind = .name) :
    mentionsIn (x :: ys) =
      (if ((ys.map Taken.token).take 2).map (·.kind) = [.glyph, .rbrace] then []
        else [.parameter x.token.body]) ++ mentionsIn ys := by
  rw [names_of hk rfl, Token.names, show x.token.kind = _ from hk]
  dsimp only
  rw [apply_ite (List.map Mention.parameter)]
  rfl

end Tells

/-! ### What productions mention -/

namespace Production

/-- What is made already when a production is called. -/
def left : Production → List Node
  | chainRest _ left => [left]
  | _ => []

/-- The rules under which a production is called. -/
def FitsIn (c : Context) : Production → Prop
  | many p => p = assign ∨ p = word ∨ ∃ adjacent, p = piece adjacent
  | chain ch | chainRest ch _ => ch.isCommand = true ↔ c.mode.rules = .command
  | list _ | entries _ | entry | pipeline => c.mode.rules = .command
  | assignment | ternary | power | unary | post | primary | arithClosed => c.mode.rules ≠ .command
  | braced => c.mode.allowBlank = false
  | _ => True

/-- What the token mentions that closes what a production yields. -/
def closing : Production → List Mention
  | list .backquote => [.substitution]
  | _ => []

/-- Whether a production reads an operand of arithmetic. -/
def isFront : Production → Bool
  | unary | post | primary => true
  | _ => false

/-- What a production takes mentions what the nodes do that it yields. An operand does not
start with a brace. -/
structure Tells (p : Production) (ns : List Node) (xs : List Taken) : Prop where
  mentions : ∃ ms, ShellGrammar.Tells xs ms ∧
    mentionsAll ns ++ p.closing = mentionsAll p.left ++ ms
  front : p.isFront = true → ∃ x ys, xs = x :: ys ∧ x.kind ≠ .rbrace

end Production

namespace Mentions
variable {c : Context} {place : Scan}

/-- What the productions that are called mention. -/
def Known : Recording := fun c p place ns xs place' =>
  Records c p place ns xs place' ∧ (p.FitsIn c → p.Tells ns xs)

variable {p : Production} {n : Node} {ns : List Node} {xs : List Taken} {place' : Scan}

/-- What a production mentions that nothing is made for. -/
theorem Known.all (h : Known c p place ns xs place') (hp : p.FitsIn c) (hleft : p.left = [])
    (hclosing : p.closing = []) : Tells xs (mentionsAll ns) := by
  obtain ⟨ms, htells, heq⟩ := (h.2 hp).mentions
  rw [hleft, hclosing, List.append_nil] at heq
  exact heq ▸ htells

theorem Known.one (h : Known c p place [n] xs place') (hp : p.FitsIn c) (hleft : p.left = [])
    (hclosing : p.closing = []) : Tells xs n.mentions := by
  have := h.all hp hleft hclosing
  rwa [mentionsAll, mentionsAll, List.append_nil] at this

variable (c place) in
/-- What a reader takes mentions what the nodes do that it yields. -/
abbrev Ensured (m : Reader (List Node)) : Prop :=
  m.Ensures Known c place fun ns xs _ => Tells xs (mentionsAll ns)

theorem Tells.one (h : Tells xs n.mentions) : Tells xs (mentionsAll [n]) := by
  rwa [mentionsAll, mentionsAll, List.append_nil]

/-! Arithmetic. -/

/-- Operators of arithmetic mention nothing. -/
theorem silent_operator {t : Token} (hrules : c.mode.rules ≠ .command)
    (hk : t.kind.isSilent = true ∨ [Kind.pipe, .pipeAmp, .andAnd, .orOr].contains t.kind = true) :
    Tells [⟨c, t⟩] [] := by
  obtain hk | hk := hk
  · exact .silent hk
  · have := Tells.joining (x := ⟨c, t⟩) hk
    rwa [if_neg hrules] at this

theorem post (hrules : c.mode.rules ≠ .command) :
    Production.post.body.Ensures Known c place fun ns xs _ => Production.post.Tells ns xs := by
  simp only [Production.body, ensures_bind, ensures_one, ensures_next, ensures_pure,
    List.append_nil]
  intro n xs place' hn t ht
  have htells := hn.one hrules rfl rfl
  obtain ⟨x, ys, rfl, hx⟩ := (hn.2 hrules).front rfl
  refine ⟨fun _ => ⟨⟨_, htells, ?_⟩, fun _ => ⟨x, _, rfl, hx⟩⟩,
    fun hw => ⟨⟨_, htells.append (.silent ?_), ?_⟩, fun _ => ⟨x, _, rfl, hx⟩⟩⟩
  · simp [Production.closing, Production.left]
  · exact (by decide : ∀ kind ∈ behindOps, kind.isSilent = true) _ (mem_of_wants (by decide) hw)
  · simp [Production.closing, Production.left]

theorem unary (hrules : c.mode.rules ≠ .command) :
    Production.unary.body.Ensures Known c place fun ns xs _ => Production.unary.Tells ns xs := by
  simp only [Production.body, ensures_bind, ensures_one, ensures_all, ensures_next, ensures_pure,
    List.append_nil, List.nil_append]
  intro t ht
  refine ⟨fun _ ns xs place' hns => ⟨⟨_, hns.all hrules rfl rfl, ?_⟩, fun _ => ?_⟩,
    fun hw n xs place' hn => ?_⟩
  · simp [Production.closing, Production.left]
  · exact (hns.2 hrules).front rfl
  · have hkind := mem_of_wants (by decide) hw
    have htells := hn.one hrules rfl rfl
    obtain ⟨x, ys, rfl, hx⟩ := (hn.2 hrules).front rfl
    refine ⟨⟨n.mentions, ?_, by simp [Production.closing, Production.left]⟩, fun _ => ⟨⟨c, t⟩, _, rfl, ?_⟩⟩
    · by_cases hbang : t.kind = .bang
      · exact .bang_cons hbang hx htells
      · exact .past (.silent ((by decide : ∀ kind ∈ frontOps, kind ≠ .bang →
          kind.isSilent = true) _ hkind hbang)) htells
    · exact (by decide : ∀ kind ∈ frontOps, kind ≠ .rbrace) _ hkind

theorem power (hrules : c.mode.rules ≠ .command) : Ensured c place Production.power.body := by
  simp only [Ensured, Production.body, ensures_bind, ensures_one, ensures_next, ensures_pure,
    List.append_nil]
  intro n xs place' hn t ht
  have hn := hn.one hrules rfl rfl
  refine ⟨fun _ => hn.cast (by simp), fun hw m ys place'' hm => ?_⟩
  have hm := hm.one hrules rfl rfl
  exact (hn.append (.append (.silent_of_kind (kind_of_wants hw) rfl) hm)).cast (by simp)

theorem ternary (hrules : c.mode.rules ≠ .command) : Ensured c place Production.ternary.body := by
  simp only [Ensured, Production.body, ensures_bind, ensures_one, ensures_next, ensures_expect,
    ensures_pure, List.append_nil]
  intro n xs place' hn t ht
  have hn := hn.one ⟨by rintro ⟨⟩, fun h => absurd h hrules⟩ rfl rfl
  refine ⟨fun _ => hn.cast (by simp), fun hw yes ys place₂ hyes u hu hw' no zs place₃ hno => ?_⟩
  have hyes := hyes.one ⟨by rintro ⟨⟩, fun h => absurd h hrules⟩ rfl rfl
  have hno := hno.one hrules rfl rfl
  exact (hn.append (.append (.silent_of_kind (kind_of_wants hw) rfl)
    (.append hyes (.append (.silent_of_kind (kind_of_wants hw') rfl) hno)))).cast (by simp)

theorem assignment (hrules : c.mode.rules ≠ .command) :
    Ensured c place Production.assignment.body := by
  simp only [Ensured, Production.body, ensures_bind, ensures_query]
  rintro o ts place₁ ⟨t, ht, ⟨-, rfl, rfl, rfl⟩ | ⟨hname, u, hu, ⟨-, rfl, rfl, rfl⟩ |
    ⟨hop, rfl, rfl, rfl⟩⟩⟩
  · exact ensures_all.mpr fun ns xs place' hns => hns.all hrules rfl rfl
  · exact ensures_all.mpr fun ns xs place' hns => hns.all hrules rfl rfl
  · simp only [ensures_bind, ensures_one, ensures_pure, List.append_nil]
    intro n xs place' hn
    have hkind := (by decide : ∀ kind ∈ assignmentOps, kind.isSilent = true) _
      (mem_of_wants (by decide) hop)
    exact (Tells.append (.cons (.ident (kind_of_wants hname)) (.silent hkind))
      (hn.one hrules rfl rfl)).cast (by simp)

theorem arithClosed (hrules : c.mode.rules ≠ .command) :
    Ensured c place Production.arithClosed.body := by
  simp only [Ensured, Production.body, ensures_bind, ensures_one, ensures_close, ensures_pure,
    List.append_nil]
  intro n xs place' hn t ht
  have hn := hn.one ⟨by rintro ⟨⟩, fun h => absurd h hrules⟩ rfl rfl
  exact (hn.append (.silent_of_kind (Rules.takeAt_matches ht).1 rfl)).cast (by simp)

theorem primary (hrules : c.mode.rules ≠ .command) :
    Production.primary.body.Ensures Known c place fun ns xs _ => Production.primary.Tells ns xs := by
  simp only [Production.body, ensures_bind, ensures_expect]
  intro t ht hw
  have hkind : t.kind = .number ∨ t.kind = .ident ∨ t.kind = .dollarName ∨ t.kind = .lparen ∨
      t.kind = .dollarBrace ∨ t.kind = .dollarParen2 ∨ t.kind = .dollarParen := by
    simpa [primaryStart] using mem_of_wants (by decide) hw
  have hfront : t.kind ≠ .rbrace := by
    rintro hbrace
    rw [hbrace] at hkind
    revert hkind
    decide
  have hof : ∀ {ns xs}, Tells (⟨c, t⟩ :: xs) (mentionsAll ns) →
      Production.primary.Tells ns (⟨c, t⟩ :: xs) := fun h =>
    ⟨⟨_, h, by simp [Production.closing, Production.left]⟩, fun _ => ⟨_, _, rfl, hfront⟩⟩
  rw [Reader.primaryRest, Token.lexeme]
  rcases hkind with hk | hk | hk | hk | hk | hk | hk <;> simp only [hk]
  · exact ensures_pure.mpr (hof ((Tells.silent_of_kind hk rfl).cast (by simp)))
  · exact ensures_pure.mpr (hof ((Tells.ident hk).cast (by simp)))
  · exact ensures_pure.mpr (hof ((Tells.dollarName hk).cast (by simp)))
  · simp only [ensures_bind, ensures_one, ensures_expect, ensures_pure, List.append_nil]
    intro n xs place' hn u hu hw'
    have hn := hn.one ⟨by rintro ⟨⟩, fun h => absurd h hrules⟩ rfl rfl
    exact hof ((Tells.cons (.silent_of_kind hk rfl)
      (hn.append (.silent_of_kind (kind_of_wants hw') rfl))).cast (by simp))
  · exact ensures_all.mpr fun ns xs place' hns =>
      hof (Tells.past (.silent_of_kind hk rfl)
        (hns.all (c := c.under .param false) rfl rfl rfl))
  · exact ensures_all.mpr fun ns xs place' hns =>
      hof (Tells.past (.silent_of_kind hk rfl)
        (hns.all (c := c.under .arith true) (by rintro ⟨⟩) rfl rfl))
  · simp only [ensures_bind, ensures_one, ensures_pure, List.append_nil]
    intro n xs place' hn
    have hn := hn.one rfl rfl rfl
    have hbody : t.body = ['$', '('] :=
      Rules.body_of_spelling (Context.token?_eq_some.mp ht) (by rw [hk]; rfl)
    refine hof ((Tells.cons (.substitution ?_) hn).cast (by simp [hbody]))
    rw [Taken.kind, hk]
    rfl

/-! Chains. -/

theorem newlines : Ensured c place Production.newlines.body := by
  simp only [Ensured, Production.body, ensures_bind, ensures_next, ensures_all, ensures_pure]
  intro t ht
  refine ⟨fun _ => .nil, fun hw ns xs place' hns => ?_⟩
  exact Tells.past (.silent_of_kind (kind_of_wants hw) rfl) (hns.all trivial rfl rfl)

/-- An operator between commands is mentioned, and newlines behind it are not. -/
theorem operator {ch : Chain} (hch : ch.isCommand = true ↔ c.mode.rules = .command) :
    ch.operator.Ensures Known c place fun o xs _ =>
      Tells xs (if o.isSome && ch.isCommand then [.operator] else []) := by
  rw [Chain.operator, ensures_bind, ensures_take]
  refine fun t ht => ⟨fun _ => ensures_pure.mpr .nil, fun hw => ?_⟩
  have hkind := (Context.wants_iff.mp hw).1
  cases hcommand : ch.isCommand with
  | true =>
    have hop : [Kind.pipe, .pipeAmp, .andAnd, .orOr].contains t.kind = true := by
      cases ch with
      | andOr =>
        have hkind : t.kind = .andAnd ∨ t.kind = .orOr := by simpa [Chain.wants, among] using hkind
        rcases hkind with hk | hk <;> rw [hk] <;> decide
      | pipe =>
        have hkind : t.kind = .pipe ∨ t.kind = .pipeAmp := by
          simpa [Chain.wants, among] using hkind
        rcases hkind with hk | hk <;> rw [hk] <;> decide
      | comma | binary => cases hcommand
    have htells := Tells.joining (x := ⟨c, t⟩) hop
    rw [if_pos (hch.mp hcommand)] at htells
    simp only [if_true, ensures_bind, ensures_all, ensures_pure, List.append_nil]
    intro ns xs place' hns
    have hempty : ns = [] :=
      List.eq_nil_iff_forall_not_mem.mpr (contracted hns.1.parses trivial).makes
    subst hempty
    exact (htells.append (hns.all trivial rfl rfl)).cast rfl
  | false =>
    have hrules : c.mode.rules ≠ .command := fun h => by
      rw [hch.mpr h] at hcommand
      cases hcommand
    simp only [Bool.false_eq_true, if_false, ensures_pure, List.append_nil]
    refine silent_operator hrules ?_
    cases ch with
    | andOr | pipe => cases hcommand
    | comma =>
      have hkind : t.kind = .comma := by simpa [Chain.wants, among] using hkind
      exact .inl (by rw [hkind]; rfl)
    | binary min =>
      revert hkind
      rw [Chain.wants, isBinaryFrom]
      cases t.kind <;> first | exact fun _ => .inl rfl | exact fun _ => .inr rfl | (rintro ⟨⟩)

theorem fitsIn_first {ch : Chain} (h : (Production.chain ch).FitsIn c) : ch.first.FitsIn c := by
  cases ch with
  | andOr => exact h.mp rfl
  | pipe => trivial
  | comma | binary => exact fun hrules => absurd (h.mpr hrules) nofun

theorem fitsIn_operand {ch : Chain} {kind : Kind} (h : (Production.chain ch).FitsIn c) :
    (ch.operand kind).FitsIn c := by
  cases ch with
  | andOr => exact h.mp rfl
  | pipe => trivial
  | comma => exact fun hrules => absurd (h.mpr hrules) nofun
  | binary => exact h

theorem chain {ch : Chain} (h : (Production.chain ch).FitsIn c) :
    Ensured c place (Production.chain ch).body := by
  simp only [Ensured, Production.body, ensures_bind, ensures_one, ensures_all]
  intro n xs place' hn ns ys place'' hns
  have hn := hn.one (fitsIn_first h) (by cases ch <;> rfl) (by cases ch <;> rfl)
  obtain ⟨ms, hms, heq⟩ := (hns.2 h).mentions
  refine (hn.append hms).cast ?_
  simpa [Production.closing, Production.left] using heq.symm

theorem chainRest {ch : Chain} {left : Node} (h : (Production.chain ch).FitsIn c) :
    (Production.chainRest ch left).body.Ensures Known c place fun ns xs _ =>
      (Production.chainRest ch left).Tells ns xs := by
  simp only [Production.body, ensures_bind]
  refine (operator h).mono fun o xs place₁ hop => ?_
  cases o with
  | none =>
    exact ensures_pure.mpr ⟨⟨_, hop.append .nil, by simp [Production.closing, Production.left]⟩,
      by rintro ⟨⟩⟩
  | some op =>
    simp only [ensures_bind, ensures_one, ensures_all]
    intro n ys place₂ hn ns zs place₃ hns
    have hn := hn.one (fitsIn_operand h) (by cases ch <;> rfl) (by cases ch <;> rfl)
    obtain ⟨ms, hms, heq⟩ := (hns.2 h).mentions
    refine ⟨⟨_, hop.append (hn.append hms), ?_⟩, by rintro ⟨⟩⟩
    have hjoin : (ch.join op.body left n).mentions =
        left.mentions ++ ((if ch.isCommand then [.operator] else []) ++ n.mentions) := by
      cases ch <;> simp [Chain.join, Chain.isCommand]
    simpa [Production.closing, Production.left, hjoin] using heq

/-! Commands. -/

/-- Assignments, words and pieces come one by one. -/
theorem rest_eq_nil (hp : p = .assign ∨ p = .word ∨ ∃ adjacent, p = .piece adjacent)
    (h : Parses c p place (n :: ns) place') : ns = [] := by
  obtain rfl | rfl | ⟨adjacent, rfl⟩ := hp
  · obtain ⟨o, place₁, -, hrest⟩ := leads_bind.mp (parses_iff.mp h)
    cases o with
    | none => cases (leads_pure.mp hrest).1
    | some t =>
      obtain ⟨w, place₂, -, hdone⟩ := leads_bind.mp hrest
      exact (List.cons.inj (leads_pure.mp hdone).1).2
  · obtain ⟨o, place₁, -, hrest⟩ := leads_bind.mp (parses_iff.mp h)
    cases o with
    | none => cases (leads_pure.mp hrest).1
    | some first =>
      obtain ⟨more, place₂, -, hdone⟩ := leads_bind.mp hrest
      exact (List.cons.inj (leads_pure.mp hdone).1).2
  · exact ((contracted h trivial).arranges n ns rfl).1

theorem many (hp : p = .assign ∨ p = .word ∨ ∃ adjacent, p = .piece adjacent) :
    Ensured c place (Production.many p).body := by
  have hp' : p.FitsIn c ∧ p.left = [] ∧ p.closing = [] := by
    obtain rfl | rfl | ⟨adjacent, rfl⟩ := hp <;> exact ⟨trivial, rfl, rfl⟩
  simp only [Ensured, Production.body, ensures_bind, ensures_first?, Context.shift]
  rintro (_ | ⟨n, ns⟩) xs place' hns
  · exact ensures_pure.mpr ((hns.all hp'.1 hp'.2.1 hp'.2.2).append .nil)
  · simp only [List.head?_cons, ensures_bind, ensures_all, ensures_pure, List.append_nil]
    intro ms ys place'' hms
    obtain rfl := rest_eq_nil hp hns.1.parses
    exact ((hns.one hp'.1 hp'.2.1 hp'.2.2).append (hms.all hp rfl rfl)).cast rfl

theorem list {closer : Closer} (hrules : c.mode.rules = .command) :
    (Production.list closer).body.Ensures Known c place fun ns xs _ =>
      (Production.list closer).Tells ns xs := by
  simp only [Production.body, ensures_bind, ensures_all, ensures_expect, ensures_pure,
    List.append_nil]
  intro ns xs place' hns t ht hw
  have htells := hns.all hrules rfl rfl
  have hkind := kind_of_wants hw
  cases closer with
  | backquote =>
    refine ⟨⟨_, htells.append (.substitution (x := ⟨c, t⟩) ?_), ?_⟩, by rintro ⟨⟩⟩
    · rw [Taken.kind, hkind]
      rfl
    · simp [Production.closing, Production.left]
  | paren | endOfSource =>
    refine ⟨⟨_, htells.append (.silent_of_kind hkind rfl), ?_⟩, by rintro ⟨⟩⟩
    simp [Production.closing, Production.left]

theorem entries {closer : Closer} (hrules : c.mode.rules = .command) :
    Ensured c place (Production.entries closer).body := by
  simp only [Ensured, Production.body, ensures_bind, ensures_all, ensures_peek]
  intro ns xs place' hns t ht
  have hempty : ns = [] :=
    List.eq_nil_iff_forall_not_mem.mpr (contracted hns.1.parses trivial).makes
  subst hempty
  have hns := hns.all trivial rfl rfl
  split
  · exact ensures_pure.mpr ((hns.append (.append .nil .nil)).cast rfl)
  · simp only [ensures_bind, ensures_one]
    intro first ys place₁ hfirst
    have hfirst := hfirst.one hrules rfl rfl
    split
    · simp only [ensures_bind, ensures_all, ensures_pure, List.nil_append, List.append_nil]
      intro rest zs place₂ hrest
      exact (hns.append (hfirst.append (hrest.all hrules rfl rfl))).cast rfl
    · refine ensures_pure.mpr ((hns.append (.append .nil (hfirst.append .nil))).cast ?_)
      simp

theorem entry (hrules : c.mode.rules = .command) : Ensured c place Production.entry.body := by
  simp only [Ensured, Production.body, ensures_bind, ensures_one, ensures_next, ensures_pure,
    List.append_nil]
  intro n xs place' hn t ht
  have hn := hn.one ⟨fun _ => hrules, fun _ => rfl⟩ rfl rfl
  refine ⟨fun _ => hn.cast (by simp), fun hw => (hn.append (.silent ?_)).cast (by simp)⟩
  exact (by decide : ∀ kind ∈ terminals, kind.isSilent = true) _ (mem_of_wants (by decide) hw)

theorem pipeline (hrules : c.mode.rules = .command) : Ensured c place Production.pipeline.body := by
  simp only [Ensured, Production.body, ensures_bind, ensures_query, ensures_one, ensures_pure,
    List.append_nil]
  intro excl ts place' hbang n xs place'' hn
  have hn := hn.one ⟨fun _ => hrules, fun _ => rfl⟩ rfl rfl
  have hts : Tells (ts.map (⟨c, ·⟩)) [] := by
    obtain ⟨t, ht, ⟨-, -, rfl, -⟩ | ⟨⟨hw, -⟩, u, -, ⟨-, -, rfl, -⟩ | ⟨-, -, rfl, -⟩⟩⟩ := hbang
    · exact .nil
    · exact .nil
    · exact .silent_of_kind (kind_of_wants hw) rfl
  exact (hts.append hn).cast (by simp)

theorem command : Ensured c place Production.command.body := by
  simp only [Ensured, Production.body, ensures_bind, ensures_all]
  intro assigns xs place' hassigns body ys place'' hbody
  split
  · exact ensures_stop.mpr trivial
  · refine ensures_pure.mpr ((Tells.append (hassigns.all (.inl rfl) rfl rfl)
      (.append (hbody.all (.inr (.inl rfl)) rfl rfl) .nil)).cast ?_)
    simp

theorem assign : Ensured c place Production.assign.body := by
  simp only [Ensured, Production.body, Reader.accept, ensures_bind, ensures_mark]
  refine ⟨fun _ => ensures_pure.mpr .nil, fun t ht => ?_⟩
  simp only [ensures_first?, ensures_pure, List.append_nil]
  intro ns xs place' hns
  have htoken : Tells [⟨c, t⟩] [] := .silent_of_kind (Rules.takeAt_matches ht).1 rfl
  cases ns with
  | nil => exact (htoken.append (hns.all trivial rfl rfl)).cast rfl
  | cons n ns =>
    obtain rfl := rest_eq_nil (.inr (.inl rfl)) hns.1.parses
    exact (htoken.append (hns.one trivial rfl rfl)).cast (by simp)

/-! Words. -/

theorem word : Ensured c place Production.word.body := by
  simp only [Ensured, Production.body, ensures_bind, ensures_first?]
  rintro (_ | ⟨n, ns⟩) xs place' hns
  · exact ensures_pure.mpr ((hns.all trivial rfl rfl).append .nil)
  · simp only [List.head?_cons, ensures_bind, ensures_all, ensures_pure, List.append_nil]
    intro rest ys place'' hrest
    obtain rfl := rest_eq_nil (.inr (.inr ⟨_, rfl⟩)) hns.1.parses
    refine ((hns.one trivial rfl rfl).append (hrest.all (.inr (.inr ⟨_, rfl⟩)) rfl rfl)).cast ?_
    cases rest <;> simp

theorem piece {adjacent : Bool} : Ensured c place (Production.piece adjacent).body := by
  simp only [Ensured, Production.body, ensures_bind, ensures_take]
  intro t ht
  refine ⟨fun _ => ensures_pure.mpr .nil, fun _ => ?_⟩
  have hspelling : ∀ {body}, t.kind.spelling? = some body → t.body = body :=
    Rules.body_of_spelling (Context.token?_eq_some.mp ht)
  have hopens : t.kind.isSubstitution = true → Tells [⟨c, t⟩] [.substitution] :=
    fun hk => .substitution hk
  unfold Reader.pieceRest
  split
  case h_1 hk => exact ensures_pure.mpr ((Tells.silent_of_kind hk rfl).append .nil)
  case h_2 hk => exact ensures_pure.mpr ((Tells.silent_of_kind hk rfl).append .nil)
  case h_3 hk => exact ensures_pure.mpr ((Tells.dollarName hk).append .nil)
  case h_4 hk =>
    simp only [ensures_bind, ensures_all, ensures_pure, List.append_nil]
    intro ns xs place' hns
    exact ((Tells.silent_of_kind hk rfl).append (hns.all trivial rfl rfl)).cast (by simp)
  case h_5 hk =>
    exact ensures_all.mpr fun ns xs place' hns =>
      (Tells.silent_of_kind hk rfl).append (hns.all (c := c.under .param false) rfl rfl rfl)
  case h_6 hk =>
    exact ensures_all.mpr fun ns xs place' hns =>
      (Tells.silent_of_kind hk rfl).append (hns.all (c := c.under .arith true) (by rintro ⟨⟩) rfl rfl)
  case h_7 hk =>
    simp only [ensures_bind, ensures_one, ensures_pure, List.append_nil]
    intro n xs place' hn
    have hbody : t.body = ['$', '('] := hspelling (by rw [show t.kind = _ from hk]; rfl)
    refine ((hopens (by rw [show t.kind = _ from hk]; rfl)).append (hn.one rfl rfl rfl)).cast ?_
    simp [Token.lexeme, hbody]
  case h_8 hk =>
    simp only [ensures_bind, ensures_one, ensures_pure, List.append_nil]
    intro n xs place' hn
    have hbody : t.body = ['`'] := hspelling (by rw [show t.kind = _ from hk]; rfl)
    obtain ⟨ms, hms, heq⟩ := (hn.2 rfl).mentions
    refine ((hopens (by rw [show t.kind = _ from hk]; rfl)).append hms).cast ?_
    simpa [Token.lexeme, hbody, Production.closing, Production.left] using heq.symm
  case h_9 hk =>
    simp only [ensures_bind, ensures_one, ensures_pure, List.append_nil]
    intro n xs place' hn
    refine ((hopens (by rw [show t.kind = _ from hk]; rfl)).append (hn.one rfl rfl rfl)).cast ?_
    simp
  case h_10 hk =>
    simp only [ensures_bind, ensures_one, ensures_pure, List.append_nil]
    intro n xs place' hn
    refine ((hopens (by rw [show t.kind = _ from hk]; rfl)).append (hn.one rfl rfl rfl)).cast ?_
    simp
  case h_11 => exact ensures_stop.mpr trivial

theorem quoted : Ensured c place Production.quoted.body := by
  simp only [Ensured, Production.body, ensures_bind, ensures_next, ensures_pure]
  intro t ht
  refine ⟨fun _ => ensures_first?.mpr ?_, fun hw => ?_⟩
  · rintro (_ | ⟨n, ns⟩) xs place' hns
    · exact ensures_stop.mpr trivial
    · simp only [List.head?_cons, ensures_bind, ensures_all, ensures_pure, List.append_nil,
        List.nil_append]
      intro rest ys place'' hrest
      obtain rfl := rest_eq_nil (.inr (.inr ⟨_, rfl⟩)) hns.1.parses
      exact ((hns.one trivial rfl rfl).append (hrest.all trivial rfl rfl)).cast rfl
  · exact (Tells.silent_of_kind (kind_of_wants hw) rfl).append .nil

/-! Parameters. -/

/-- Behind a name, these tokens do not make it the start of names. -/
def KeepsName (xs : List Taken) : Prop :=
  ∀ ys, (((xs ++ ys).map Taken.token).take 2).map (·.kind) = [.glyph, .rbrace] → xs = []

/-- What a form mentions behind the name, and whether it mentions the name. -/
def TellsForm (name : Text) (n : Node) (xs : List Taken) : Prop :=
  (KeepsName xs ∧ ∃ ms, Tells xs ms ∧ n.mentions = .parameter name :: ms) ∨
    ((∃ x, xs = [x] ∧ x.kind = .glyph) ∧ n.mentions = [])

variable (c place) in
/-- A form mentions what it takes, and nothing is taken where there is none. -/
abbrev EnsuredForm (name : Text) (m : Reader (Option Form)) : Prop :=
  m.Ensures Known c place fun o xs _ =>
    (o = none → xs = []) ∧ ∀ f ∈ o, TellsForm name f.node xs

theorem keepsName_of_kind {x : Taken} (h : x.kind ≠ .glyph) : KeepsName (x :: xs) := by
  intro ys hys
  simp at hys
  exact absurd hys.1 h

theorem tellsForm_of_kind {name : Text} {kind : Kind} {t : Token} {ms : List Mention}
    (hk : t.kind = kind) (hglyph : kind ≠ .glyph) (hsilent : kind.isSilent = true)
    (h : Tells xs ms) (hn : n.mentions = .parameter name :: ms) :
    TellsForm name n (⟨c, t⟩ :: xs) :=
  .inl ⟨keepsName_of_kind (by rwa [Taken.kind, hk]), ms,
    Tells.past (.silent_of_kind hk hsilent) h, hn⟩

theorem payload {rules : Rules} :
    (Reader.payload rules).Ensures Known c place fun w xs _ => Tells xs w.mentions := by
  simp only [Reader.payload, ensures_bind, ensures_first?, ensures_pure, List.append_nil]
  rintro (_ | ⟨n, ns⟩) xs place' hns
  · exact hns.all trivial rfl rfl
  · obtain rfl := rest_eq_nil (.inr (.inl rfl)) hns.1.parses
    exact hns.one trivial rfl rfl

theorem arithOperand :
    Reader.arithOperand.Ensures Known c place fun e xs _ => Tells xs e.mentions :=
  ensures_one.mpr fun _ _ _ hn => hn.one (c := c.under .arith true) ⟨nofun, nofun⟩ rfl rfl

variable {ref : Bool} {name : Text}

theorem elementsForm : EnsuredForm c place name (Reader.elementsForm ref name) := by
  simp only [EnsuredForm, Reader.elementsForm, ensures_bind, ensures_next, ensures_pure,
    List.append_nil]
  intro t ht
  refine ⟨fun _ => ⟨fun _ => trivial, nofun⟩, fun hw => ⟨nofun, ?_⟩⟩
  rintro _ ⟨⟩
  have hkind := mem_of_wants (by decide) hw
  refine tellsForm_of_kind rfl ?_ ?_ .nil (by cases ref <;> rfl)
  · exact (by decide : ∀ kind ∈ [Kind.bracketAt, .bracketStar], kind ≠ .glyph) _ hkind
  · exact (by decide : ∀ kind ∈ [Kind.bracketAt, .bracketStar], kind.isSilent = true) _ hkind

/-- A form with a word behind what introduces it. -/
theorem payloadForm {shape : Shape} {rules : Rules} {f : Text → Node → Form}
    (hkind : shape.kind = .op)
    (hf : ∀ mode w, (f mode w).node.mentions = .parameter name :: w.mentions) :
    EnsuredForm c place name (do
      match ← Reader.accept shape with
      | none => pure none
      | some mode => pure (some (f mode (← Reader.payload rules)))) := by
  simp only [EnsuredForm, Reader.accept, ensures_bind, ensures_mark, ensures_pure,
    List.append_nil]
  refine ⟨fun _ => ⟨fun _ => trivial, nofun⟩, fun t ht => payload.mono fun w xs place' hw => ⟨nofun, ?_⟩⟩
  rintro _ ⟨⟩
  exact tellsForm_of_kind ((Rules.takeAt_matches ht).1.trans hkind) nofun rfl hw (hf _ w)

theorem substringForm : EnsuredForm c place name (Reader.substringForm ref name) := by
  simp only [EnsuredForm, Reader.substringForm, Reader.accept, Reader.acceptPastBlank,
    ensures_bind, ensures_mark, ensures_pure, List.append_nil]
  refine ⟨fun _ => ⟨fun _ => trivial, nofun⟩, fun t ht => arithOperand.mono ?_⟩
  intro offset xs place' hoffset
  have hkind := (Rules.takeAt_matches ht).1
  refine ⟨fun _ => ⟨nofun, ?_⟩, fun u hu => arithOperand.mono fun length ys place'' hlength =>
    ⟨nofun, ?_⟩⟩
  · rintro _ ⟨⟩
    exact tellsForm_of_kind hkind nofun rfl hoffset (by simp)
  · rintro _ ⟨⟩
    have hcolon : Tells [⟨c, u⟩] [] := .silent_of_kind (Rules.takeAt_matches hu).1 rfl
    exact tellsForm_of_kind hkind nofun rfl (hoffset.append (hcolon.append hlength)) (by simp)

theorem replacementForm : EnsuredForm c place name (Reader.replacementForm ref name) := by
  have hsilent : ∀ {shape : Shape} {kind : Kind} {o ts} {place place' : Scan},
      (Query.mark shape false).Gives c place o ts place' → shape.kind = kind →
      kind.isSilent = true → Tells (ts.map (⟨c, ·⟩)) [] := by
    rintro shape kind o ts place place' (⟨t, ht, -, rfl, -⟩ | ⟨-, -, rfl, -⟩) hshape hkind
    · exact .silent_of_kind ((Rules.takeAt_matches ht).1.trans hshape) hkind
    · exact .nil
  simp only [EnsuredForm, Reader.replacementForm, Reader.accept, ensures_bind, ensures_query]
  rintro o ts place₁ (⟨t, ht, rfl, rfl, rfl⟩ | ⟨-, rfl, rfl, rfl⟩)
  · have hkind := (Rules.takeAt_matches ht).1
    simp only [ensures_bind, ensures_query]
    intro anchor us place₂ hanchor
    have hus := hsilent hanchor rfl rfl
    refine payload.mono fun pattern xs place₃ hpattern => ?_
    rintro (_ | slash) vs place₄ hslash <;> have hvs := hsilent hslash rfl rfl
    · refine ensures_pure.mpr ⟨nofun, ?_⟩
      rintro _ ⟨⟩
      exact tellsForm_of_kind hkind nofun rfl (hus.append (hpattern.append (hvs.append .nil)))
        (by simp)
    · simp only [ensures_bind, ensures_pure]
      refine payload.mono fun replace ys place₅ hreplace => ⟨nofun, ?_⟩
      rintro _ ⟨⟩
      exact tellsForm_of_kind hkind nofun rfl
        (hus.append (hpattern.append (hvs.append (hreplace.append .nil)))) (by simp)
  · exact ensures_pure.mpr ⟨fun _ => rfl, nofun⟩

theorem matchingNames {mode : Text} :
    (Reader.matchingNames ref name mode).Ensures Known c place fun form xs _ =>
      xs = [] ∧ form.node.mentions = [] := by
  rw [Reader.matchingNames]
  split
  · exact ensures_pure.mpr ⟨rfl, rfl⟩
  · exact ensures_stop.mpr trivial

theorem atForm : EnsuredForm c place name (Reader.atForm ref name) := by
  simp only [EnsuredForm, Reader.atForm, Reader.accept, ensures_bind, ensures_mark, ensures_pure,
    List.append_nil]
  refine ⟨fun _ => ⟨fun _ => trivial, nofun⟩, fun t ht => ⟨fun _ => ?_, fun u hu => ⟨nofun, ?_⟩⟩⟩
  · refine matchingNames.mono ?_
    rintro form xs place' ⟨rfl, hform⟩
    refine ⟨nofun, ?_⟩
    rintro _ ⟨⟩
    exact .inr ⟨⟨_, rfl, (Rules.takeAt_matches ht).1⟩, hform⟩
  · rintro _ ⟨⟩
    have hu' := (Rules.takeAt_matches hu).1
    refine .inl ⟨fun ys hys => ?_, _, .cons (.silent_of_kind (Rules.takeAt_matches ht).1 rfl)
      (.silent_of_kind hu' rfl), rfl⟩
    simp [hu', Shape.kind] at hys

theorem starForm : EnsuredForm c place name (Reader.starForm ref name) := by
  simp only [EnsuredForm, Reader.starForm, Reader.accept, ensures_bind, ensures_mark, ensures_pure,
    List.append_nil]
  refine ⟨fun _ => ⟨fun _ => trivial, nofun⟩, fun t ht => matchingNames.mono ?_⟩
  rintro form xs place' ⟨rfl, hform⟩
  refine ⟨nofun, ?_⟩
  rintro _ ⟨⟩
  exact .inr ⟨⟨_, rfl, (Rules.takeAt_matches ht).1⟩, hform⟩

theorem elementForm : EnsuredForm c place name (Reader.elementForm ref name) := by
  simp only [EnsuredForm, Reader.elementForm, ensures_bind, ensures_next, ensures_close,
    ensures_pure, List.append_nil]
  intro t ht
  refine ⟨fun _ => ⟨fun _ => trivial, nofun⟩, fun hw => arithOperand.mono ?_⟩
  intro e xs place' he u hu
  refine ⟨nofun, ?_⟩
  rintro _ ⟨⟩
  have hclose : Tells [⟨c, u⟩] [] := .silent_of_kind (Rules.takeAt_matches hu).1 rfl
  exact tellsForm_of_kind (kind_of_wants hw) nofun rfl (he.append hclose) (by simp)

theorem firstOf {alternatives : List (Reader (Option Form))}
    (h : ∀ m ∈ alternatives, ∀ place, EnsuredForm c place name m) :
    EnsuredForm c place name (Reader.firstOf alternatives) := by
  induction alternatives generalizing place with
  | nil => exact ensures_pure.mpr ⟨fun _ => rfl, nofun⟩
  | cons m rest ih =>
    rw [Reader.firstOf, EnsuredForm, ensures_bind]
    refine (h m List.mem_cons_self place).mono fun form xs place' hform => ?_
    cases form with
    | none =>
      obtain rfl := hform.1 rfl
      exact ih fun m hm => h m (List.mem_cons_of_mem _ hm)
    | some f => exact ensures_pure.mpr (by simpa using hform)

theorem forms : EnsuredForm c place name (Reader.firstOf (Reader.forms ref name)) := by
  refine firstOf ?_
  simp only [Reader.forms, List.forall_mem_cons]
  exact ⟨fun _ => elementsForm, fun _ => payloadForm rfl fun _ _ => rfl,
    fun _ => substringForm, fun _ => payloadForm rfl fun _ _ => rfl,
    fun _ => payloadForm rfl fun _ _ => rfl, fun _ => replacementForm, fun _ => atForm,
    fun _ => starForm, fun _ => elementForm, List.forall_mem_nil _⟩

/-- In front of a brace no form is read. -/
theorem forms_brace (hblank : c.mode.allowBlank = false) {t : Token}
    (ht : c.token? place = some t) (hw : c.wants false (among [.rbrace]) t = true) :
    (Reader.firstOf (Reader.forms ref name)).Ensures Known c place fun o xs _ =>
      o = none ∧ xs = [] := by
  have hkind := kind_of_wants hw
  obtain ⟨r, hrest⟩ : ∃ r, place.rest = '}' :: r := by
    obtain ⟨rfl, hfits⟩ := Rules.tokenAt_fits (Context.token?_eq_some.mp ht)
    have hbody : t.body = ['}'] :=
      Rules.body_of_spelling (Context.token?_eq_some.mp ht) (by rw [hkind]; rfl)
    obtain ⟨-, ⟨-, hallow⟩ | hempty⟩ := Context.wants_iff.mp hw
    · rw [hblank] at hallow
      cases hallow
    · obtain ⟨r, hr⟩ := hfits
      refine ⟨r, ?_⟩
      rw [← hr, Token.text, hempty, hbody]
      rfl
  have hnext : ∀ {kinds : List Kind}, kinds ≠ [] → .rbrace ∉ kinds →
      c.wants false (among kinds) t = false := by
    intro kinds hne hno
    rw [Bool.eq_false_iff]
    intro hwants
    exact hno (hkind ▸ mem_of_wants hne hwants)
  have hmark : ∀ {shape : Shape}, shape.pattern.mayStart '}' = false →
      c.mode.rules.takeAt shape.pattern shape.kind (false || c.mode.allowBlank) place = none := by
    intro shape hstart
    rw [hblank, Rules.takeAt, hrest]
    split
    · rfl
    · rename_i hskip
      have hzero : c.mode.rules.blankLength ('}' :: r) = 0 := by
        simpa using hskip
      rw [hzero, List.drop_zero, Pattern.reach?_eq_none_of_mayStart hstart]
      rfl
  have hnone : ∀ {kinds : List Kind} {k : Option Lexeme → Reader (Option Form)}, kinds ≠ [] →
      .rbrace ∉ kinds → k none = pure none →
      (Reader.next kinds >>= k).Ensures Known c place fun o xs place' =>
        o = none ∧ xs = [] ∧ place' = place := by
    intro kinds k hne hno hk
    rw [ensures_bind, ensures_next]
    intro u hu
    cases ht.symm.trans hu
    refine ⟨fun _ => ?_, fun hwants => ?_⟩
    · rw [hk, ensures_pure]
      exact ⟨rfl, rfl, rfl⟩
    · rw [hnext hne hno] at hwants
      cases hwants
  have hmiss : ∀ {shape : Shape} {k : Option Text → Reader (Option Form)},
      shape.pattern.mayStart '}' = false → k none = pure none →
      (Reader.accept shape >>= k).Ensures Known c place fun o xs place' =>
        o = none ∧ xs = [] ∧ place' = place := by
    intro shape k hstart hk
    rw [ensures_bind, Reader.accept, ensures_mark]
    refine ⟨fun _ => ?_, fun u hu => ?_⟩
    · rw [hk, ensures_pure]
      exact ⟨rfl, rfl, rfl⟩
    · rw [hmark hstart] at hu
      cases hu
  have hall : ∀ alternatives : List (Reader (Option Form)),
      (∀ m ∈ alternatives, m.Ensures Known c place fun o xs place' =>
        o = none ∧ xs = [] ∧ place' = place) →
      (Reader.firstOf alternatives).Ensures Known c place fun o xs _ => o = none ∧ xs = [] := by
    intro alternatives hmisses
    induction alternatives with
    | nil => exact ensures_pure.mpr ⟨rfl, rfl⟩
    | cons m rest ih =>
      rw [Reader.firstOf, ensures_bind]
      refine (hmisses m List.mem_cons_self).mono ?_
      rintro o xs place' ⟨rfl, rfl, rfl⟩
      exact ih fun m hm => hmisses m (List.mem_cons_of_mem _ hm)
  refine hall _ ?_
  simp only [Reader.forms, List.forall_mem_cons]
  exact ⟨hnone (List.cons_ne_nil _ _) (by decide) rfl, hmiss (by decide) rfl, hmiss (by decide) rfl,
    hmiss (by decide) rfl, hmiss (by decide) rfl, hmiss (by decide) rfl, hmiss (by decide) rfl,
    hmiss (by decide) rfl, hnone (List.cons_ne_nil _ _) (by decide) rfl, List.forall_mem_nil _⟩

/-- What the marks and the name mention depends on what follows the name. -/
def TellsHead (h : Head) (xs : List Taken) : Prop :=
  ∀ ys, mentionsIn (xs ++ ys) =
    (if ((ys.map Taken.token).take 2).map (·.kind) = [.glyph, .rbrace] then []
      else [.parameter h.name]) ++ mentionsIn ys

theorem head :
    Reader.head.Ensures Known c place fun h xs place' => TellsHead h xs ∨
      ((∃ t, c.token? place' = some t ∧ c.wants false (among [.rbrace]) t = true) ∧
        ∀ y ys, y.kind = .rbrace →
          mentionsIn (xs ++ y :: ys) = .parameter h.name :: mentionsIn (y :: ys)) := by
  have hmark : ∀ {shape : Shape} {o ts} {place place' : Scan},
      (Query.mark shape false).Gives c place o ts place' →
      (o.isSome = true ∧ ∃ t : Token, t.kind = shape.kind ∧ ts = [t]) ∨
        (o.isSome = false ∧ ts = []) := by
    rintro shape o ts place place' (⟨t, ht, rfl, rfl, -⟩ | ⟨-, rfl, rfl, -⟩)
    · exact .inl ⟨rfl, t, (Rules.takeAt_matches ht).1, rfl⟩
    · exact .inr ⟨rfl, rfl⟩
  simp only [Reader.head, Reader.accept, ensures_bind, ensures_query, ensures_next, ensures_pure,
    List.append_nil]
  intro length ts place₁ hlength ref us place₂ href t ht
  refine ⟨fun _ => ?_, fun hw => .inl ?_⟩
  · split
    · rw [ensures_bind, ensures_peek]
      intro u hu
      split
      · rename_i hmarked hw
        refine ensures_pure.mpr (.inr ⟨⟨u, hu, hw⟩, fun y ys hy => ?_⟩)
        obtain ⟨hsharp, s, hs, rfl⟩ | ⟨hsharp, rfl⟩ := hmark hlength <;>
          obtain ⟨hbang, b, hb, rfl⟩ | ⟨hbang, rfl⟩ := hmark href
        · have hno : b.kind ≠ .rbrace := by
            rw [hb]
            nofun
          rw [if_pos hbang]
          exact (Tells.mark (.inr hs) hno).trans (Tells.bang_brace hb hy)
        · rw [if_neg (by rw [hbang]; exact Bool.false_ne_true)]
          exact Tells.sharp_brace hs hy
        · rw [if_pos hbang]
          exact Tells.bang_brace hb hy
        · rw [hbang, hsharp] at hmarked
          cases hmarked
      · exact ensures_stop.mpr trivial
    · exact ensures_stop.mpr trivial
  · have hname := kind_of_wants hw
    have hbrace : t.kind ≠ .rbrace := by
      rw [hname]
      nofun
    obtain ⟨-, s, hs, rfl⟩ | ⟨-, rfl⟩ := hmark hlength <;>
      obtain ⟨-, b, hb, rfl⟩ | ⟨-, rfl⟩ := hmark href <;> intro ys
    · have hbang : b.kind ≠ .rbrace := by
        rw [hb]
        nofun
      exact (Tells.mark (.inr hs) hbang).trans ((Tells.mark (.inl hb) hbrace).trans (Tells.name hname))
    · exact (Tells.mark (.inr hs) hbrace).trans (Tells.name hname)
    · exact (Tells.mark (.inl hb) hbrace).trans (Tells.name hname)
    · exact Tells.name hname

theorem parameterBody (hblank : c.mode.allowBlank = false) :
    Reader.parameterBody.Ensures Known c place fun form xs _ =>
      ∀ y ys, y.kind = .rbrace →
        mentionsIn (xs ++ y :: ys) = form.node.mentions ++ mentionsIn (y :: ys) := by
  rw [Reader.parameterBody, ensures_bind]
  refine head.mono fun h xs place' hhead => ?_
  split
  · refine ensures_pure.mpr fun y ys hy => ?_
    rw [List.append_nil]
    obtain hnamed | ⟨-, hmark⟩ := hhead
    · rw [hnamed, if_neg (by simp [show y.token.kind = _ from hy])]
      rfl
    · rw [hmark y ys hy]
      rfl
  · simp only [ensures_bind, ensures_pure, List.append_nil]
    obtain hnamed | ⟨⟨t, ht, hw⟩, hmark⟩ := hhead
    · refine forms.mono fun o zs place'' ho y ys hy => ?_
      have hrest : ∀ {ws}, mentionsIn (xs ++ ws ++ y :: ys) = mentionsIn (xs ++ (ws ++ y :: ys)) :=
        by simp
      rw [hrest, hnamed]
      cases o with
      | none =>
        obtain rfl := ho.1 rfl
        rw [List.nil_append, if_neg (by simp [show y.token.kind = _ from hy])]
        rfl
      | some form =>
        obtain ⟨hkeeps, ms, hms, hform⟩ | ⟨⟨x, rfl, hx⟩, hform⟩ := ho.2 form rfl
        · rw [Option.getD_some, hform, hms, if_neg]
          · rfl
          · intro hprefix
            obtain rfl := hkeeps _ hprefix
            simp [show y.token.kind = _ from hy] at hprefix
        · rw [Option.getD_some, hform, if_pos]
          · exact Tells.silent_of_kind (c := x.context) (t := x.token) hx rfl (y :: ys)
          · simp [show x.token.kind = _ from hx, show y.token.kind = _ from hy]
    · refine (forms_brace hblank ht hw).mono ?_
      rintro _ _ place'' ⟨rfl, rfl⟩ y ys hy
      rw [List.append_nil, hmark y ys hy]
      rfl

theorem braced (hblank : c.mode.allowBlank = false) : Ensured c place Production.braced.body := by
  simp only [Ensured, Production.body, ensures_bind]
  refine (parameterBody hblank).mono fun form xs place' hform => ?_
  have hof : ∀ {t : Token}, t.kind = .rbrace →
      Tells (xs ++ [⟨c, t⟩]) (mentionsAll [form.node]) := by
    intro t hk ys
    rw [List.append_assoc, List.singleton_append, hform _ ys hk]
    have hbrace : Tells [⟨c, t⟩] [] := .silent_of_kind hk rfl
    rw [← List.singleton_append, hbrace ys]
    simp
  split
  · simp only [ensures_bind, ensures_close, ensures_pure, List.append_nil]
    exact fun t ht => hof (Rules.takeAt_matches ht).1
  · simp only [ensures_bind, ensures_expect, ensures_pure, List.append_nil]
    exact fun t ht hw => hof (kind_of_wants hw)

end Mentions

/-- What a production takes mentions what the nodes do that it yields. -/
theorem Records.tells {c : Context} {p : Production} {place place' : Scan} {ns : List Node}
    {xs : List Taken} (h : Records c p place ns xs place') (hp : p.FitsIn c) : p.Tells ns xs := by
  refine h.ensured (P := fun c p place ns xs place' => p.FitsIn c → p.Tells ns xs) ?_ hp
  intro c p place ns xs place' hbody hp
  have hof : p.closing = [] → p.left = [] → p.isFront = false →
      Mentions.Ensured c place p.body → p.Tells ns xs := by
    intro hclosing hleft hfront h
    refine ⟨⟨_, h ns xs place' hbody, ?_⟩, fun hyes => ?_⟩
    · rw [hclosing, hleft, List.append_nil]
      rfl
    · rw [hfront] at hyes
      cases hyes
  cases p with
  | many p => exact hof rfl rfl rfl (Mentions.many hp)
  | chain ch => exact hof rfl rfl rfl (Mentions.chain hp)
  | chainRest ch left => exact Mentions.chainRest hp ns xs place' hbody
  | newlines => exact hof rfl rfl rfl Mentions.newlines
  | list closer => exact Mentions.list hp ns xs place' hbody
  | entries closer => exact hof rfl rfl rfl (Mentions.entries hp)
  | entry => exact hof rfl rfl rfl (Mentions.entry hp)
  | pipeline => exact hof rfl rfl rfl (Mentions.pipeline hp)
  | command => exact hof rfl rfl rfl Mentions.command
  | assign => exact hof rfl rfl rfl Mentions.assign
  | word => exact hof rfl rfl rfl Mentions.word
  | piece adjacent => exact hof rfl rfl rfl Mentions.piece
  | quoted => exact hof rfl rfl rfl Mentions.quoted
  | braced => exact hof rfl rfl rfl (Mentions.braced hp)
  | arithClosed => exact hof rfl rfl rfl (Mentions.arithClosed hp)
  | assignment => exact hof rfl rfl rfl (Mentions.assignment hp)
  | ternary => exact hof rfl rfl rfl (Mentions.ternary hp)
  | power => exact hof rfl rfl rfl (Mentions.power hp)
  | unary => exact Mentions.unary hp ns xs place' hbody
  | post => exact Mentions.post hp ns xs place' hbody
  | primary => exact Mentions.primary hp ns xs place' hbody

end ShellGrammar
