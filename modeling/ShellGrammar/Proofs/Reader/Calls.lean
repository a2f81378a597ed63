import ShellGrammar.Proofs.Reader.Transfer

/-! Who calls whom.

The table of productions says in which order a production asks and calls, and what it makes of
the answers. Often it is enough to know what it asks and calls at all: `Production.Asks` and
`Production.Calls` are that part of the table (`covers_body`). What is true of whatever is read
because of where a production can be called from, is then seen by going through its callers, and
not through the table. -/
namespace ShellGrammar
open Grammar ParseM

namespace Production

/-- The kinds of tokens that a production takes, one list for each place where it does. -/
def sought : Production → List (List Kind)
  | newlines => [[.newline]]
  | list closer => [[closer.kind]]
  | entry => [terminals]
  | quoted => [[.doubleQuote]]
  | braced => [[.name], [.bracketAt, .bracketStar], [.lbracket], [.rbrace]]
  | ternary => [[.question], [.colon]]
  | power => [[.starStar]]
  | unary => [frontOps]
  | post => [behindOps]
  | primary => [primaryStart, [.rparen]]
  | _ => []

/-- What a production asks the text. -/
inductive Asks : Production → (β : Type) → Query β → Prop where
  | next {p : Production} {kinds : List Kind} (h : kinds ∈ p.sought) :
    Asks p _ (.take false fun _ => among kinds)
  | operator (ch : Chain) (left : Node) :
    Asks (chainRest ch left) _ (.take false fun _ => ch.wants)
  | ending (closer : Closer) : Asks (entries closer) _ (.peek (among [closer.kind]))
  | bang : Asks pipeline _ .bang
  | head : Asks assign _ (.mark .assignHead false)
  | start (adjacent : Bool) :
    Asks (piece adjacent) _ (.take adjacent fun inBackquote => among (pieceStart inBackquote))
  | shape {shape : Shape} (h : shape ≠ .assignHead) (pastBlank : Bool) :
    Asks braced _ (.mark shape pastBlank)
  | brace : Asks braced _ (.peek (among [.rbrace]))
  | closeBraced (closing : Closing) : Asks braced _ (.close closing true)
  | closeArith : Asks arithClosed _ (.close .arith false)
  | target : Asks assignment _ .target

/-- What a production calls, and how. -/
inductive Calls : Production → Shift → Production → Prop where
  | one (p : Production) : Calls (many p) .here p
  | more (p : Production) : Calls (many p) .here (many p)
  | first (ch : Chain) : Calls (chain ch) .here ch.first
  | rest (ch : Chain) (left : Node) : Calls (chain ch) .here (chainRest ch left)
  | newlinesBehind {ch : Chain} (h : ch.isCommand = true) (left : Node) :
    Calls (chainRest ch left) .here newlines
  | operand (ch : Chain) (left : Node) (kind : Kind) :
    Calls (chainRest ch left) .here (ch.operand kind)
  | further (ch : Chain) (left joined : Node) :
    Calls (chainRest ch left) .here (chainRest ch joined)
  | newlines : Calls newlines .here newlines
  | entries (closer : Closer) : Calls (list closer) .here (entries closer)
  | newlinesBefore (closer : Closer) : Calls (entries closer) .here newlines
  | entry (closer : Closer) : Calls (entries closer) .here entry
  | moreEntries (closer : Closer) : Calls (entries closer) .here (entries closer)
  | andOr : Calls entry .here (chain .andOr)
  | pipe : Calls pipeline .here (chain .pipe)
  | assigns : Calls command .here (many assign)
  | words : Calls command .here (many word)
  | value : Calls assign (.under .command false) word
  | piece : Calls word .here (piece false)
  | pieces : Calls word .here (many (piece true))
  | quoted (adjacent : Bool) : Calls (piece adjacent) (.under .doubleQuote true) quoted
  | piecesQuoted : Calls quoted .here (Production.piece false)
  | moreQuoted : Calls quoted .here quoted
  /-- The substitutions and expansions of words and expressions. -/
  | list (adjacent : Bool) (closer : Closer) :
    Calls (Production.piece adjacent) (.inside closer) (list closer)
  | listInArith : Calls Production.primary (.inside .paren) (Production.list .paren)
  | braced {p : Production} (h : p = primary ∨ ∃ adjacent, p = Production.piece adjacent) :
    Calls p (.under .param false) braced
  | arithClosed {p : Production} (h : p = primary ∨ ∃ adjacent, p = Production.piece adjacent) :
    Calls p (.under .arith true) arithClosed
  | payload {rules : Rules} (h : rules = .wordUntilBrace ∨ rules = .wordUntilSlash) :
    Calls Production.braced (.under rules true) word
  | arithOperand : Calls Production.braced (.under .arith true) (chain .comma)
  | expression : Calls Production.arithClosed .here (chain .comma)
  | assignment : Calls assignment .here assignment
  | ternary : Calls assignment .here ternary
  | condition : Calls ternary .here (chain (.binary 0))
  | yes : Calls ternary .here (chain .comma)
  | no : Calls ternary .here ternary
  | base : Calls power .here unary
  | power : Calls power .here power
  | unary : Calls unary .here unary
  | post : Calls unary .here post
  | primary : Calls post .here primary
  | parenthesized : Calls Production.primary .here (chain .comma)

/-- Whether a production can stand any number of times. -/
def isPart : Production → Bool
  | assign | word | piece _ => true
  | _ => false

/-- What stands any number of times can do so. -/
def Sane : Production → Prop
  | many p => p.isPart = true
  | _ => True

/-- The productions that are called from sane ones are sane. -/
theorem Calls.sane {p p' : Production} {shift : Shift} (h : p.Calls shift p') (hp : p.Sane) :
    p'.Sane := by
  cases h with
  | one =>
    cases p' with
    | many _ => cases hp
    | _ => trivial
  | more => exact hp
  | first ch => cases ch <;> trivial
  | operand ch _ _ => cases ch <;> trivial
  | assigns | words | pieces => rfl
  | _ => trivial

end Production

open Reader

section Within
variable {p : Production} {α : Type}

/-- A reader asks and calls what a production does. -/
abbrev Production.Covers (p : Production) (m : Reader α) : Prop := m.Within p.Asks p.Calls

theorem covers_next {kinds : List Kind} (h : kinds ∈ p.sought) : p.Covers (Reader.next kinds) :=
  within_query (.next h)

theorem covers_expect {kinds : List Kind} (h : kinds ∈ p.sought) :
    p.Covers (Reader.expect kinds) :=
  within_expect (covers_next h)

/-! ### Parameters -/

theorem covers_accept {shape : Shape} (h : shape ≠ .assignHead) :
    Production.braced.Covers (Reader.accept shape) :=
  within_query (.shape h false)

theorem covers_payload {rules : Rules} (h : rules = .wordUntilBrace ∨ rules = .wordUntilSlash) :
    Production.braced.Covers (Reader.payload rules) :=
  within_bind (within_first? (.payload h)) fun _ => within_pure

theorem covers_arithOperand : Production.braced.Covers Reader.arithOperand :=
  within_one .arithOperand

theorem covers_head : Production.braced.Covers Reader.head := by
  refine within_bind (covers_accept (by decide)) fun length => ?_
  refine within_bind (covers_accept (by decide)) fun ref => ?_
  refine within_bind (covers_next (by decide)) fun o => ?_
  cases o with
  | some l => exact within_pure
  | none =>
    dsimp only
    split
    · refine within_bind (within_query .brace) fun b => ?_
      cases b with
      | true => exact within_pure
      | false => trivial
    · trivial

section Forms
variable (ref : Bool) (name : Text)

/-- A form that is an operator and a payload. -/
theorem covers_operated {shape : Shape} (hshape : shape ≠ .assignHead) {rules : Rules}
    (h : rules = .wordUntilBrace ∨ rules = .wordUntilSlash) (f : Text → Node → Form) :
    Production.braced.Covers (Reader.accept shape >>= fun o =>
      match o with
      | none => pure none
      | some op => Reader.payload rules >>= fun value => pure (some (f op value))) := by
  refine within_bind (covers_accept hshape) fun o => ?_
  cases o with
  | none => exact within_pure
  | some op => exact within_bind (covers_payload h) fun _ => within_pure

theorem covers_elementsForm : Production.braced.Covers (Reader.elementsForm ref name) := by
  refine within_bind (covers_next (by decide)) fun o => ?_
  cases o <;> exact within_pure

theorem covers_substringForm : Production.braced.Covers (Reader.substringForm ref name) := by
  refine within_bind (covers_accept (by decide)) fun o => ?_
  cases o with
  | none => exact within_pure
  | some _ =>
    refine within_bind covers_arithOperand fun offset => ?_
    refine within_bind (within_query (.shape (by decide) true)) fun o => ?_
    cases o with
    | none => exact within_pure
    | some _ => exact within_bind covers_arithOperand fun _ => within_pure

theorem covers_replacementForm : Production.braced.Covers (Reader.replacementForm ref name) := by
  refine within_bind (covers_accept (by decide)) fun o => ?_
  cases o with
  | none => exact within_pure
  | some slash =>
    refine within_bind (covers_accept (by decide)) fun anchor => ?_
    refine within_bind (covers_payload (.inr rfl)) fun pattern => ?_
    refine within_bind (covers_accept (by decide)) fun o => ?_
    cases o with
    | none => exact within_pure
    | some _ => exact within_bind (covers_payload (.inl rfl)) fun _ => within_pure

theorem covers_matchingNames (mode : Text) :
    Production.braced.Covers (Reader.matchingNames ref name mode) := by
  unfold Reader.matchingNames
  split <;> trivial

theorem covers_atForm : Production.braced.Covers (Reader.atForm ref name) := by
  refine within_bind (covers_accept (by decide)) fun o => ?_
  cases o with
  | none => exact within_pure
  | some _ =>
    refine within_bind (covers_accept (by decide)) fun o => ?_
    cases o with
    | none => exact within_bind (covers_matchingNames ref name _) fun _ => within_pure
    | some op => exact within_pure

theorem covers_starForm : Production.braced.Covers (Reader.starForm ref name) := by
  refine within_bind (covers_accept (by decide)) fun o => ?_
  cases o with
  | none => exact within_pure
  | some _ => exact within_bind (covers_matchingNames ref name _) fun _ => within_pure

theorem covers_elementForm : Production.braced.Covers (Reader.elementForm ref name) := by
  refine within_bind (covers_next (by decide)) fun o => ?_
  cases o with
  | none => exact within_pure
  | some _ =>
    refine within_bind covers_arithOperand fun subscript => ?_
    exact within_bind (within_query (.closeBraced .bracket)) fun _ => within_pure

theorem covers_firstOf {readers : List (Reader (Option Form))}
    (h : ∀ m ∈ readers, Production.braced.Covers m) :
    Production.braced.Covers (Reader.firstOf readers) := by
  induction readers with
  | nil => exact within_pure
  | cons m rest ih =>
    refine within_bind (h m List.mem_cons_self) fun o => ?_
    cases o with
    | none => exact ih fun m hm => h m (List.mem_cons_of_mem _ hm)
    | some _ => exact within_pure

theorem covers_forms : Production.braced.Covers (Reader.firstOf (Reader.forms ref name)) := by
  refine covers_firstOf ?_
  simp only [Reader.forms, List.forall_mem_cons]
  exact ⟨covers_elementsForm ref name,
    covers_operated (by decide) (.inl rfl) fun op value =>
      ⟨.paramDefault ref name op value, false⟩,
    covers_substringForm ref name,
    covers_operated (by decide) (.inl rfl) fun mode pattern =>
      ⟨.patternRemoval ref name mode pattern, false⟩,
    covers_operated (by decide) (.inl rfl) fun mode pattern =>
      ⟨.caseChange ref name mode pattern, false⟩,
    covers_replacementForm ref name, covers_atForm ref name, covers_starForm ref name,
    covers_elementForm ref name, List.forall_mem_nil _⟩

end Forms

theorem covers_parameterBody : Production.braced.Covers Reader.parameterBody := by
  refine within_bind covers_head fun h => ?_
  split
  · exact within_pure
  · exact within_bind (covers_forms _ _) fun _ => within_pure

/-! ### What a token opens -/

theorem covers_pieceRest (adjacent : Bool) (l : Lexeme) :
    (Production.piece adjacent).Covers (Reader.pieceRest l) := by
  have hpiece : ∃ b, Production.piece adjacent = .piece b := ⟨adjacent, rfl⟩
  unfold Reader.pieceRest
  split
  · exact within_pure
  · exact within_pure
  · exact within_pure
  · exact within_bind (within_all (.quoted adjacent)) fun _ => within_pure
  · exact within_all (.braced (.inr hpiece))
  · exact within_all (.arithClosed (.inr hpiece))
  iterate 4 exact within_bind (within_one (.list adjacent _)) fun _ => within_pure
  · trivial

theorem covers_primaryRest (l : Lexeme) : Production.primary.Covers (Reader.primaryRest l) := by
  unfold Reader.primaryRest
  split
  · exact within_pure
  · exact within_pure
  · exact within_pure
  · refine within_bind (within_one .parenthesized) fun body => ?_
    exact within_bind (covers_expect (by decide)) fun _ => within_pure
  · exact within_all (.braced (.inl rfl))
  · exact within_all (.arithClosed (.inl rfl))
  · exact within_bind (within_one .listInArith) fun _ => within_pure
  · trivial

theorem covers_operator (ch : Chain) (left : Node) :
    (Production.chainRest ch left).Covers ch.operator := by
  refine within_bind (within_query (.operator ch left)) fun o => ?_
  cases o with
  | none => exact within_pure
  | some op =>
    dsimp only
    split
    case isTrue hcommand =>
      exact within_bind (within_all (.newlinesBehind hcommand left)) fun _ => within_pure
    case isFalse => exact within_pure

/-! ### The table -/

/-- A production asks and calls nothing else. -/
theorem covers_body (p : Production) : p.Covers p.body := by
  cases p with
  | many p =>
    refine within_bind (within_first? (.one p)) fun o => ?_
    cases o with
    | none => exact within_pure
    | some n => exact within_bind (within_all (.more p)) fun _ => within_pure
  | chain ch => exact within_bind (within_one (.first ch)) fun left => within_all (.rest ch left)
  | chainRest ch left =>
    refine within_bind (covers_operator ch left) fun o => ?_
    cases o with
    | none => exact within_pure
    | some op =>
      refine within_bind (within_one (.operand ch left _)) fun right => ?_
      exact within_all (.further ch left _)
  | newlines =>
    refine within_bind (covers_next (by decide)) fun o => ?_
    cases o with
    | none => exact within_pure
    | some _ => exact within_all .newlines
  | list closer =>
    refine within_bind (within_all (.entries closer)) fun body => ?_
    exact within_bind (covers_expect List.mem_cons_self) fun _ => within_pure
  | entries closer =>
    refine within_bind (within_all (.newlinesBefore closer)) fun _ => ?_
    refine within_bind (within_query (.ending closer)) fun b => ?_
    cases b with
    | true => exact within_pure
    | false =>
      refine within_bind (within_one (.entry closer)) fun first => ?_
      split
      · exact within_bind (within_all (.moreEntries closer)) fun _ => within_pure
      · exact within_pure
  | entry =>
    refine within_bind (within_one .andOr) fun body => ?_
    exact within_bind (covers_next List.mem_cons_self) fun _ => within_pure
  | pipeline =>
    refine within_bind (within_query .bang) fun excl => ?_
    exact within_bind (within_one .pipe) fun _ => within_pure
  | command =>
    refine within_bind (within_all .assigns) fun assigns => ?_
    refine within_bind (within_all .words) fun body => ?_
    cases assigns.isEmpty && body.isEmpty with
    | true => trivial
    | false => exact within_pure
  | assign =>
    refine within_bind (within_query .head) fun o => ?_
    cases o with
    | none => exact within_pure
    | some t => exact within_bind (within_first? .value) fun _ => within_pure
  | word =>
    refine within_bind (within_first? .piece) fun o => ?_
    cases o with
    | none => exact within_pure
    | some first => exact within_bind (within_all .pieces) fun _ => within_pure
  | piece adjacent =>
    refine within_bind (within_query (.start adjacent)) fun o => ?_
    cases o with
    | none => exact within_pure
    | some l => exact covers_pieceRest adjacent l
  | quoted =>
    refine within_bind (covers_next (by decide)) fun o => ?_
    cases o with
    | some _ => exact within_pure
    | none =>
      refine within_bind (within_first? .piecesQuoted) fun o => ?_
      cases o with
      | none => trivial
      | some p => exact within_bind (within_all .moreQuoted) fun _ => within_pure
  | braced =>
    refine within_bind covers_parameterBody fun form => ?_
    split
    · exact within_bind (within_query (.closeBraced .brace)) fun _ => within_pure
    · exact within_bind (covers_expect (by decide)) fun _ => within_pure
  | arithClosed =>
    refine within_bind (within_one .expression) fun body => ?_
    exact within_bind (within_query .closeArith) fun _ => within_pure
  | assignment =>
    refine within_bind (within_query .target) fun o => ?_
    cases o with
    | none => exact within_all .ternary
    | some target => exact within_bind (within_one .assignment) fun _ => within_pure
  | ternary =>
    refine within_bind (within_one .condition) fun cond => ?_
    refine within_bind (covers_next (by decide)) fun o => ?_
    cases o with
    | none => exact within_pure
    | some _ =>
      refine within_bind (within_one .yes) fun yes => ?_
      refine within_bind (covers_expect (by decide)) fun _ => ?_
      exact within_bind (within_one .no) fun _ => within_pure
  | power =>
    refine within_bind (within_one .base) fun base => ?_
    refine within_bind (covers_next (by decide)) fun o => ?_
    cases o with
    | none => exact within_pure
    | some op => exact within_bind (within_one .power) fun _ => within_pure
  | unary =>
    refine within_bind (covers_next (by decide)) fun o => ?_
    cases o with
    | none => exact within_all .post
    | some op => exact within_bind (within_one .unary) fun _ => within_pure
  | post =>
    refine within_bind (within_one .primary) fun operand => ?_
    refine within_bind (covers_next (by decide)) fun o => ?_
    cases o <;> exact within_pure
  | primary => exact within_bind (covers_expect (by decide)) fun l => covers_primaryRest l

end Within

end ShellGrammar
