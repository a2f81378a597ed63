import ShellGrammar.Proofs.Pair.Arithmetic
import ShellGrammar.Proofs.Reader.Basic

/-! The productions as readers.

`Production.body` is the grammar once more, each production written as a reader that calls
others. `Parses` is what productions yield: it is what they yield when calls go at most so
deep, for some depth, so what holds of all that a production calls may be assumed where
something is proved of it (`Parses.induct`). -/
namespace ShellGrammar
open Grammar ParseM

namespace Reader
variable {α : Type}

/-! ### Small readers -/

def next (kinds : List Kind) : Reader (Option Lexeme) :=
  .ask (.take false fun _ => among kinds) .done

/-- A token that has to be there. -/
def expect (kinds : List Kind) : Reader Lexeme := do
  match ← next kinds with
  | some l => pure l
  | none => stop

def peek (kinds : List Kind) : Reader Bool := .ask (.peek (among kinds)) .done

def accept (shape : Shape) : Reader (Option Text) := .ask (.mark shape false) .done

def acceptPastBlank (shape : Shape) : Reader (Option Text) := .ask (.mark shape true) .done

def close (closing : Closing) (pastBlank : Bool) : Reader Unit :=
  .ask (.close closing pastBlank) .done

/-- All that a production yields. -/
def all (shift : Shift) (p : Production) : Reader (List Node) := .call shift p .done

/-- The one node that a production yields. -/
def one (shift : Shift) (p : Production) : Reader Node :=
  .call shift p fun
    | [n] => .done n
    | _ => .stop

/-- The first node that a production yields, if it yields any. -/
def first? (shift : Shift) (p : Production) : Reader (Option Node) :=
  .call shift p fun ns => .done ns.head?

/-- The first alternative that yields something. -/
def firstOf : List (Reader (Option α)) → Reader (Option α)
  | [] => pure none
  | alternative :: rest => do
    match ← alternative with
    | some a => pure (some a)
    | none => firstOf rest

end Reader

open Reader

/-! ### Chains -/

namespace Chain

/-- What stands between the operators. -/
def first : Chain → Production
  | andOr => .pipeline
  | pipe => .command
  | comma => .assignment
  | binary _ => .power

/-- The kinds of the operators. -/
def wants : Chain → Kind → Bool
  | andOr => among [.andAnd, .orOr]
  | pipe => among [.pipe, .pipeAmp]
  | comma => among [.comma]
  | binary min => isBinaryFrom min

/-- Whether newlines may follow an operator. -/
def isCommand : Chain → Bool
  | andOr | pipe => true
  | comma | binary _ => false

/-- What stands behind an operator. -/
def operand : Chain → Kind → Production
  | andOr, _ => .pipeline
  | pipe, _ => .command
  | comma, _ => .assignment
  | binary _, kind => .chain (.binary ((rowOf? kind).getD 0 + 1))

def join : Chain → Text → Node → Node → Node
  | andOr => .andOr
  | pipe => .pipe
  | comma | binary _ => .binOp

/-- An operator, and the newlines that may follow it. -/
def operator (ch : Chain) : Reader (Option Lexeme) := do
  match ← (.ask (.take false fun _ => ch.wants) .done : Reader (Option Lexeme)) with
  | none => pure none
  | some op => do
    if ch.isCommand then
      let _ ← all .here .newlines
    pure (some op)

end Chain

/-! ### Words -/

namespace Reader

/-- A word under a rule set, or the empty node where none is written. -/
def payload (rules : Rules) : Reader Node := return (← first? (.under rules true) .word).getD .empty

/-- What follows the token that a piece starts with. -/
def pieceRest (l : Lexeme) : Reader (List Node) := do
  match l.kind with
  | .str => pure [.str l.body]
  | .singleQuote => pure [.singleQuoted (between l.body)]
  | .dollarName => pure [.simpleParam (withoutDollar l.body)]
  | .doubleQuote => pure [.doubleQuoted (← all (.under .doubleQuote true) .quoted)]
  | .dollarBrace => all (.under .param false) .braced
  | .dollarParen2 => all (.under .arith true) .arithClosed
  | .dollarParen => pure [.commandSubst l.body (← one (.inside .paren) (.list .paren))]
  | .backquote => pure [.commandSubst l.body (← one (.inside .backquote) (.list .backquote))]
  | .inParen | .outParen =>
    pure [.processSubst (l.body.takeWhile (· != '(')) (← one (.inside .paren) (.list .paren))]
  | _ => stop

/-! ### Parameters -/

/-- The marks and the name. -/
def head : Reader Head := do
  let length := (← accept .sharp).isSome
  let ref := (← accept .bang).isSome
  match ← next [.name] with
  | some l => pure ⟨length, ref, l.body⟩
  | none =>
    if ref || length then
      if ← peek [.rbrace] then
        pure (if ref then ⟨length, false, ['!']⟩ else ⟨false, ref, ['#']⟩)
      else stop
    else stop

/-- An arithmetic expression inside an expansion. -/
def arithOperand : Reader Node := one (.under .arith true) (.chain .comma)

section Forms
variable (ref : Bool) (name : Text)

def elementsForm : Reader (Option Form) := do
  match ← next [.bracketAt, .bracketStar] with
  | none => pure none
  | some l =>
    pure (some ⟨if ref then .arrayKeys name (between l.body)
      else .arrayElements name (between l.body), false⟩)

def defaultForm : Reader (Option Form) := do
  match ← accept .default with
  | none => pure none
  | some op => pure (some ⟨.paramDefault ref name op (← payload .wordUntilBrace), false⟩)

def substringForm : Reader (Option Form) := do
  match ← accept .colon with
  | none => pure none
  | some _ =>
    let offset ← arithOperand
    match ← acceptPastBlank .colon with
    | none => pure (some ⟨.substring ref name offset .empty, true⟩)
    | some _ => pure (some ⟨.substring ref name offset (← arithOperand), true⟩)

def removalForm : Reader (Option Form) := do
  match ← accept .removal with
  | none => pure none
  | some mode => pure (some ⟨.patternRemoval ref name mode (← payload .wordUntilBrace), false⟩)

def caseForm : Reader (Option Form) := do
  match ← accept .caseChange with
  | none => pure none
  | some mode => pure (some ⟨.caseChange ref name mode (← payload .wordUntilBrace), false⟩)

def replacementForm : Reader (Option Form) := do
  match ← accept .slash with
  | none => pure none
  | some slash =>
    let mode := slash ++ (← accept .anchor).getD []
    let pattern ← payload .wordUntilSlash
    match ← accept .slash with
    | none => pure (some ⟨.patternReplacement ref name mode pattern none, false⟩)
    | some _ =>
      pure (some ⟨.patternReplacement ref name mode pattern (some (← payload .wordUntilBrace)),
        false⟩)

def matchingNames (mode : Text) : Reader Form :=
  if ref && Text.isVariableName name then pure ⟨.namesStarting name mode, false⟩ else stop

def atForm : Reader (Option Form) := do
  match ← accept .atSign with
  | none => pure none
  | some _ =>
    match ← accept .transform with
    | some op => pure (some ⟨.paramTransform ref name op, false⟩)
    | none => pure (some (← matchingNames ref name ['@']))

def starForm : Reader (Option Form) := do
  match ← accept .star with
  | none => pure none
  | some _ => pure (some (← matchingNames ref name ['*']))

def elementForm : Reader (Option Form) := do
  match ← next [.lbracket] with
  | none => pure none
  | some _ =>
    let subscript ← arithOperand
    close .bracket true
    pure (some ⟨.arrayElement ref name subscript, false⟩)

/-- The forms that can follow a name, in the order in which they are tried. -/
def forms : List (Reader (Option Form)) := [
  elementsForm ref name, defaultForm ref name, substringForm ref name, removalForm ref name,
  caseForm ref name, replacementForm ref name, atForm ref name, starForm ref name,
  elementForm ref name]

end Forms

/-- What stands between `${` and its brace. -/
def parameterBody : Reader Form := do
  let h ← head
  if h.length then
    pure ⟨.paramLength h.ref h.name, false⟩
  else
    pure ((← firstOf (forms h.ref h.name)).getD ⟨.param h.ref h.name, false⟩)

/-! ### Arithmetic -/

/-- What follows the token that a primary starts with. -/
def primaryRest (l : Lexeme) : Reader (List Node) := do
  match l.kind with
  | .number => pure [.number l.body]
  | .ident => pure [.var l.body false]
  | .dollarName => pure [.var (withoutDollar l.body) true]
  | .lparen =>
    let body ← one .here (.chain .comma)
    let _ ← expect [.rparen]
    pure [.parentheses body]
  | .dollarBrace => all (.under .param false) .braced
  | .dollarParen2 => all (.under .arith true) .arithClosed
  | .dollarParen => pure [.commandSubst l.body (← one (.inside .paren) (.list .paren))]
  | _ => stop

end Reader

/-! ### The table -/

/-- What a production reads. -/
def Production.body : Production → Reader (List Node)
  | many p => do
    match ← first? .here p with
    | none => pure []
    | some n => pure (n :: (← all .here (many p)))
  | chain ch => do
    let left ← one .here ch.first
    all .here (chainRest ch left)
  | chainRest ch left => do
    match ← ch.operator with
    | none => pure [left]
    | some op =>
      let right ← one .here (ch.operand op.kind)
      all .here (chainRest ch (ch.join op.body left right))
  | newlines => do
    match ← next [.newline] with
    | none => pure []
    | some _ => all .here newlines
  | list closer => do
    let body ← all .here (entries closer)
    let _ ← expect [closer.kind]
    pure [.list body]
  | entries closer => do
    let _ ← all .here newlines
    if ← peek [closer.kind] then
      pure []
    else
      let first ← one .here entry
      if isTerminated first then
        pure (first :: (← all .here (entries closer)))
      else
        pure [first]
  | entry => do
    let body ← one .here (chain .andOr)
    let terminal ← next terminals
    pure [.pipelines body (terminal.map (·.body))]
  | pipeline => do
    let excl ← (.ask .bang .done : Reader Bool)
    let body ← one .here (chain .pipe)
    pure [.pipeline excl body]
  | command => do
    let assigns ← all .here (many assign)
    let body ← all .here (many word)
    if assigns.isEmpty && body.isEmpty then stop
    else pure [.simpleCommand assigns body]
  | assign => do
    match ← accept .assignHead with
    | none => pure []
    | some t => pure [.assign t.dropLast (← first? (.under .command false) word)]
  | word => do
    match ← first? .here (piece false) with
    | none => pure []
    | some first =>
      let rest ← all .here (many (piece true))
      pure [if rest.isEmpty then first else .concat (first :: rest)]
  | piece adjacent => do
    match ← (.ask (.take adjacent fun b => among (pieceStart b)) .done : Reader (Option Lexeme)) with
    | none => pure []
    | some l => pieceRest l
  | quoted => do
    match ← next [.doubleQuote] with
    | some _ => pure []
    | none =>
      match ← first? .here (piece false) with
      | none => stop
      | some p => pure (p :: (← all .here quoted))
  | braced => do
    let form ← parameterBody
    if form.blankBeforeBrace then
      close .brace true
      pure [form.node]
    else
      let _ ← expect [.rbrace]
      pure [form.node]
  | arithClosed => do
    let body ← one .here (chain .comma)
    close .arith false
    pure [.arithExpansion body]
  | assignment => do
    match ← (.ask .target .done : Reader (Option (Text × Text))) with
    | some (name, op) => pure [.binOp op (.var name false) (← one .here assignment)]
    | none => all .here ternary
  | ternary => do
    let cond ← one .here (chain (.binary 0))
    match ← next [.question] with
    | none => pure [cond]
    | some _ =>
      let yes ← one .here (chain .comma)
      let _ ← expect [.colon]
      let no ← one .here ternary
      pure [.ternary cond yes no]
  | power => do
    let base ← one .here unary
    match ← next [.starStar] with
    | none => pure [base]
    | some op => pure [.binOp op.body base (← one .here power)]
  | unary => do
    match ← next frontOps with
    | none => all .here post
    | some op => pure [.unOp op.body (← one .here unary)]
  | post => do
    let operand ← one .here primary
    match ← next behindOps with
    | none => pure [operand]
    | some op => pure [.postOp op.body operand]
  | primary => do primaryRest (← expect primaryStart)

/-! ### Closing the circle -/

/-- What productions yield when calls go at most so deep. -/
def parses : Nat → Yielding
  | 0 => fun _ _ _ _ _ => False
  | n + 1 => fun c p place ns place' => p.body.LeadsBy (parses n) c place ns place'

/-- More depth does not take anything away. -/
theorem parses_step : ∀ {n : Nat} {c : Context} {p : Production} {place : Scan} {ns : List Node}
    {place' : Scan}, parses n c p place ns place' → parses (n + 1) c p place ns place'
  | 0, _, _, _, _, _, h => h.elim
  | _ + 1, _, _, _, _, _, h => Reader.LeadsBy.mono h fun _ _ _ _ _ => parses_step

theorem parses_mono {n m : Nat} (hle : n ≤ m) {c : Context} {p : Production} {place : Scan}
    {ns : List Node} {place' : Scan} (h : parses n c p place ns place') :
    parses m c p place ns place' := by
  induction hle with
  | refl => exact h
  | step _ ih => exact parses_step ih

/-- At some depth, a production yields some nodes from one place to another. -/
def Parses (c : Context) (p : Production) (place : Scan) (ns : List Node) (place' : Scan) : Prop :=
  ∃ n, parses n c p place ns place'

/-- A reader leads from one place to another. -/
abbrev Leads (c : Context) {α : Type} (m : Reader α) (place : Scan) (a : α) (place' : Scan) : Prop :=
  m.LeadsBy Parses c place a place'

section Leads
variable {α β : Type} {below : Yielding} {c : Context} {m : Reader α} {place place' place'' : Scan}
  {a a' : α}

/-- Where a reader leads takes finitely many calls. -/
theorem Reader.LeadsBy.exists_depth (h : m.LeadsBy Parses c place a place') :
    ∃ n, m.LeadsBy (parses n) c place a place' := by
  induction m generalizing place with
  | done b => exact ⟨0, h⟩
  | stop => exact h.elim
  | ask q k ih =>
    obtain ⟨b, place₁, hanswer, hrest⟩ := h
    obtain ⟨n, hn⟩ := ih b hrest
    exact ⟨n, b, place₁, hanswer, hn⟩
  | call shift p k ih =>
    obtain ⟨ns, place₁, ⟨n, hcall⟩, hrest⟩ := h
    obtain ⟨n', hn'⟩ := ih ns hrest
    refine ⟨max n n', ns, place₁, parses_mono (Nat.le_max_left n n') hcall, ?_⟩
    exact hn'.mono fun _ _ _ _ _ => parses_mono (Nat.le_max_right n n')

/-- A production yields what its reader leads to. -/
theorem parses_iff {p : Production} {ns : List Node} :
    Parses c p place ns place' ↔ Leads c p.body place ns place' := by
  constructor
  · rintro ⟨n, h⟩
    cases n with
    | zero => exact h.elim
    | succ n => exact h.mono fun _ _ _ _ _ h => ⟨n, h⟩
  · intro h
    obtain ⟨n, hn⟩ := h.exists_depth
    exact ⟨n + 1, hn⟩

/-- What holds of a production if it holds of the productions that it calls, holds of all. -/
theorem Parses.induct {P : Yielding}
    (step : ∀ {c : Context} {p : Production} {place : Scan} {ns : List Node} {place' : Scan},
      p.body.LeadsBy (fun c p place ns place' => Parses c p place ns place' ∧
        P c p place ns place') c place ns place' → P c p place ns place')
    {p : Production} {ns : List Node} (h : Parses c p place ns place') :
    P c p place ns place' := by
  obtain ⟨n, h⟩ := h
  induction n generalizing c p place ns place' with
  | zero => exact h.elim
  | succ n ih => exact step (h.mono fun _ _ _ _ _ h => ⟨⟨n, h⟩, ih h⟩)

/-! Small readers. -/

theorem leads_all {shift : Shift} {p : Production} {ns : List Node} :
    (Reader.all shift p).LeadsBy below c place ns place' ↔
      below (c.shift shift) p place ns place' := by
  constructor
  · rintro ⟨ms, place₁, h, rfl, rfl⟩
    exact h
  · intro h
    exact ⟨ns, place', h, rfl, rfl⟩

theorem leads_one {shift : Shift} {p : Production} {n : Node} :
    (Reader.one shift p).LeadsBy below c place n place' ↔
      below (c.shift shift) p place [n] place' := by
  constructor
  · rintro ⟨ms, place₁, h, hrest⟩
    dsimp only at hrest
    split at hrest
    · obtain ⟨rfl, rfl⟩ := hrest
      exact h
    · exact hrest.elim
  · intro h
    exact ⟨[n], place', h, rfl, rfl⟩

theorem leads_first? {shift : Shift} {p : Production} {o : Option Node} :
    (Reader.first? shift p).LeadsBy below c place o place' ↔
      ∃ ns, below (c.shift shift) p place ns place' ∧ o = ns.head? := by
  constructor
  · rintro ⟨ms, place₁, h, rfl, rfl⟩
    exact ⟨ms, h, rfl⟩
  · rintro ⟨ms, h, rfl⟩
    exact ⟨ms, place', h, rfl, rfl⟩

theorem leads_expect {kinds : List Kind} {l : Lexeme} :
    (Reader.expect kinds).LeadsBy below c place l place' ↔
      (Reader.next kinds).LeadsBy below c place (some l) place' := by
  rw [Reader.expect, leads_bind]
  constructor
  · rintro ⟨o, place₁, h, hrest⟩
    cases o with
    | none => exact hrest.elim
    | some l =>
      obtain ⟨rfl, rfl⟩ := hrest
      exact h
  · intro h
    exact ⟨some l, place', h, rfl, rfl⟩

/-- What the first of some alternatives yields, one of them yields. -/
theorem leads_firstOf {alternatives : List (Reader (Option α))} {x : α}
    (h : (Reader.firstOf alternatives).LeadsBy below c place (some x) place') :
    ∃ alternative ∈ alternatives, ∃ place₁,
      alternative.LeadsBy below c place₁ (some x) place' := by
  induction alternatives generalizing place with
  | nil => cases h.1
  | cons alternative rest ih =>
    obtain ⟨o, place₁, halternative, hrest⟩ := leads_bind.mp h
    cases o with
    | none =>
      obtain ⟨found, hmem, place₂, hfound⟩ := ih hrest
      exact ⟨found, List.mem_cons_of_mem _ hmem, place₂, hfound⟩
    | some y =>
      obtain ⟨hsame, rfl⟩ := leads_pure.mp hrest
      exact ⟨alternative, List.mem_cons_self, place, hsame ▸ halternative⟩

/-- Productions yield one thing at a place, and lead to one other. -/
def Yielding.Functional (below : Yielding) : Prop :=
  ∀ {c p place ns ns' place' place''}, below c p place ns place' →
    below c p place ns' place'' → ns' = ns ∧ place'' = place'

/-- So do readers that call them. -/
theorem Yielding.Functional.leads (hbelow : below.Functional)
    (h : m.LeadsBy below c place a place') (h' : m.LeadsBy below c place a' place'') :
    a' = a ∧ place'' = place' := by
  induction m generalizing place with
  | done b => exact ⟨h'.1.trans h.1.symm, h'.2.trans h.2.symm⟩
  | stop => exact h.elim
  | ask q k ih =>
    obtain ⟨b, place₁, hanswer, hrest⟩ := h
    obtain ⟨b', place₁', hanswer', hrest'⟩ := h'
    rw [hanswer] at hanswer'
    cases hanswer'
    exact ih b hrest hrest'
  | call shift p k ih =>
    obtain ⟨ns, place₁, hcall, hrest⟩ := h
    obtain ⟨ns', place₁', hcall', hrest'⟩ := h'
    obtain ⟨rfl, rfl⟩ := hbelow hcall hcall'
    exact ih _ hrest hrest'

theorem functional_parses (n : Nat) : (parses n).Functional := by
  induction n with
  | zero => exact fun h => h.elim
  | succ n ih => exact ih.leads

/-- A production yields the same and leads to the same place, however deep calls may go. -/
theorem Parses.functional : Yielding.Functional Parses := by
  rintro c p place ns ns' place' place'' ⟨n, h⟩ ⟨n', h'⟩
  exact functional_parses (max n n') (parses_mono (Nat.le_max_left n n') h)
    (parses_mono (Nat.le_max_right n n') h')

theorem Leads.unique (h : Leads c m place a place') (h' : Leads c m place a' place'') :
    a' = a ∧ place'' = place' :=
  Parses.functional.leads h h'

end Leads

end ShellGrammar
