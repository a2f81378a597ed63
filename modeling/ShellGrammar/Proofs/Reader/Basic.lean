import ShellGrammar.Grammar.Command
import ShellGrammar.Proofs.Grammar.Cursor

/-! The grammar as data.

A run of the parser goes through buffers, cursors, bounds and levels. What it makes of a
text depends on none of these, and a `Reader` says what is left when they are taken away:
which token is asked for at a place, and how to go on with and without it. Readers are
data, so that a fact about all productions is proved by going through the few things that
a reader can do, and not through the productions.

`Reader.LeadsBy` gives a reader its meaning. It leads from a place in a text to another,
and takes what the productions it calls yield as given; `Parses` closes the circle. There
are no faults here: what cannot be read leads nowhere. -/
namespace ShellGrammar
open Grammar ParseM

/-- What is kept of a token that was taken. -/
structure Lexeme where
  kind : Kind
  body : Text

def Token.lexeme (t : Token) : Lexeme := ⟨t.kind, t.body⟩

/-! ### Shapes -/

/-- Shapes that are asked for whatever the table in force says. -/
inductive Shape where
  | sharp
  | bang
  | default
  | colon
  | removal
  | caseChange
  | slash
  | anchor
  | atSign
  | star
  | transform
  | assignHead
deriving DecidableEq

namespace Shape

def pattern : Shape → Pattern
  | sharp => .lit ['#']
  | bang => .lit ['!']
  | default => defaultOp
  | colon => .lit [':']
  | removal => removalOp
  | caseChange => caseOp
  | slash => .lit ['/']
  | anchor => replacementMode
  | atSign => .lit ['@']
  | star => .lit ['*']
  | transform => transformOp
  | assignHead => Grammar.assignHead

def kind : Shape → Kind
  | sharp => .sharp
  | bang => .bang
  | colon => .colon
  | slash => .slash
  | atSign | star => .glyph
  | assignHead => .assignHead
  | default | removal | caseChange | anchor | transform => .op

end Shape

/-- Shapes that close what is open, and have to be there. -/
inductive Closing where
  | brace
  | bracket
  | arith
deriving DecidableEq

namespace Closing

def text : Closing → Text
  | brace => ['}']
  | bracket => [']']
  | arith => [')', ')']

def kind : Closing → Kind
  | brace => .rbrace
  | bracket => .rbracket
  | arith => .rparen

end Closing

/-! ### Productions -/

/-- Chains of operands joined to the left. -/
inductive Chain where
  | andOr
  | pipe
  | comma
  /-- Operators from a row inward. -/
  | binary (min : Nat)

/-- The productions of the grammar. Each yields the nodes it has read. -/
inductive Production where
  /-- A production for as long as it yields something. -/
  | many (p : Production)
  | chain (ch : Chain)
  /-- The rest of a chain, with what was read of it. -/
  | chainRest (ch : Chain) (left : Node)
  -- Commands
  | newlines
  | list (closer : Closer)
  | entries (closer : Closer)
  | entry
  | pipeline
  | command
  | assign
  -- Words
  | word
  | piece (adjacent : Bool)
  -- Behind an opener, up to what closes it
  | quoted
  | braced
  | arithClosed
  -- Arithmetic
  | assignment
  | ternary
  | power
  | unary
  | post
  | primary

/-- How a production is called: as things are, under other rules, or inside a list. -/
inductive Shift where
  | here
  | under (rules : Rules) (allowBlank : Bool)
  | inside (closer : Closer)

/-- The context of a call. -/
def Context.shift (c : Context) : Shift → Context
  | .here => c
  | .under rules allowBlank => c.under rules allowBlank
  | .inside closer => (c.inside closer).under .command true

/-! ### Readers -/

/-- What can be asked about the text at a place, by the type of the answer. -/
inductive Query : Type → Type where
  /-- Takes the next token if it is wanted, which may depend on whether a backquote closes
  the list under way. -/
  | take (adjacent : Bool) (want : Bool → Kind → Bool) : Query (Option Lexeme)
  /-- Whether the next token is wanted. -/
  | peek (want : Kind → Bool) : Query Bool
  /-- Takes a shape if it is there. -/
  | mark (shape : Shape) (pastBlank : Bool) : Query (Option Text)
  /-- Takes a shape that has to be there. -/
  | close (closing : Closing) (pastBlank : Bool) : Query Unit
  /-- Takes a `!` that stands alone: one that the start of a piece touches is text. -/
  | bang : Query Bool
  /-- Takes a name and an assignment behind it, or neither. -/
  | target : Query (Option (Text × Text))

inductive Reader (α : Type) : Type 1 where
  | done (a : α)
  | stop
  | ask {β : Type} (q : Query β) (k : β → Reader α)
  | call (shift : Shift) (p : Production) (k : List Node → Reader α)

namespace Reader
variable {α β : Type}

def bind : Reader α → (α → Reader β) → Reader β
  | done a, f => f a
  | stop, _ => stop
  | ask q k, f => ask q fun b => bind (k b) f
  | call shift p k, f => call shift p fun ns => bind (k ns) f

instance : Monad Reader where
  pure := done
  bind := bind

end Reader

/-! ### Answers -/

/-- The next token in a context, if the text there makes one. -/
def Context.token? (c : Context) (place : Scan) : Option Token :=
  (c.mode.rules.tokenAt place).toOption

/-- Whether a token is wanted and can be seen. -/
def Context.wants (c : Context) (adjacent : Bool) (want : Kind → Bool) (t : Token) : Bool :=
  want t.kind && (!adjacent && c.mode.allowBlank || t.isAdjacent)

/-- The answer in a context at a place, and where it leads. Where the text makes no token
there is none. -/
def Query.answer {β : Type} (c : Context) : Query β → Scan → Option (β × Scan)
  | take adjacent want, place =>
    (c.token? place).map fun t =>
      if c.wants adjacent (want c.inBackquote) t then (some t.lexeme, t.after) else (none, place)
  | peek want, place => (c.token? place).map fun t => (c.wants false want t, place)
  | mark shape pastBlank, place =>
    match c.mode.rules.takeAt shape.pattern shape.kind (pastBlank || c.mode.allowBlank) place with
    | some t => some (some t.body, t.after)
    | none => some (none, place)
  | close closing pastBlank, place =>
    (c.mode.rules.takeAt (.lit closing.text) closing.kind (pastBlank || c.mode.allowBlank)
      place).map fun t => ((), t.after)
  | bang, place => do
    let t ← c.token? place
    if c.wants false (among [.str]) t && t.body == ['!'] then
      let u ← c.token? t.after
      return if c.wants true (among (pieceStart c.inBackquote)) u then (false, place)
        else (true, t.after)
    else
      return (false, place)
  | target, place => do
    let t ← c.token? place
    if c.wants false (among [.ident]) t then
      let u ← c.token? t.after
      return if c.wants false (among assignmentOps) u then (some (t.body, u.body), u.after)
        else (none, place)
    else
      return (none, place)

namespace Query
variable {c : Context} {place : Scan}

theorem answer_take {adjacent : Bool} {want : Bool → Kind → Bool} :
    (take adjacent want).answer c place = (c.token? place).map fun t =>
      if c.wants adjacent (want c.inBackquote) t then (some t.lexeme, t.after) else (none, place) :=
  rfl

theorem answer_peek {want : Kind → Bool} :
    (peek want).answer c place = (c.token? place).map fun t => (c.wants false want t, place) := rfl

theorem answer_mark {shape : Shape} {pastBlank : Bool} :
    (mark shape pastBlank).answer c place =
      match c.mode.rules.takeAt shape.pattern shape.kind (pastBlank || c.mode.allowBlank) place with
      | some t => some (some t.body, t.after)
      | none => some (none, place) := rfl

theorem answer_close {closing : Closing} {pastBlank : Bool} :
    (close closing pastBlank).answer c place =
      (c.mode.rules.takeAt (.lit closing.text) closing.kind (pastBlank || c.mode.allowBlank)
        place).map fun t => ((), t.after) := rfl

theorem answer_bang :
    bang.answer c place = (c.token? place).bind fun t =>
      if c.wants false (among [.str]) t && t.body == ['!'] then
        (c.token? t.after).bind fun u =>
          some (if c.wants true (among (pieceStart c.inBackquote)) u then (false, place)
            else (true, t.after))
      else some (false, place) := rfl

theorem answer_target :
    target.answer c place = (c.token? place).bind fun t =>
      if c.wants false (among [.ident]) t then
        (c.token? t.after).bind fun u =>
          some (if c.wants false (among assignmentOps) u then (some (t.body, u.body), u.after)
            else (none, place))
      else some (none, place) := rfl

end Query

/-! ### Where readers lead -/

/-- What productions yield from one place to another in a context. -/
abbrev Yielding := Context → Production → Scan → List Node → Scan → Prop

/-- In the context `c` a reader leads from a place to another with a result, where `below`
says what the productions it calls yield. -/
def Reader.LeadsBy (below : Yielding) (c : Context) {α : Type} :
    Reader α → Scan → α → Scan → Prop
  | .done a, place, a', place' => a' = a ∧ place' = place
  | .stop, _, _, _ => False
  | .ask q k, place, a, place'' =>
    ∃ b place', q.answer c place = some (b, place') ∧ (k b).LeadsBy below c place' a place''
  | .call shift p k, place, a, place'' =>
    ∃ ns place', below (c.shift shift) p place ns place' ∧
      (k ns).LeadsBy below c place' a place''

section LeadsBy
variable {below below' : Yielding} {c : Context} {α β : Type} {m : Reader α}
  {place place' place'' : Scan} {a : α}

/-- What a reader leads to stays when more is known of the productions. -/
theorem Reader.LeadsBy.mono (h : m.LeadsBy below c place a place')
    (hbelow : ∀ c p place ns place', below c p place ns place' → below' c p place ns place') :
    m.LeadsBy below' c place a place' := by
  induction m generalizing place with
  | done b => exact h
  | stop => exact h
  | ask q k ih =>
    obtain ⟨b, place₁, hanswer, hrest⟩ := h
    exact ⟨b, place₁, hanswer, ih b hrest⟩
  | call shift p k ih =>
    obtain ⟨ns, place₁, hcall, hrest⟩ := h
    exact ⟨ns, place₁, hbelow _ _ _ _ _ hcall, ih ns hrest⟩

theorem leads_pure {b : α} :
    (pure b : Reader α).LeadsBy below c place a place' ↔ a = b ∧ place' = place := Iff.rfl

theorem not_leads_stop : ¬ (.stop : Reader α).LeadsBy below c place a place' := id

theorem leads_bind {f : α → Reader β} {b : β} :
    (m >>= f).LeadsBy below c place b place'' ↔
      ∃ a place', m.LeadsBy below c place a place' ∧ (f a).LeadsBy below c place' b place'' := by
  show (m.bind f).LeadsBy below c place b place'' ↔ _
  induction m generalizing place with
  | done a =>
    constructor
    · intro h
      exact ⟨a, place, ⟨rfl, rfl⟩, h⟩
    · rintro ⟨_, _, ⟨rfl, rfl⟩, h⟩
      exact h
  | stop =>
    constructor
    · intro h
      exact h.elim
    · rintro ⟨_, _, h, _⟩
      exact h
  | ask q k ih =>
    constructor
    · rintro ⟨r, place₁, hanswer, hrest⟩
      obtain ⟨a, place', hm, hf⟩ := (ih r).mp hrest
      exact ⟨a, place', ⟨r, place₁, hanswer, hm⟩, hf⟩
    · rintro ⟨a, place', ⟨r, place₁, hanswer, hm⟩, hf⟩
      exact ⟨r, place₁, hanswer, (ih r).mpr ⟨a, place', hm, hf⟩⟩
  | call shift p k ih =>
    constructor
    · rintro ⟨ns, place₁, hcall, hrest⟩
      obtain ⟨a, place', hm, hf⟩ := (ih ns).mp hrest
      exact ⟨a, place', ⟨ns, place₁, hcall, hm⟩, hf⟩
    · rintro ⟨a, place', ⟨ns, place₁, hcall, hm⟩, hf⟩
      exact ⟨ns, place₁, hcall, (ih ns).mpr ⟨a, place', hm, hf⟩⟩

/-- A question and its answer. -/
theorem leads_query {q : Query α} :
    (Reader.ask q .done).LeadsBy below c place a place' ↔
      q.answer c place = some (a, place') := by
  constructor
  · rintro ⟨b, place₁, hanswer, rfl, rfl⟩
    exact hanswer
  · intro h
    exact ⟨a, place', h, rfl, rfl⟩

end LeadsBy

end ShellGrammar
