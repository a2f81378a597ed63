import ShellGrammar.Outcome
import ShellGrammar.Rules.Cut
import ShellGrammar.Trace

/-! A lexer whose rules can be switched while it reads.

Tokens are read one at a time into a buffer, each under the rule set then in
force, and a cursor moves over the buffer. Entering or leaving a rule set drops
the tokens that the cursor has not passed, so that they are read again under the
new rules; tokens that were consumed are never touched. -/
namespace ShellGrammar

/-- A rule set in force, and whether tokens after blank can be seen under it. -/
structure Mode where
  rules : Rules
  allowBlank : Bool
deriving DecidableEq

namespace Mode

/-- The mode outside every entered rule set. -/
def base : Mode := ⟨.command, true⟩

end Mode

structure Lexer where
  /-- Past the last buffered token. -/
  scan : Scan
  tokens : Array Token
  /-- The cursor: how many tokens were consumed. -/
  next : Nat
  /-- The modes entered and not left, innermost first. -/
  modes : List Mode
  /-- What was reported so far, latest first. -/
  log : List Event

/-- A run of a lexer. -/
abbrev LexM := EStateM (Halt LexFault) Lexer

namespace Lexer

/-- A lexer at the start of a source. -/
def ofText (source : Text) : Lexer := ⟨.ofText source, #[], 0, [], []⟩

/-- The text the lexer reads. -/
def source (l : Lexer) : Text := l.scan.source

/-- The mode in force. -/
def mode (l : Lexer) : Mode := l.modes.headD .base

/-- How many modes are in force, the base one included. -/
def depth (l : Lexer) : Nat := l.modes.length + 1

/-- Whether the last consumed token is the end of the source. -/
def isEos (l : Lexer) : Bool :=
  match l.next with
  | 0 => false
  | n + 1 => l.tokens[n]?.any (·.kind == .eos)

/-- The tokens the cursor has passed. -/
def consumed (l : Lexer) : List Token := l.tokens.toList.take l.next

/-- Adds a token to the buffer. -/
def buffer (t : Token) (l : Lexer) : Lexer :=
  { l with tokens := l.tokens.push t, scan := t.after }

/-- Moves the cursor over the next token. -/
def consume (l : Lexer) : Lexer := { l with next := l.next + 1 }

/-- Drops the tokens that the cursor has not passed. -/
def discard (l : Lexer) : Lexer :=
  match l.tokens[l.next]? with
  | none => l
  | some first =>
    { l with
      log := .discardLookahead (l.tokens.size - l.next) :: l.log
      tokens := l.tokens.shrink l.next
      scan := first.origin }

/-- Enters a rule set. -/
def enter (rules : Rules) (allowBlank : Bool) (l : Lexer) : Lexer :=
  let l := l.discard
  { l with
    modes := ⟨rules, allowBlank⟩ :: l.modes
    log := .pushRules rules allowBlank (l.depth + 1) :: l.log }

/-- Leaves the rule set entered last; none if every one entered was left. -/
def leave? (l : Lexer) : Option Lexer :=
  match l.modes with
  | [] => none
  | _ :: modes =>
    let l := { l with modes }.discard
    some { l with log := .popRules l.mode.rules l.depth :: l.log }

/-! ### Marks -/

/-- A place to come back to. -/
structure Mark where
  scan : Scan
  /-- How many tokens were buffered. -/
  tokens : Nat
  next : Nat
deriving DecidableEq

/-- The place where the lexer is. -/
def mark (l : Lexer) : Mark := ⟨l.scan, l.tokens.size, l.next⟩

/-- Back to a place, forgetting the tokens read since. -/
def reset (m : Mark) (l : Lexer) : Lexer :=
  { l with tokens := l.tokens.shrink m.tokens, next := m.next, scan := m.scan }

end Lexer

namespace LexM
open Lexer

/-- The token at the cursor, which has to be in the buffer. -/
def current : LexM Token := fun l =>
  match l.tokens[l.next]? with
  | some t => .ok t l
  | none => .error (.breach .cursorPastBuffer) l

/-- Cuts the source at the scan, and what is left there after each of some numbers of
characters. The first cut has to be between two characters, the others inside the text. -/
def cutSource (lengths : List Nat) : LexM Unit := fun l =>
  if l.scan.isCut && lengths.all l.scan.has then .ok () l else .error (.breach .badCut) l

/-- Notes the span between two positions, which have to be in order. -/
def noteSpan (start stop : Position) : LexM Unit := fun l =>
  match Span.between? start.offset stop.offset with
  | some _ => .ok () l
  | none => .error (.breach .spanBackwards) l

/-- Adds a token at the scan to the buffer. -/
def keep (t : Token) : LexM Unit := do
  cutSource [t.blank.length, t.blank.length + t.body.length]
  noteSpan t.start t.stop
  modify (buffer t)

/-- Reads the token at the scan into the buffer. The source is cut where the blank in
front of the token starts, where a comment in it may start, and where it ends. -/
def produce : LexM Unit := do
  let l ← get
  cutSource [l.mode.rules.blankLength l.scan.rest, l.mode.rules.skipLength l.scan]
  match l.mode.rules.tokenAt l.scan with
  | .ok t => keep t
  | .error f =>
    noteSpan f.start f.stop
    throw (.fault f)

/-- The next token whatever its kind and blank. One token is read if the buffer
holds none at the cursor. -/
def peekAny : LexM Token := fun l =>
  if l.next < l.tokens.size then current l
  else (do produce; current) l

/-- The next token, if it is one of the kinds asked for and can be seen. -/
def peek (kinds : List Kind) : LexM (Option Token) := do
  let t ← peekAny
  let l ← get
  return if t.isVisible kinds l.mode.allowBlank then some t else none

/-- As `peek`, consuming the token. -/
def next (kinds : List Kind) : LexM (Option Token) := do
  match ← peek kinds with
  | none => return none
  | some t =>
    modify consume
    return some t

/-- The next token, if it is one of the kinds asked for and no blank stands before
it, whatever the mode allows. -/
def peekAdjacent (kinds : List Kind) : LexM (Option Token) := do
  let t ← peekAny
  return if t.isVisible kinds false then some t else none

/-- Steps back over the last consumed token. -/
def back : LexM Unit := fun l =>
  match l.next with
  | 0 => .error (.breach .backAtStart) l
  | n + 1 => .ok () { l with next := n }

/-- Consumes a token of a given shape, if it is there, past blank where that is
allowed. Otherwise the lexer stays where it was. -/
def acceptWith (pattern : Pattern) (kind : Kind) (allowBlank : Bool) :
    LexM (Option Token) := do
  modify discard
  let l ← get
  cutSource [l.mode.rules.blankLength l.scan.rest]
  match l.mode.rules.takeAt pattern kind allowBlank l.scan with
  | some t =>
    keep t
    modify consume
    return some t
  | none => return none

/-- As `acceptWith`, with blank allowed as the mode has it. -/
def accept (pattern : Pattern) (kind : Kind) : LexM (Option Token) := do
  acceptWith pattern kind (← get).mode.allowBlank

/-- Leaves the rule set entered last. -/
def leave : LexM Unit := fun l =>
  match l.leave? with
  | none => .error (.breach .noRulesToLeave) l
  | some l => .ok () l

/-- Runs `act` under a rule set, and leaves the rule set on every way out. -/
def useRules {α : Type} (rules : Rules) (allowBlank : Bool) (act : LexM α) : LexM α := do
  modify (enter rules allowBlank)
  ensuring act leave

/-! ### Reading to the end -/

/-- Why reading a source token by token came to an end. -/
inductive Ending where
  /-- The end of the source was read. -/
  | eos
  /-- The next token is hidden behind blank that is not allowed. -/
  | hidden
  | fault (f : LexFault)

/-- Consumes tokens of any kind until the source ends or one cannot be had, at
most `bound` times. -/
def readAll : (bound : Nat) → LexM (List Token × Ending)
  | 0 => breached .outOfSteps
  | bound + 1 => fun l =>
    match next [] l with
    | .error (.fault f) l => .ok ([], .fault f) l
    | .error (.breach b) l => .error (.breach b) l
    | .ok none l => .ok ([], .hidden) l
    | .ok (some t) l =>
      if t.kind = .eos then .ok ([t], .eos) l
      else ((fun r => (t :: r.1, r.2)) <$> readAll bound) l

end LexM

/-- The tokens of a source under one rule set. A token takes at least one
character, but for the last, so their number is bounded by the length. -/
def tokenize (rules : Rules) (allowBlank : Bool) (source : Text) :
    Except (Halt LexFault) (List Token × LexM.Ending) :=
  match LexM.useRules rules allowBlank (LexM.readAll (source.length + 1)) (.ofText source) with
  | .ok r _ => .ok r
  | .error e _ => .error e

end ShellGrammar
