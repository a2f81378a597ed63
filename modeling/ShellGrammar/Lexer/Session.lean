import ShellGrammar.Lexer.Basic

/-! Sessions: a lexer driven one action at a time.

An `Action` is something that can be asked of a lexer, and a session answers a
list of them one by one. Since actions are data, "after any sequence of
operations" is a statement about lists. A fault ends the block of actions it
happens in, but not the session; a breach ends the session. -/
namespace ShellGrammar

/-- What can be asked of a lexer. -/
inductive Action where
  | peek (kinds : List Kind)
  | next (kinds : List Kind)
  | peekAdjacent (kinds : List Kind)
  | peekAny
  | back
  /-- Consumes a token of a given shape; without a word on blank the mode decides. -/
  | accept (pattern : Pattern) (kind : Kind) (allowBlank : Option Bool)
  /-- Remembers the place under a name. -/
  | mark (slot : String)
  | reset (slot : String)
  /-- Asks whether the lexer is at the place remembered under a name. -/
  | sameMark (slot : String)
  /-- Asks what is being read. -/
  | info
  | useRules (rules : Rules) (allowBlank : Bool) (actions : List Action)

mutual

/-- The answer to an action. -/
inductive Reply where
  | nothing
  | token (t : Token)
  | flag (b : Bool)
  | info (label : String) (source : Text)
  | fault (f : LexFault)
  /-- What happened under a rule set: the lexer on entering it, the steps taken, and
  the fault that cut them short. -/
  | block (entered : Lexer) (steps : List Step) (fault : Option LexFault)

/-- An answer and the lexer after it. -/
inductive Step where
  | mk (reply : Reply) (after : Lexer)

end

structure Session where
  label : String
  lexer : Lexer
  /-- The places remembered, latest first. -/
  marks : List (String × Lexer.Mark)

namespace Session

/-- A session at the start of a source. -/
def ofText (label : String) (source : Text) : Session := ⟨label, .ofText source, []⟩

/-- Answers with the token that a run of the lexer yields. -/
def answer (act : LexM (Option Token)) (s : Session) : Except Breach (Reply × Session) :=
  match act s.lexer with
  | .ok none l => .ok (.nothing, { s with lexer := l })
  | .ok (some t) l => .ok (.token t, { s with lexer := l })
  | .error (.fault f) l => .ok (.fault f, { s with lexer := l })
  | .error (.breach b) _ => .error b

mutual

/-- Answers one action. -/
def perform : Action → Session → Except Breach (Reply × Session)
  | .peek kinds, s => answer (LexM.peek kinds) s
  | .next kinds, s => answer (LexM.next kinds) s
  | .peekAdjacent kinds, s => answer (LexM.peekAdjacent kinds) s
  | .peekAny, s => answer (some <$> LexM.peekAny) s
  | .back, s => answer (LexM.back *> pure none) s
  | .accept pattern kind none, s => answer (LexM.accept pattern kind) s
  | .accept pattern kind (some allowBlank), s => answer (LexM.acceptWith pattern kind allowBlank) s
  | .mark slot, s => .ok (.nothing, { s with marks := (slot, s.lexer.mark) :: s.marks })
  | .reset slot, s =>
    match s.marks.lookup slot with
    | none => .ok (.nothing, s)
    | some m => .ok (.nothing, { s with lexer := s.lexer.reset m })
  | .sameMark slot, s => .ok (.flag (s.marks.lookup slot == some s.lexer.mark), s)
  | .info, s => .ok (.info s.label s.lexer.source, s)
  | .useRules rules allowBlank actions, s => do
    let entered := s.lexer.enter rules allowBlank
    let (steps, fault, s) ← performAll actions { s with lexer := entered }
    match s.lexer.leave? with
    | none => .error .noRulesToLeave
    | some l => return (.block entered steps fault, { s with lexer := l })

/-- Answers actions up to the first that faults. -/
def performAll : List Action → Session → Except Breach (List Step × Option LexFault × Session)
  | [], s => return ([], none, s)
  | a :: rest, s => do
    let (reply, s) ← perform a s
    match reply with
    | .fault f => return ([.mk reply s.lexer], some f, s)
    | _ =>
      let (steps, fault, s') ← performAll rest s
      return (.mk reply s.lexer :: steps, fault, s')

end

/-- Answers actions until a breach. Faults do not end a session. -/
def run : List Action → Session → List Step × Option Breach
  | [], _ => ([], none)
  | a :: rest, s =>
    match perform a s with
    | .error b => ([], some b)
    | .ok (reply, s) =>
      let (steps, breach) := run rest s
      (.mk reply s.lexer :: steps, breach)

end Session

end ShellGrammar
