import ShellGrammar.Proofs.Drive

/-! Lookahead cannot be observed.

A lexer answers each move with a token, with nothing or with a fault (`Move.answer`), and on
a current lexer the answer to every move but a step back is determined by the modes in force
and by the place where the consumed tokens end (`Move.answer_eq`). The move consumes what it
answers, if it is one that takes tokens (`Move.consumed_eq`). So two current lexers that have
consumed the same tokens under the same modes cannot be told apart, whatever either of them
holds ahead (`Alike.answer`, `Alike.after`). Looks, and attempts to take a shape that is not
there, lead from a lexer to one that is alike (`Alike.idle`). Hence a run may be interrupted
by any number of them, and is answered as if it had not been (`heard_eq_answers`). -/
namespace ShellGrammar

variable {source : Text} {l l' : Lexer}

/-! ### Answers -/

/-- What a lexer says to a move. -/
abbrev Lexer.Answer := Except (Halt LexFault) (Option Token)

/-- The computation a move asks for. Entering and leaving a rule set, and stepping back, have
nothing to tell. -/
def Move.ask : Move → LexM (Option Token)
  | peek kinds => LexM.peek kinds
  | next kinds => LexM.next kinds
  | peekAny => some <$> LexM.peekAny
  | peekAdjacent kinds => LexM.peekAdjacent kinds
  | back => LexM.back *> pure none
  | accept pattern kind => LexM.accept pattern kind
  | acceptWith pattern kind allowBlank => LexM.acceptWith pattern kind allowBlank
  | enter rules allowBlank => modify (Lexer.enter rules allowBlank) *> pure none
  | leave => LexM.leave *> pure none

namespace Lexer

/-- What a computation says, whatever lexer it leaves behind. -/
def answer {α : Type} (act : LexM α) (l : Lexer) : Except (Halt LexFault) α :=
  match act l with
  | .ok a _ => .ok a
  | .error e _ => .error e

theorem after_map {α β : Type} (f : α → β) (act : LexM α) : after (f <$> act) = after act := by
  funext l
  simp only [after, Functor.map, EStateM.map]
  cases act l <;> rfl

theorem after_then {α β : Type} (act : LexM α) (b : β) : after (act *> pure b) = after act := by
  funext l
  simp only [after, SeqRight.seqRight, EStateM.seqRight]
  cases act l <;> rfl

end Lexer

/-- The lexer after a move is the one its computation leaves behind. -/
theorem Move.after_ask (m : Move) : Lexer.after m.ask = m.after := by
  cases m with
  | peekAny => exact Lexer.after_map some LexM.peekAny
  | back => exact Lexer.after_then LexM.back none
  | leave => exact Lexer.after_then LexM.leave none
  | _ => rfl

def Move.answer (m : Move) (l : Lexer) : Lexer.Answer := Lexer.answer m.ask l

/-- The answers to a list of moves. -/
def Lexer.answers (l : Lexer) : List Move → List Answer
  | [] => []
  | m :: rest => m.answer l :: answers (m.after l) rest

/-! ### What an answer depends on -/

/-- What the rules in force make of the text where the consumed tokens end. -/
def Lexer.upcoming (l : Lexer) : Except (Halt LexFault) Token :=
  (l.mode.rules.tokenAt l.here).mapError .fault

theorem Lexer.answer_peekAny (h : l.Current source) : answer LexM.peekAny l = l.upcoming := by
  unfold answer upcoming
  obtain ⟨t, l', hok, _, ht⟩ | ⟨f, herr, hf⟩ := LexM.peekAny_here h
  · rw [hok, ht]
    rfl
  · rw [herr, hf]
    rfl

/-- What is told to a move other than a step back: the readers judge the upcoming token, a shape is
matched where the consumed tokens end, and a rule set can be left if one was entered. -/
def Move.told (m : Move) (l : Lexer) : Lexer.Answer :=
  match m with
  | peek kinds | next kinds =>
    l.upcoming.map fun t => if t.isVisible kinds l.mode.allowBlank then some t else none
  | peekAny => l.upcoming.map some
  | peekAdjacent kinds => l.upcoming.map fun t => if t.isVisible kinds false then some t else none
  | accept pattern kind => .ok (l.mode.rules.takeAt pattern kind l.mode.allowBlank l.here)
  | acceptWith pattern kind allowBlank => .ok (l.mode.rules.takeAt pattern kind allowBlank l.here)
  | leave => if l.modes = [] then .error (.breach .noRulesToLeave) else .ok none
  | back | enter _ _ => .ok none

section Says
variable (h : l.Current source)
include h

theorem Lexer.answer_peek (kinds : List Kind) :
    answer (LexM.peek kinds) l = (Move.peek kinds).told l := by
  simp only [Move.told, ← answer_peekAny h, answer, LexM.peek_eq]
  obtain ⟨t, l', hok, hl', _⟩ | ⟨f, herr, _⟩ := LexM.peekAny_here h
  · simp only [hok, hl'.mode]
    rfl
  · simp only [herr]
    rfl

theorem Lexer.answer_next (kinds : List Kind) :
    answer (LexM.next kinds) l = (Move.next kinds).told l := by
  simp only [Move.told, ← answer_peekAny h, answer, LexM.next_eq]
  obtain ⟨t, l', hok, hl', _⟩ | ⟨f, herr, _⟩ := LexM.peekAny_here h
  · simp only [hok, hl'.mode]
    by_cases hv : t.isVisible kinds l.mode.allowBlank = true
    · simp only [hv, if_true, Except.map]
    · simp only [hv, Except.map]
      rfl
  · simp only [herr]
    rfl

theorem Lexer.answer_peekAdjacent (kinds : List Kind) :
    answer (LexM.peekAdjacent kinds) l = (Move.peekAdjacent kinds).told l := by
  simp only [Move.told, ← answer_peekAny h, answer, LexM.peekAdjacent_eq]
  cases LexM.peekAny l <;> rfl

theorem Lexer.answer_acceptWith (pattern : Pattern) (kind : Kind) (allowBlank : Bool) :
    answer (LexM.acceptWith pattern kind allowBlank) l =
      (Move.acceptWith pattern kind allowBlank).told l := by
  unfold answer
  obtain ⟨hnone, ht⟩ | ⟨t, l', hsome, ht, _⟩ :=
    LexM.acceptWith_cases h.toTiled pattern kind allowBlank
  · rw [hnone]
    exact congrArg Except.ok ht.symm
  · rw [hsome]
    exact congrArg Except.ok ht.symm

/-- The answer to a move depends on the modes in force and on where the consumed tokens end,
and on nothing else. -/
theorem Move.answer_eq (m : Move) (hm : m ≠ .back) : m.answer l = m.told l := by
  cases m with
  | peek kinds => exact Lexer.answer_peek h kinds
  | next kinds => exact Lexer.answer_next h kinds
  | peekAny =>
    rw [told, ← Lexer.answer_peekAny h]
    simp only [answer, ask, Lexer.answer, Functor.map, EStateM.map]
    cases LexM.peekAny l <;> rfl
  | peekAdjacent kinds => exact Lexer.answer_peekAdjacent h kinds
  | back => exact absurd rfl hm
  | accept pattern kind => exact Lexer.answer_acceptWith h pattern kind l.mode.allowBlank
  | acceptWith pattern kind allowBlank =>
    exact Lexer.answer_acceptWith h pattern kind allowBlank
  | enter rules allowBlank => rfl
  | leave =>
    simp only [answer, ask, told, Lexer.answer, SeqRight.seqRight, EStateM.seqRight, LexM.leave,
      Lexer.leave?]
    cases l.modes <;> rfl

end Says

/-! ### What a move changes -/

/-- The token of an answer, if there is one. -/
def Lexer.Answer.tokens : Lexer.Answer → List Token
  | .ok o => o.toList
  | .error _ => []

/-- The tokens that a move takes off the text, given what it was answered. -/
def Move.taken : Move → Lexer.Answer → List Token
  | next _, a | accept _ _, a | acceptWith _ _ _, a => a.tokens
  | _, _ => []

/-- The modes in force after a move. -/
def Move.shift : Move → List Mode → List Mode
  | enter rules allowBlank, modes => ⟨rules, allowBlank⟩ :: modes
  | leave, modes => modes.tail
  | _, modes => modes

theorem Lexer.modes_after {α : Type} {act : LexM α} (h : LexM.KeepsModes act) (l : Lexer) :
    (after act l).modes = l.modes := by
  unfold after
  obtain ⟨a, l', hok, hmodes⟩ | ⟨e, l', herr, hmodes⟩ := h l
  · rw [hok]
    exact hmodes
  · rw [herr]
    exact hmodes

theorem Move.modes_after (m : Move) (l : Lexer) : (m.after l).modes = m.shift l.modes := by
  cases m with
  | peek kinds => exact Lexer.modes_after (LexM.keepsModes_peek kinds) l
  | next kinds => exact Lexer.modes_after (LexM.keepsModes_next kinds) l
  | peekAny => exact Lexer.modes_after LexM.modes_peekAny l
  | peekAdjacent kinds => exact Lexer.modes_after (LexM.keepsModes_peekAdjacent kinds) l
  | back => exact Lexer.modes_after LexM.keepsModes_back l
  | accept pattern kind => exact Lexer.modes_after (LexM.keepsModes_accept pattern kind) l
  | acceptWith pattern kind allowBlank =>
    exact Lexer.modes_after (LexM.keepsModes_acceptWith pattern kind allowBlank) l
  | enter rules allowBlank => exact Lexer.modes_enter l rules allowBlank
  | leave =>
    simp only [after, Lexer.after, LexM.leave]
    cases hm : l.modes with
    | nil => simp only [Lexer.leave?, hm, shift, List.tail_nil]
    | cons mode modes =>
      obtain ⟨l', hl', hmodes, _⟩ := Lexer.leave?_of_modes hm
      rw [hl']
      exact hmodes

theorem Lexer.consumed_after_next (h : l.Current source) (kinds : List Kind) :
    (after (LexM.next kinds) l).consumed =
      l.consumed ++ (Move.next kinds).taken (answer (LexM.next kinds) l) := by
  simp only [after, answer, LexM.next_eq]
  obtain ⟨t, l', hok, hl'⟩ | ⟨f, herr, _⟩ := LexM.peekAny_cases h.toTiled
  · obtain ⟨rest, ha⟩ := hl'.ahead
    simp only [hok]
    by_cases hv : t.isVisible kinds l'.mode.allowBlank = true
    · simp only [hv, if_true]
      rw [consumed_consume ha, hl'.consumed]
      rfl
    · simp only [hv]
      exact hl'.consumed.trans (List.append_nil _).symm
  · rw [herr]
    exact (List.append_nil _).symm

theorem Lexer.consumed_after_acceptWith (h : l.Current source) (pattern : Pattern) (kind : Kind)
    (allowBlank : Bool) :
    (after (LexM.acceptWith pattern kind allowBlank) l).consumed = l.consumed ++
      (Move.acceptWith pattern kind allowBlank).taken
        (answer (LexM.acceptWith pattern kind allowBlank) l) := by
  unfold after answer
  obtain ⟨hnone, _⟩ | ⟨t, l', hsome, _, _, hconsumed, _⟩ :=
    LexM.acceptWith_cases h.toTiled pattern kind allowBlank
  · rw [hnone]
    exact (Lexer.consumed_discard l).trans (List.append_nil _).symm
  · rw [hsome]
    exact hconsumed

/-- A move consumes the token it was answered, if it is one that takes tokens. -/
theorem Move.consumed_eq (m : Move) (h : l.Current source) (hm : m ≠ .back) :
    (m.after l).consumed = l.consumed ++ m.taken (m.answer l) := by
  cases m with
  | peek kinds =>
    rw [after, after_peek]
    exact (after_peekAny h.toTiled).2.trans (List.append_nil _).symm
  | next kinds => exact Lexer.consumed_after_next h kinds
  | peekAny => exact (after_peekAny h.toTiled).2.trans (List.append_nil _).symm
  | peekAdjacent kinds =>
    rw [after, after_peekAdjacent]
    exact (after_peekAny h.toTiled).2.trans (List.append_nil _).symm
  | back => exact absurd rfl hm
  | accept pattern kind => exact Lexer.consumed_after_acceptWith h pattern kind l.mode.allowBlank
  | acceptWith pattern kind allowBlank =>
    exact Lexer.consumed_after_acceptWith h pattern kind allowBlank
  | enter rules allowBlank =>
    exact (Lexer.consumed_enter l rules allowBlank).trans (List.append_nil _).symm
  | leave => exact (after_leave h.toTiled).2.trans (List.append_nil _).symm

/-! ### Lexers that cannot be told apart -/

/-- Two lexers that have consumed the same and read on under the same modes. What they hold
ahead may differ. -/
structure Alike (source : Text) (l l' : Lexer) : Prop where
  left : l.Current source
  right : l'.Current source
  consumed : l'.consumed = l.consumed
  modes : l'.modes = l.modes

namespace Alike

theorem refl (h : l.Current source) : Alike source l l := ⟨h, h, rfl, rfl⟩

theorem here (h : Alike source l l') : l'.here = l.here :=
  h.left.toTiled.here_eq h.right.toTiled h.consumed

theorem mode (h : Alike source l l') : l'.mode = l.mode := by
  rw [Lexer.mode, h.modes]
  rfl

theorem answer (h : Alike source l l') (m : Move) (hm : m ≠ .back) : m.answer l' = m.answer l := by
  have hupcoming : l'.upcoming = l.upcoming := by
    rw [Lexer.upcoming, h.mode, h.here]
    rfl
  rw [m.answer_eq h.right hm, m.answer_eq h.left hm]
  cases m <;> simp only [Move.told, hupcoming, h.mode, h.here, h.modes]

/-- A move keeps lexers alike. -/
theorem after (h : Alike source l l') (m : Move) (hm : m ≠ .back) :
    Alike source (m.after l) (m.after l') where
  left := m.current_after h.left hm
  right := m.current_after h.right hm
  consumed := by
    rw [m.consumed_eq h.right hm, m.consumed_eq h.left hm, h.consumed, h.answer m hm]
  modes := by rw [m.modes_after, m.modes_after, h.modes]

end Alike

/-! ### Moves in between -/

/-- A move that takes nothing: a look, whatever comes of it, or an attempt to take a shape
that is not there. -/
def Move.Idle (m : Move) (l : Lexer) : Prop :=
  match m with
  | peek _ | peekAny | peekAdjacent _ => True
  | accept _ _ | acceptWith _ _ _ => m.answer l = .ok none
  | next _ | back | enter _ _ | leave => False

/-- An idle move made on one of two lexers leaves them alike. -/
theorem Alike.idle (h : Alike source l l') {m : Move} (hm : m.Idle l') :
    Alike source l (m.after l') := by
  have hback : m ≠ .back := by
    rintro rfl
    exact hm
  have htaken : m.taken (m.answer l') = [] := by
    cases m with
    | accept pattern kind => rw [show _ = _ from hm]; rfl
    | acceptWith pattern kind allowBlank => rw [show _ = _ from hm]; rfl
    | peek _ | peekAny | peekAdjacent _ => rfl
    | next _ | back | enter _ _ | leave => exact hm.elim
  have hshift : m.shift l'.modes = l'.modes := by
    cases m with
    | enter _ _ | leave => exact hm.elim
    | _ => rfl
  refine ⟨h.left, m.current_after h.right hback, ?_, ?_⟩
  · rw [m.consumed_eq h.right hback, htaken, List.append_nil, h.consumed]
  · rw [m.modes_after, hshift, h.modes]

/-- A move of a run, or one that was put in between. -/
inductive Turn where
  | own (m : Move)
  | extra (m : Move)

/-- The run without what was put in between. -/
def Turn.bare : List Turn → List Move
  | [] => []
  | own m :: rest => m :: bare rest
  | extra _ :: rest => bare rest

namespace Lexer

/-- What the run itself is answered, with moves made in between. -/
def heard (l : Lexer) : List Turn → List Answer
  | [] => []
  | .own m :: rest => m.answer l :: heard (m.after l) rest
  | .extra m :: rest => heard (m.after l) rest

/-- Whatever was put in between takes nothing. -/
def Idles (l : Lexer) : List Turn → Prop
  | [] => True
  | .own m :: rest => Idles (m.after l) rest
  | .extra m :: rest => m.Idle l ∧ Idles (m.after l) rest

end Lexer

/-- Of two lexers that are alike one is asked for a run and the other for the same run with
idle moves in between: the run is answered alike. -/
theorem Alike.heard (h : Alike source l l') (turns : List Turn)
    (hback : .back ∉ Turn.bare turns) (hidles : l'.Idles turns) :
    l'.heard turns = l.answers (Turn.bare turns) := by
  induction turns generalizing l l' with
  | nil => rfl
  | cons turn rest ih =>
    cases turn with
    | own m =>
      have hm : m ≠ .back := fun he => hback (he ▸ List.mem_cons_self)
      have hrest : .back ∉ Turn.bare rest := fun hr => hback (List.mem_cons_of_mem m hr)
      rw [Lexer.heard, Turn.bare, Lexer.answers, h.answer m hm, ih (h.after m hm) hrest hidles]
    | extra m => exact ih (h.idle hidles.1) hback hidles.2

/-- **Lookahead cannot be observed.** However often a run of the lexer is interrupted by
looks, and by attempts to take what is not there, inside and outside of blocks under a rule
set and also where the text is at fault, it is answered with the tokens and the faults that
it is answered without them. -/
theorem heard_eq_answers (source : Text) (turns : List Turn) (hback : .back ∉ Turn.bare turns)
    (hidles : (Lexer.ofText source).Idles turns) :
    (Lexer.ofText source).heard turns = (Lexer.ofText source).answers (Turn.bare turns) :=
  (Alike.refl (Lexer.current_ofText source)).heard turns hback hidles

/-- Looks before, in and after a block under the rules of arithmetic, where `@` starts no
token, and an attempt to take a brace in front of it. -/
theorem heard_eq_answers_block :
    let turns : List Turn :=
      [.extra (.peek []), .own (.enter .arith true), .extra .peekAny, .own (.next []),
        .extra (.peekAdjacent [.eos]), .extra (.accept (.lit ['}']) .rbrace), .own (.next []),
        .own .leave, .extra (.peek [.rbrace]), .own (.next [])]
    (Lexer.ofText "a @".toList).heard turns =
      (Lexer.ofText "a @".toList).answers
        [.enter .arith true, .next [], .next [], .leave, .next []] :=
  heard_eq_answers "a @".toList _ (by simp [Turn.bare]) ⟨trivial, trivial, trivial, rfl, trivial, trivial⟩

end ShellGrammar
