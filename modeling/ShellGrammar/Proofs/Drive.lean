import ShellGrammar.Proofs.Ambient
import ShellGrammar.Proofs.Grammar.Cursor
import ShellGrammar.Proofs.Lexer.Moves

/-! Nothing stale is read.

The buffer of the lexer is shared by all rule sets, and the same characters make different
tokens under each. A `Drive` takes a production apart into the moves it makes on its lexer:
one after another, each chosen in the light of what was found before, and some of them made
on every way out. So the moves that a run makes are a list (`Drive.moves`), making them one
by one leads to the lexer the run ends with (`Drive.replays`), and what is said after every
prefix of the list is said of every state on the way.

Every move but a step back leaves a lexer `Current` that was so: what is ahead of it was read
under the rules in force. A step back returns a token to the ones ahead. It is part of a drive
only where one token was taken since a state under the same rules (`OneTaken`), so that the
token is read again for what it was. Hence no state of a drive has a stale token ahead
(`Drive.stays_current`), and none is ever taken (`parse_reads_fresh`). -/
namespace ShellGrammar
open Grammar ParseM

variable {source : Text}

/-! ### Moves -/

namespace Lexer

theorem run_append (l : Lexer) (front rest : List Move) :
    l.run (front ++ rest) = (l.run front).run rest := by
  induction front generalizing l with
  | nil => rfl
  | cons m front ih => exact ih (m.after l)

/-- A property holds before the first move, after the last and in between. -/
def Stays (C : Lexer → Prop) (l : Lexer) : List Move → Prop
  | [] => C l
  | m :: rest => C l ∧ Stays C (m.after l) rest

theorem stays_append {C : Lexer → Prop} {l : Lexer} {front rest : List Move} :
    Stays C l (front ++ rest) ↔ Stays C l front ∧ Stays C (l.run front) rest := by
  induction front generalizing l with
  | nil =>
    refine ⟨fun h => ⟨?_, h⟩, fun h => h.2⟩
    cases rest with
    | nil => exact h
    | cons m rest => exact h.1
  | cons m front ih =>
    show C l ∧ Stays C (m.after l) (front ++ rest) ↔
      (C l ∧ Stays C (m.after l) front) ∧ Stays C ((m.after l).run front) rest
    rw [ih, and_assoc]

theorem Stays.last {C : Lexer → Prop} {l : Lexer} {moves : List Move} (h : Stays C l moves) :
    C (l.run moves) := by
  induction moves generalizing l with
  | nil => exact h
  | cons m rest ih => exact ih h.2

/-- What stays true through a list of moves is true after every prefix of it. -/
theorem Stays.after {C : Lexer → Prop} {l : Lexer} {front rest : List Move}
    (h : Stays C l (front ++ rest)) : C (l.run front) :=
  (stays_append.mp h).1.last

end Lexer

section OneMove
variable {l : Lexer}

theorem current_after_peekAny (h : l.Current source) :
    (Lexer.after LexM.peekAny l).Current source := by
  unfold Lexer.after
  obtain ⟨t, l', hok, hl'⟩ | ⟨f, herr, _⟩ := LexM.peekAny_cases h.toTiled
  · rw [hok]
    exact hl'.fresh h
  · rw [herr]
    exact h

theorem current_after_next (h : l.Current source) (kinds : List Kind) :
    (Lexer.after (LexM.next kinds) l).Current source := by
  simp only [Lexer.after, LexM.next_eq]
  obtain ⟨t, l', hok, hl'⟩ | ⟨f, herr, _⟩ := LexM.peekAny_cases h.toTiled
  · obtain ⟨rest, ha⟩ := hl'.ahead
    rw [hok]
    by_cases hv : t.isVisible kinds l'.mode.allowBlank = true
    · simp only [hv, if_true]
      exact (hl'.fresh h).consume ha
    · simp only [hv]
      exact hl'.fresh h
  · rw [herr]
    exact h

theorem current_after_acceptWith (h : l.Current source) (pattern : Pattern) (kind : Kind)
    (allowBlank : Bool) :
    (Lexer.after (LexM.acceptWith pattern kind allowBlank) l).Current source := by
  unfold Lexer.after
  obtain ⟨hnone, _⟩ | ⟨t, l', hsome, _, htiled, _, _, ha⟩ :=
    LexM.acceptWith_cases h.toTiled pattern kind allowBlank
  · rw [hnone]
    exact h.toTiled.discard.current (Lexer.ahead_discard l)
  · rw [hsome]
    exact htiled.current ha

theorem current_after_leave (h : l.Current source) :
    (Lexer.after LexM.leave l).Current source := by
  unfold Lexer.after LexM.leave
  cases hl : l.leave? with
  | none => exact h
  | some l' =>
    obtain ⟨m, modes, log, _, rfl⟩ := Lexer.leave?_cases hl
    exact (h.toTiled.discard.withModes _ _).current (Lexer.ahead_discard l)

/-- Whatever rules it enters or leaves, and whatever it looks for, a move other than a step
back leaves nothing ahead that was read under other rules. -/
theorem Move.current_after (m : Move) (h : l.Current source) (hm : m ≠ .back) :
    (m.after l).Current source := by
  cases m with
  | peek kinds =>
    rw [Move.after, after_peek]
    exact current_after_peekAny h
  | next kinds => exact current_after_next h kinds
  | peekAny => exact current_after_peekAny h
  | peekAdjacent kinds =>
    rw [Move.after, after_peekAdjacent]
    exact current_after_peekAny h
  | back => exact absurd rfl hm
  | accept pattern kind => exact current_after_acceptWith h pattern kind l.mode.allowBlank
  | acceptWith pattern kind allowBlank => exact current_after_acceptWith h pattern kind allowBlank
  | enter rules allowBlank => exact h.enter rules allowBlank
  | leave => exact current_after_leave h

end OneMove

/-! ### Drives -/

/-- One token was taken since a state in the same setting. -/
def OneTaken (source : Text) (s : ParseState) : Prop :=
  ∃ s₀ t, s₀.tokenHere = .ok t ∧ Reaches source s₀ [t] s

/-- How a production drives its lexer from states that satisfy `P`. -/
inductive Drive (source : Text) : {α : Type} → (ParseState → Prop) → ParseM α → Type 1 where
  /-- The lexer is left alone. -/
  | still {α : Type} {P : ParseState → Prop} {act : ParseM α}
      (h : ∀ s, (finalState (act s)).lexer = s.lexer) : Drive source P act
  | move {α : Type} {P : ParseState → Prop} {act : LexM α} (m : Move)
      (hact : Lexer.after act = m.after)
      (h : ∀ s, P s → s.lexer.Current source → (m.after s.lexer).Current source) :
      Drive source P (lexing act)
  /-- One thing after another, where `R` is what is known after the first. -/
  | andThen {α β : Type} {P : ParseState → Prop} {R : α → ParseState → Prop} {act : ParseM α}
      {k : α → ParseM β} (first : Drive source P act)
      (h : ∀ s a s', P s → s.lexer.Current source → act s = .ok a s' → R a s')
      (rest : ∀ a, Drive source (R a) (k a)) : Drive source P (act >>= k)
  | ensuring {α : Type} {P : ParseState → Prop} {act : ParseM α} {leave : ParseM Unit}
      (body : Drive source P act) (out : Drive source (fun _ => True) leave) :
      Drive source P (ShellGrammar.ensuring act leave)

namespace Drive
variable {α β : Type} {P : ParseState → Prop} {act : ParseM α}

/-- The moves that a run from a state makes. -/
def moves : {α : Type} → {P : ParseState → Prop} → {act : ParseM α} → Drive source P act →
    ParseState → List Move
  | _, _, _, still _, _ => []
  | _, _, _, move m _ _, _ => [m]
  | _, _, _, @andThen _ _ _ _ _ act _ first _ rest, s =>
    first.moves s ++
      match act s with
      | .ok a s' => (rest a).moves s'
      | .error _ _ => []
  | _, _, _, @ensuring _ _ _ act _ body out, s => body.moves s ++ out.moves (finalState (act s))

/-- The moves of a run lead to the lexer it ends with. -/
theorem replays (d : Drive source P act) (s : ParseState) :
    (finalState (act s)).lexer = s.lexer.run (d.moves s) := by
  induction d generalizing s with
  | still h => exact h s
  | @move _ _ act m hact _ =>
    rw [lexing_eq, moves]
    show _ = m.after s.lexer
    rw [← hact, Lexer.after]
    cases act s.lexer <;> rfl
  | @andThen _ _ _ _ act k first _ rest ihfirst ihrest =>
    have hfirst := ihfirst s
    rw [moves, Lexer.run_append, ← hfirst]
    cases hact : act s with
    | ok a s' =>
      rw [bind_of_ok hact]
      exact ihrest a s'
    | error e s' =>
      rw [bind_of_error hact]
      rfl
  | @ensuring _ _ act leave body out ihbody ihout =>
    have hout := ihout (finalState (act s))
    rw [moves, Lexer.run_append, ← ihbody s, ← hout]
    cases hact : act s with
    | ok a s' =>
      simp only [ShellGrammar.ensuring, hact, finalState]
      cases leave s' <;> rfl
    | error e s' =>
      simp only [ShellGrammar.ensuring, hact, finalState]
      cases leave s' <;> rfl

/-- On the way through a drive nothing ahead was read under other rules than those in force. -/
theorem stays_current (d : Drive source P act) {s : ParseState} (hP : P s)
    (hs : s.lexer.Current source) : Lexer.Stays (·.Current source) s.lexer (d.moves s) := by
  induction d generalizing s with
  | still h => exact hs
  | move m hact h => exact ⟨hs, h s hP hs⟩
  | @andThen _ _ _ _ act k first hR rest ihfirst ihrest =>
    have hfirst := ihfirst hP hs
    rw [moves]
    refine Lexer.stays_append.mpr ⟨hfirst, ?_⟩
    have hend := hfirst.last
    rw [← replays] at hend ⊢
    cases hact : act s with
    | ok a s' =>
      rw [hact] at hend
      exact ihrest a (hR s a s' hP hs hact) hend
    | error e s' =>
      rw [hact] at hend
      exact hend
  | ensuring body out ihbody ihout =>
    have hbody := ihbody hP hs
    rw [moves]
    refine Lexer.stays_append.mpr ⟨hbody, ?_⟩
    have hend := hbody.last
    rw [← replays] at hend ⊢
    exact ihout trivial hend

/-! ### Parts of drives -/

/-- A move that may be made in any state. -/
def free {act : LexM α} (m : Move) (hact : Lexer.after act = m.after) (hm : m ≠ .back) :
    Drive source P (lexing act) :=
  .move m hact fun _ _ hs => m.current_after hs hm

/-- One thing after another, where nothing has to be known after the first. -/
def bind {k : α → ParseM β} (first : Drive source P act)
    (rest : ∀ a, Drive source (fun _ => True) (k a)) : Drive source P (act >>= k) :=
  .andThen first (fun _ _ _ _ _ _ => trivial) rest

def pure (a : α) : Drive source P (Pure.pure a) := .still fun _ => rfl

def halt (e : Halt Fault) : Drive source P (throw e : ParseM α) := .still fun _ => rfl

def breached (b : Breach) : Drive source P (ShellGrammar.breached b : ParseM α) := halt _

/-- A look at the setting. -/
def setting : Drive source P (get : ParseM ParseState) := .still fun _ => rfl

def peekAny : Drive source P ParseM.peekAny := free .peekAny rfl (nomatch ·)

def peek (kinds : List Kind) : Drive source P (ParseM.peek kinds) :=
  free (.peek kinds) rfl (nomatch ·)

def next (kinds : List Kind) : Drive source P (ParseM.next kinds) :=
  free (.next kinds) rfl (nomatch ·)

def peekAdjacent (kinds : List Kind) : Drive source P (ParseM.peekAdjacent kinds) :=
  free (.peekAdjacent kinds) rfl (nomatch ·)

def look (adjacent : Bool) (kinds : List Kind) : Drive source P (ParseM.look adjacent kinds) :=
  match adjacent with
  | true => peekAdjacent kinds
  | false => peek kinds

def accept (pattern : Pattern) (kind : Kind) : Drive source P (ParseM.accept pattern kind) :=
  free (.accept pattern kind) rfl (nomatch ·)

def acceptPastBlank (pattern : Pattern) (kind : Kind) :
    Drive source P (ParseM.acceptPastBlank pattern kind) :=
  free (.acceptWith pattern kind true) rfl (nomatch ·)

/-- A step back over the one token that was taken. -/
def back (h : ∀ s, P s → OneTaken source s) : Drive source P ParseM.back := by
  refine .move .back rfl fun s hP _ => ?_
  obtain ⟨s₀, t, ht, hreaches⟩ := h s hP
  obtain ⟨s', hback, hs'⟩ := back_of_reaches ht hreaches
  rw [ParseM.back, lexing_eq] at hback
  cases hrun : LexM.back s.lexer with
  | ok u l =>
    rw [hrun] at hback
    cases hback
    show (Lexer.after LexM.back s.lexer).Current source
    rw [Lexer.after, hrun]
    exact hs'.current
  | error e l =>
    rw [hrun] at hback
    cases hback

def fail (expected : Expected) : Drive source P (ParseM.fail expected : ParseM α) :=
  peekAny.bind fun _ => setting.bind fun _ => halt _

def pieceStartHere : Drive source P Grammar.pieceStartHere := setting.bind fun _ => pure _

/-- Either way. -/
def branch {c : Prop} [Decidable c] {yes no : ParseM α} (first : Drive source P yes)
    (second : Drive source P no) : Drive source P (if c then yes else no) :=
  if h : c then by rw [if_pos h]; exact first else by rw [if_neg h]; exact second

/-- A token that has to be there. -/
def orFail {expected : Expected} {c : Prop} [Decidable c] {act : ParseM β}
    (d : ∀ {P}, Drive source P act) :
    Drive source P (if c then ParseM.fail expected >>= fun _ : PUnit => act else act) :=
  branch ((fail expected).bind fun _ => d) d

def tooDeep (limit : Nat) : Drive source P (ParseM.tooDeep limit) := peekAny.bind fun _ => halt _

def descend (limit : Nat) : Drive source P (ParseM.descend limit) :=
  setting.bind fun _ => branch (tooDeep limit) (.still fun _ => rfl)

def ascend : Drive source P ParseM.ascend := by
  refine .still fun s => ?_
  unfold ParseM.ascend
  split <;> rfl

def nested {d : ParseM Unit} (opens : Drive source P d) (body : Drive source (fun _ => True) act) :
    Drive source P (ParseM.nested d act) :=
  opens.bind fun _ => .ensuring body ascend

def folding (body : Drive source (fun _ => True) act) : Drive source P (ParseM.folding act) :=
  setting.bind fun _ => .ensuring body (.still fun _ => rfl)

def withRules (rules : Rules) (allowBlank : Bool) (body : Drive source (fun _ => True) act) :
    Drive source P (ParseM.withRules rules allowBlank act) :=
  bind (free (.enter rules allowBlank) rfl (nomatch ·)) fun _ =>
    .ensuring body (free .leave rfl (nomatch ·))

def inList (closer : Closer) (body : Drive source (fun _ => True) act) :
    Drive source P (ParseM.inList closer act) :=
  setting.bind fun _ => bind (.still fun _ => rfl) fun _ =>
    .ensuring body (.still fun _ => rfl)

def skipNewlines : (bound : Nat) → {P : ParseState → Prop} →
    Drive source P (ParseM.skipNewlines bound)
  | 0, _ => breached .outOfSteps
  | bound + 1, _ => (next _).bind fun
    | none => pure ()
    | some _ => skipNewlines bound

def gather {step : ParseM (Option α)} (d : ∀ {P}, Drive source P step) :
    (bound : Nat) → {P : ParseState → Prop} → Drive source P (ShellGrammar.gather step bound)
  | 0, _ => breached .outOfSteps
  | bound + 1, _ => d.bind fun
    | none => pure []
    | some _ => (gather d bound).bind fun _ => pure _

def alternative {first : ParseM (Option α)} {others : List (ParseM (Option α))}
    (d : Drive source P first) (dothers : Drive source (fun _ => True) (ParseM.firstOf others)) :
    Drive source P (ParseM.firstOf (first :: others)) :=
  d.bind fun
    | none => dothers
    | some a => pure (some a)

def chainRest {opens : ParseM Unit} {operator : ParseM (Option β)} {operand : β → ParseM Node}
    {join : β → Node → Node → Node} (dopens : ∀ {P}, Drive source P opens)
    (doperator : ∀ {P}, Drive source P operator) (doperand : ∀ op {P}, Drive source P (operand op)) :
    (bound : Nat) → (left : Node) → {P : ParseState → Prop} →
      Drive source P (ParseM.chainRest opens operator operand join bound left)
  | 0, _, _ => breached .outOfSteps
  | bound + 1, _, _ => doperator.bind fun
    | none => pure _
    | some op => dopens.bind fun _ => (doperand op).bind fun _ =>
      chainRest dopens doperator doperand bound _

def chain {g : Grammar} {first : ParseM Node} {operator : ParseM (Option β)}
    {operand : β → ParseM Node} {join : β → Node → Node → Node}
    (dopens : ∀ {P}, Drive source P g.descend) (dfirst : ∀ {P}, Drive source P first)
    (doperator : ∀ {P}, Drive source P operator)
    (doperand : ∀ op {P}, Drive source P (operand op)) :
    Drive source P (ParseM.chain g first operator operand join) :=
  folding (dfirst.bind fun left => chainRest dopens doperator doperand g.steps left)

end Drive

/-! ### Where a step back is safe -/

theorem OneTaken.looked {s s' : ParseState} (h : OneTaken source s)
    (hs' : Reaches source s [] s') : OneTaken source s' := by
  obtain ⟨s₀, t, ht, hreaches⟩ := h
  exact ⟨s₀, t, ht, hreaches.trans hs'⟩

theorem oneTaken_of_next {s s' : ParseState} {kinds : List Kind} {t : Token}
    (hs : s.lexer.Current source) (h : next kinds s = .ok (some t) s') : OneTaken source s' := by
  rw [next_eq_take hs] at h
  obtain ⟨u, s₁, hu, _, htake, hreaches⟩ | ⟨_, _, _, _, htake, _⟩ | ⟨_, _, htake⟩ :=
    take_cases hs false (among kinds)
  · rw [htake] at h
    cases h
    exact ⟨s, t, hu, hreaches⟩
  · exact nomatch htake.symm.trans h
  · exact nomatch htake.symm.trans h

theorem OneTaken.next_none {s s' : ParseState} {kinds : List Kind} (h : OneTaken source s)
    (hs : s.lexer.Current source) (hnone : next kinds s = .ok none s') : OneTaken source s' := by
  rw [next_eq_take hs] at hnone
  obtain ⟨_, _, _, _, htake, _⟩ | ⟨_, s₁, _, _, htake, hreaches⟩ | ⟨_, _, htake⟩ :=
    take_cases hs false (among kinds)
  · exact nomatch htake.symm.trans hnone
  · rw [htake] at hnone
    cases hnone
    exact h.looked hreaches
  · exact nomatch htake.symm.trans hnone

theorem OneTaken.look {s s' : ParseState} {adjacent : Bool} {kinds : List Kind} {o : Option Token}
    (h : OneTaken source s) (hs : s.lexer.Current source)
    (hlook : ParseM.look adjacent kinds s = .ok o s') : OneTaken source s' := by
  obtain ⟨_, s₁, hok, hreaches⟩ | ⟨_, herr⟩ := look_cases hs adjacent kinds
  · rw [hok] at hlook
    cases hlook
    exact h.looked hreaches
  · exact nomatch herr.symm.trans hlook

/-- Taking the next token, whatever its kind, is taking one. -/
def Visible (source : Text) (s : ParseState) : Prop :=
  ∀ o s', next [] s = .ok o s' → OneTaken source s'

/-- A token that was seen can be taken. -/
theorem visible_of_look {s s' : ParseState} {adjacent : Bool} {kinds : List Kind} {t : Token}
    (hs : s.lexer.Current source) (h : ParseM.look adjacent kinds s = .ok (some t) s') :
    Visible source s' := by
  intro o s'' hnext
  rw [look_eq hs.toTiled] at h
  obtain ⟨u, l, hok, hl, _⟩ | ⟨f, herr, _⟩ := LexM.peekAny_here hs
  · rw [hok] at h
    by_cases hv : u.isVisible kinds (!adjacent && s.lexer.mode.allowBlank) = true
    · simp only [hv, if_true] at h
      cases h
      obtain ⟨hsees, _⟩ := Looked.sees hl hs adjacent hv
      have hcontext : ParseState.context { s with lexer := l } = s.context :=
        (Looked.keeps hl).context
      rw [← hcontext] at hsees
      have htaken := next_of_sees hsees hl.ahead
      rw [htaken] at hnext
      cases hnext
      exact oneTaken_of_next (hl.fresh hs) htaken
    · simp only [hv] at h
      cases h
  · rw [herr] at h
    cases h

/-! ### Productions -/

/-- How the productions that a grammar gives to others drive the lexer. -/
structure Grammar.Driven (source : Text) (g : Grammar) : Type 1 where
  descend : ∀ {P}, Drive source P g.descend
  doubleQuoted : ∀ {P}, Drive source P g.doubleQuoted
  parameter : ∀ {P}, Drive source P g.parameter
  arithExpansion : ∀ {P}, Drive source P g.arithExpansion
  nestedList : ∀ closer {P}, Drive source P (g.nestedList closer)
  arith : ∀ {P}, Drive source P g.arith
  assignment : ∀ {P}, Drive source P g.assignment
  ternary : ∀ {P}, Drive source P g.ternary
  binary : ∀ min {P}, Drive source P (g.binary min)
  power : ∀ {P}, Drive source P g.power
  unary : ∀ {P}, Drive source P g.unary

namespace Grammar.Driven
variable {g : Grammar} {P : ParseState → Prop}

/-! Arithmetic. -/

def primary (d : g.Driven source) : Drive source P (Grammar.primary g) := by
  refine .andThen (R := fun o s => o.isSome → OneTaken source s) (.next primaryStart)
    (fun s o s' _ hs hok ho => ?_) fun o => ?_
  · obtain ⟨t, rfl⟩ := Option.isSome_iff_exists.mp ho
    exact oneTaken_of_next hs hok
  · cases o with
    | none => exact .fail _
    | some t =>
      dsimp only
      split
      · exact .pure _
      · exact .pure _
      · exact .pure _
      · exact .nested d.descend (d.arith.bind fun _ => (Drive.next _).bind fun _ =>
          .orFail (.pure _))
      · exact .nested d.descend d.parameter
      · exact .nested d.descend d.arithExpansion
      · exact (Drive.nested d.descend (d.nestedList _)).bind fun _ => .pure _
      · exact (Drive.back fun _ h => h rfl).bind fun _ => .fail _

def postOperand (d : g.Driven source) : Drive source P (Grammar.postOperand g) :=
  d.primary.bind fun _ => (Drive.next _).bind fun
    | none => .pure _
    | some _ => .pure _

def unaryOperand (d : g.Driven source) : Drive source P (Grammar.unaryOperand g) :=
  (Drive.next _).bind fun
    | none => d.postOperand
    | some _ => (Drive.nested d.descend d.unary).bind fun _ => .pure _

def powerOperand (d : g.Driven source) : Drive source P (Grammar.powerOperand g) :=
  d.unaryOperand.bind fun _ => (Drive.next _).bind fun
    | none => .pure _
    | some _ => (Drive.nested d.descend d.power).bind fun _ => .pure _

def binaryOperator (min : Nat) : Drive source P (Grammar.binaryOperator min) := by
  refine (Drive.peek _).bind fun o => ?_
  cases o with
  | none => exact .pure _
  | some t =>
    dsimp only
    split
    · exact .pure _
    · exact .branch (.pure _) ((Drive.next _).bind fun _ => .pure _)

def binaryOperand (d : g.Driven source) (min : Nat) :
    Drive source P (Grammar.binaryOperand g min) :=
  .chain d.descend d.powerOperand (binaryOperator min) fun _ => d.binary _

def ternaryOperand (d : g.Driven source) : Drive source P (Grammar.ternaryOperand g) :=
  (d.binaryOperand 0).bind fun _ => (Drive.next _).bind fun _ => .branch (.pure _) <|
    (Drive.nested d.descend d.arith).bind fun _ => (Drive.next _).bind fun _ =>
      .orFail ((Drive.nested d.descend d.ternary).bind fun _ => .pure _)

/-- With no operator behind it, the name is handed back to the ternary. -/
def assignmentOperand (d : g.Driven source) : Drive source P (Grammar.assignmentOperand g) := by
  refine .andThen (R := fun o s => o.isSome → OneTaken source s) (.next [.ident])
    (fun s o s' _ hs hok ho => ?_) fun o => ?_
  · obtain ⟨t, rfl⟩ := Option.isSome_iff_exists.mp ho
    exact oneTaken_of_next hs hok
  · cases o with
    | none => exact d.ternaryOperand
    | some name =>
      refine .andThen (R := fun o s => o = none → OneTaken source s) (.next assignmentOps)
        (fun s o s' htaken hs hok ho => ?_) fun o => ?_
      · subst ho
        exact (htaken rfl).next_none hs hok
      · cases o with
        | none => exact (Drive.back fun _ h => h rfl).bind fun _ => d.ternaryOperand
        | some op => exact (Drive.nested d.descend d.assignment).bind fun _ => .pure _

def expression (d : g.Driven source) : Drive source P (Grammar.expression g) :=
  .chain d.descend d.assignmentOperand ((Drive.next _).bind fun _ => .pure _)
    fun _ => d.assignmentOperand

/-! Words. -/

def piece (d : g.Driven source) (adjacent : Bool) : Drive source P (Grammar.piece g adjacent) := by
  refine Drive.pieceStartHere.bind fun kinds => ?_
  refine .andThen (R := fun o s => o.isSome → Visible source s) (.look adjacent kinds)
    (fun s o s' _ hs hok ho => ?_) fun o => ?_
  · obtain ⟨t, rfl⟩ := Option.isSome_iff_exists.mp ho
    exact visible_of_look hs hok
  · cases o with
    | none => exact .pure _
    | some t =>
      refine .andThen (R := fun _ s => OneTaken source s) (.next [])
        (fun s o s' hvisible _ hok => hvisible rfl o s' hok) fun _ => ?_
      split
      · exact .pure _
      · exact .pure _
      · exact .pure _
      · exact (Drive.nested d.descend d.doubleQuoted).bind fun _ => .pure _
      · exact (Drive.nested d.descend d.parameter).bind fun _ => .pure _
      · exact (Drive.nested d.descend d.arithExpansion).bind fun _ => .pure _
      · exact (Drive.nested d.descend (d.nestedList _)).bind fun _ => .pure _
      · exact (Drive.nested d.descend (d.nestedList _)).bind fun _ => .pure _
      · exact (Drive.nested d.descend (d.nestedList _)).bind fun _ => .pure _
      · exact (Drive.nested d.descend (d.nestedList _)).bind fun _ => .pure _
      · exact (Drive.back fun _ h => h).bind fun _ => .pure _

def word (d : g.Driven source) : Drive source P (Grammar.word g) :=
  (d.piece false).bind fun
    | none => .pure _
    | some _ => (Drive.gather (d.piece true) _).bind fun _ => .pure _

def payload (d : g.Driven source) (rules : Rules) : Drive source P (Grammar.payload g rules) :=
  (Drive.withRules rules true d.word).bind fun _ => .pure _

def quotedPiece (d : g.Driven source) : Drive source P (Grammar.quotedPiece g) :=
  (Drive.next _).bind fun _ => .branch (.pure _) <|
    (d.piece false).bind fun
      | none => .fail _
      | some _ => .pure _

def doubleQuotedRest (d : g.Driven source) : Drive source P (Grammar.doubleQuotedRest g) :=
  .withRules _ _ ((Drive.gather d.quotedPiece _).bind fun _ => .pure _)

def arithExpansionRest (d : g.Driven source) : Drive source P (Grammar.arithExpansionRest g) :=
  (Drive.withRules _ _ (d.expression.bind fun _ => (Drive.accept _ _).bind fun _ =>
    .orFail (.pure _))).bind fun _ => .pure _

/-! Parameters. -/

def arithOperand (d : g.Driven source) : Drive source P (Grammar.arithOperand g) :=
  .withRules _ _ d.expression

def matchingNames (ref : Bool) (name mode : Text) :
    Drive source P (Grammar.matchingNames ref name mode) :=
  .branch ((Drive.fail _).bind fun _ => .orFail (.pure _)) (.orFail (.pure _))

/-- An operator and a payload. -/
def operated (d : g.Driven source) (pattern : Pattern) (rules : Rules)
    (form : Text → Node → Form) : Drive source P (do
      match ← ParseM.accept pattern .op with
      | none => return none
      | some op => return some (form op.body (← Grammar.payload g rules))) :=
  (Drive.accept _ _).bind fun
    | none => .pure _
    | some _ => (d.payload rules).bind fun _ => .pure _

section Forms
variable (ref : Bool) (name : Text)

def elementsForm : Drive source P (Grammar.elementsForm ref name) :=
  (Drive.next _).bind fun
    | none => .pure _
    | some _ => .pure _

def substringForm (d : g.Driven source) : Drive source P (Grammar.substringForm g ref name) :=
  (Drive.accept _ _).bind fun
    | none => .pure _
    | some _ => d.arithOperand.bind fun _ => (Drive.acceptPastBlank _ _).bind fun
      | none => .pure _
      | some _ => d.arithOperand.bind fun _ => .pure _

def replacementForm (d : g.Driven source) : Drive source P (Grammar.replacementForm g ref name) :=
  (Drive.accept _ _).bind fun
    | none => .pure _
    | some _ => (Drive.accept _ _).bind fun _ => (d.payload _).bind fun _ =>
      (Drive.accept _ _).bind fun
        | none => .pure _
        | some _ => (d.payload _).bind fun _ => .pure _

def atForm : Drive source P (Grammar.atForm ref name) :=
  (Drive.accept _ _).bind fun
    | none => .pure _
    | some _ => (Drive.accept _ _).bind fun
      | none => (matchingNames _ _ _).bind fun _ => .pure _
      | some _ => .pure _

def starForm : Drive source P (Grammar.starForm ref name) :=
  (Drive.accept _ _).bind fun
    | none => .pure _
    | some _ => (matchingNames _ _ _).bind fun _ => .pure _

def elementForm (d : g.Driven source) : Drive source P (Grammar.elementForm g ref name) :=
  (Drive.next _).bind fun
    | none => .pure _
    | some _ => d.arithOperand.bind fun _ => (Drive.acceptPastBlank _ _).bind fun _ =>
      .orFail (.pure _)

/-- The forms one after another, up to the first that is there. -/
def forms (d : g.Driven source) : Drive source P (ParseM.firstOf (Grammar.forms g ref name)) :=
  .alternative (elementsForm ref name) <|
  .alternative (d.operated _ _ fun op value => ⟨.paramDefault ref name op value, false⟩) <|
  .alternative (d.substringForm ref name) <|
  .alternative (d.operated _ _ fun mode pattern => ⟨.patternRemoval ref name mode pattern, false⟩) <|
  .alternative (d.operated _ _ fun mode pattern => ⟨.caseChange ref name mode pattern, false⟩) <|
  .alternative (d.replacementForm ref name) <|
  .alternative (atForm ref name) <|
  .alternative (starForm ref name) <|
  .alternative (d.elementForm ref name) (.pure none)

end Forms

def head : Drive source P Grammar.head :=
  (Drive.accept _ _).bind fun _ => (Drive.accept _ _).bind fun _ => (Drive.next _).bind fun
    | some _ => .pure _
    | none => .branch ((Drive.peek _).bind fun _ => .branch (.pure _) (.fail _)) (.fail _)

def parameterBody (d : g.Driven source) : Drive source P (Grammar.parameterBody g) :=
  head.bind fun h => .branch (.pure _) ((d.forms h.ref h.name).bind fun _ => .pure _)

def parameterRest (d : g.Driven source) : Drive source P (Grammar.parameterRest g) :=
  .withRules _ _ <| d.parameterBody.bind fun _ =>
    .branch ((Drive.acceptPastBlank _ _).bind fun _ => .orFail (.pure _))
      ((Drive.next _).bind fun _ => .orFail (.pure _))

/-! Commands. -/

def assignment? (d : g.Driven source) : Drive source P (Grammar.assignment? g) :=
  (Drive.accept _ _).bind fun
    | none => .pure _
    | some _ => (Drive.withRules _ _ d.word).bind fun _ => .pure _

def simpleCommand (d : g.Driven source) : Drive source P (Grammar.simpleCommand g) :=
  (Drive.gather d.assignment? _).bind fun _ => (Drive.gather d.word _).bind fun _ =>
    .orFail (.pure _)

def commandOperator (g : Grammar) (kinds : List Kind) :
    Drive source P (Grammar.commandOperator g kinds) :=
  (Drive.next _).bind fun
    | none => .pure _
    | some _ => (Drive.skipNewlines _).bind fun _ => .pure _

/-- A `!` that turns out to be text is handed back. -/
def acceptBang : Drive source P Grammar.acceptBang := by
  refine .andThen (R := fun o s => o.isSome → Visible source s) (.peek [.str])
    (fun s o s' _ hs hok ho => ?_) fun o => ?_
  · obtain ⟨t, rfl⟩ := Option.isSome_iff_exists.mp ho
    exact @visible_of_look _ _ _ false _ _ hs hok
  · cases o with
    | none => exact .pure _
    | some t =>
      refine .branch ?_ (.pure _)
      refine .andThen (R := fun _ s => OneTaken source s) (.next [])
        (fun s o s' hvisible _ hok => hvisible rfl o s' hok) fun _ => ?_
      refine .andThen (R := fun _ s => OneTaken source s) .pieceStartHere
        (fun s kinds s' htaken _ hok => ?_) fun kinds => ?_
      · cases hok
        exact htaken
      · refine .andThen (R := fun _ s => OneTaken source s) (.peekAdjacent kinds)
          (fun s o s' htaken hs hok => @OneTaken.look _ _ _ true _ _ htaken hs hok) fun _ => ?_
        exact .branch ((Drive.back fun _ h => h).bind fun _ => .pure _) (.pure _)

def pipeline (d : g.Driven source) : Drive source P (Grammar.pipeline g) :=
  acceptBang.bind fun _ => (Drive.chain d.descend d.simpleCommand (commandOperator g _) fun _ =>
    d.simpleCommand).bind fun _ => .pure _

def andOr (d : g.Driven source) : Drive source P (Grammar.andOr g) :=
  .chain d.descend d.pipeline (commandOperator g _) fun _ => d.pipeline

def entry (d : g.Driven source) : Drive source P (Grammar.entry g) :=
  d.andOr.bind fun _ => (Drive.next _).bind fun _ => .pure _

def entries (d : g.Driven source) (closer : Closer) : (bound : Nat) → {P : ParseState → Prop} →
    Drive source P (Grammar.entries g closer bound)
  | 0, _ => .breached _
  | bound + 1, _ => (Drive.skipNewlines _).bind fun _ => (Drive.peek _).bind fun _ =>
    .branch (.pure _) <| d.entry.bind fun _ =>
      .branch ((d.entries closer bound).bind fun _ => .pure _) (.pure _)

def list (d : g.Driven source) (closer : Closer) : Drive source P (Grammar.list g closer) :=
  (d.entries closer _).bind fun _ => (Drive.next _).bind fun _ => .orFail (.pure _)

def nestedListRest (d : g.Driven source) (closer : Closer) :
    Drive source P (Grammar.nestedListRest g closer) :=
  .inList closer (.withRules _ _ (d.list closer))

end Grammar.Driven

/-- So do the productions of every level. -/
def Grammar.driven (source : Text) (limit : Nat) :
    (levels : Nat) → (Grammar.level (ParseM.descend limit) levels).Driven source
  | 0 =>
    { descend := .descend limit
      doubleQuoted := .breached _
      parameter := .breached _
      arithExpansion := .breached _
      nestedList := fun _ => .breached _
      arith := .breached _
      assignment := .breached _
      ternary := .breached _
      binary := fun _ => .breached _
      power := .breached _
      unary := .breached _ }
  | levels + 1 =>
    let d := driven source limit levels
    { descend := .descend limit
      doubleQuoted := d.doubleQuotedRest
      parameter := d.parameterRest
      arithExpansion := d.arithExpansionRest
      nestedList := fun closer => d.nestedListRest closer
      arith := d.expression
      assignment := d.assignmentOperand
      ternary := d.ternaryOperand
      binary := fun min => d.binaryOperand min
      power := d.powerOperand
      unary := d.unaryOperand }

/-! ### Parses -/

/-- The moves that a parse makes on its lexer, in order. -/
def parseMoves (options : Options) (source : Text) : List Move :=
  ((Grammar.driven source options.maxDepth (source.length + 1)).list (P := fun _ => True)
    .endOfSource).moves (.ofText source)

/-- The lexer of a parse after its first moves. -/
def lexerAfter (options : Options) (source : Text) (count : Nat) : Lexer :=
  (Lexer.ofText source).run ((parseMoves options source).take count)

theorem lexerAfter_all (options : Options) (source : Text) :
    lexerAfter options source (parseMoves options source).length =
      (finalState (run options source)).lexer := by
  rw [lexerAfter, List.take_length]
  exact (((Grammar.driven source options.maxDepth (source.length + 1)).list
    (P := fun _ => True) .endOfSource).replays (.ofText source)).symm

/-- After any number of moves nothing ahead was read under other rules than those in force. -/
theorem current_lexerAfter (options : Options) (source : Text) (count : Nat) :
    (lexerAfter options source count).Current source := by
  have hstays := ((Grammar.driven source options.maxDepth (source.length + 1)).list
    (P := fun _ => True) .endOfSource).stays_current (s := .ofText source) trivial
      (Lexer.current_ofText source)
  rw [← List.take_append_drop count (Drive.moves _ _)] at hstays
  exact hstays.after

/-- A token that is taken from a current lexer was read under the rules in force, from where
the consumed tokens end. -/
theorem Lexer.Current.taken {l l' : Lexer} (h : l.Current source) {kinds : List Kind} {t : Token}
    (htake : LexM.next kinds l = .ok (some t) l') :
    l'.consumed = l.consumed ++ [t] ∧ t.origin = l.here ∧ l.mode.rules.tokenAt l.here = .ok t := by
  rw [LexM.next_eq] at htake
  obtain ⟨u, l₁, hok, hl₁, hu⟩ | ⟨f, herr, _⟩ := LexM.peekAny_here h
  · obtain ⟨rest, ha⟩ := hl₁.ahead
    rw [hok] at htake
    by_cases hv : u.isVisible kinds l₁.mode.allowBlank = true
    · simp only [hv, if_true] at htake
      cases htake
      refine ⟨?_, (Rules.tokenAt_fits hu).1, hu⟩
      rw [Lexer.consumed_consume ha, hl₁.consumed]
    · simp only [hv] at htake
      cases htake
  · rw [herr] at htake
    cases htake

/-- **No parse consumes a token that was read under the wrong rules.** A parse is the moves
it makes. After any number of them, each token in the buffer at or behind the cursor is the
one that the rules then in force make at the place where it begins; and if the next move takes
a token, that token is the one which those rules make where the consumed tokens end. -/
theorem parse_reads_fresh (options : Options) (source : Text) :
    lexerAfter options source (parseMoves options source).length =
        (finalState (run options source)).lexer ∧
      ∀ count,
        (∀ t ∈ (lexerAfter options source count).ahead,
          (lexerAfter options source count).mode.rules.tokenAt t.origin = .ok t) ∧
        ∀ kinds t l, (parseMoves options source)[count]? = some (.next kinds) →
          LexM.next kinds (lexerAfter options source count) = .ok (some t) l →
            l = lexerAfter options source (count + 1) ∧
            l.consumed = (lexerAfter options source count).consumed ++ [t] ∧
            t.origin = ((lexerAfter options source count).consumed.getLast?.map Token.after).getD
              (.ofText source) ∧
            (lexerAfter options source count).mode.rules.tokenAt t.origin = .ok t := by
  refine ⟨lexerAfter_all options source, fun count => ?_⟩
  have hcurrent := current_lexerAfter options source count
  refine ⟨hcurrent.fresh, fun kinds t l hmove htake => ?_⟩
  obtain ⟨hconsumed, horigin, hmade⟩ := hcurrent.taken htake
  refine ⟨?_, hconsumed, horigin.trans hcurrent.toTiled.tiles_here.end_eq, horigin ▸ hmade⟩
  have hnext : lexerAfter options source (count + 1) =
      (Move.next kinds).after (lexerAfter options source count) := by
    rw [lexerAfter, List.take_add_one, hmove, Lexer.run_append]
    rfl
  rw [hnext, Move.after, Lexer.after, htake]

/-- The kinds that a move takes a token of. -/
def Move.sought? : Move → Option (List Kind)
  | .next kinds => some kinds
  | _ => none

/-- Is the move the one that hands the last token back? -/
def Move.isBack : Move → Bool
  | .back => true
  | _ => false

/-- In `$((a))` the name is taken as the target of an assignment, handed back for want of an
operator behind it, and taken again as a primary. -/
theorem parse_reads_fresh_twice : ∃ t l,
    (parseMoves ⟨64⟩ "$((a))".toList)[9]? = some .back ∧
      (parseMoves ⟨64⟩ "$((a))".toList)[11]? = some (.next primaryStart) ∧
      LexM.next primaryStart (lexerAfter ⟨64⟩ "$((a))".toList 11) = .ok (some t) l ∧
      t.body = ['a'] ∧
      (lexerAfter ⟨64⟩ "$((a))".toList 11).mode.rules.tokenAt t.origin = .ok t := by
  have hisBack : (parseMoves ⟨64⟩ "$((a))".toList)[9]?.map Move.isBack = some true := by
    decide +kernel
  have hsought : (parseMoves ⟨64⟩ "$((a))".toList)[11]?.bind Move.sought? = some primaryStart := by
    decide +kernel
  have hbody : ((LexM.next primaryStart).run' (lexerAfter ⟨64⟩ "$((a))".toList 11)).map
      (Option.map Token.body) = some (some ['a']) := by decide +kernel
  have hback : (parseMoves ⟨64⟩ "$((a))".toList)[9]? = some .back := by
    obtain ⟨m, hm, hisBack⟩ := Option.map_eq_some_iff.mp hisBack
    cases m <;> first | exact hm | cases hisBack
  have hmove : (parseMoves ⟨64⟩ "$((a))".toList)[11]? = some (.next primaryStart) := by
    obtain ⟨m, hm, hsought⟩ := Option.bind_eq_some_iff.mp hsought
    cases m with
    | next kinds => rw [hm, Option.some.inj hsought]
    | _ => cases hsought
  obtain ⟨o, hrun, ho⟩ := Option.map_eq_some_iff.mp hbody
  obtain ⟨t, rfl, ht⟩ := Option.map_eq_some_iff.mp ho
  obtain ⟨l, hnext⟩ := ok_of_run hrun
  have hfresh := ((parse_reads_fresh ⟨64⟩ "$((a))".toList).2 11).2 primaryStart t l hmove hnext
  exact ⟨t, l, hback, hmove, hnext, ht, hfresh.2.2.2⟩

end ShellGrammar
