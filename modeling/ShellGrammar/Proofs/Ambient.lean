import ShellGrammar.Proofs.Script

/-! What every way out puts back.

The rule sets in force, the number of open levels and the closing backquote are ambient:
productions change them for what they call and put them back when it ends, be it with a
node, with a fault or by a broken promise. `Restores` says so of a production, with nothing
assumed of the state it starts in. The combinators that change the setting undo their own
step in (`Restores.nested`, `Restores.withRules`, `Restores.inList`), a chain releases at
its end all the levels it took on the way (`Restores.folding`), and whatever is put
together from what restores the setting restores it, so every production does, whatever
the productions it calls are given as (`productions_restore`).

For the lexer alone the same is said of `useRules` around any routine that drives the lexer
from outside (`Routine`). -/
namespace ShellGrammar
open Grammar ParseM

/-- The state in which a run ended, well or not. -/
def finalState {ε σ α : Type} : EStateM.Result ε σ α → σ
  | .ok _ s => s
  | .error _ s => s

/-! ### The lexer -/

namespace LexM
variable {α β : Type} {act : LexM α}

theorem keepsModes_iff : KeepsModes act ↔ ∀ l, (finalState (act l)).modes = l.modes := by
  constructor
  · intro h l
    obtain ⟨a, l', hok, hmodes⟩ | ⟨e, l', herr, hmodes⟩ := h l
    · rw [hok]
      exact hmodes
    · rw [herr]
      exact hmodes
  · intro h l
    have hl := h l
    cases hact : act l with
    | ok a l' =>
      rw [hact] at hl
      exact .inl ⟨a, l', rfl, hl⟩
    | error e l' =>
      rw [hact] at hl
      exact .inr ⟨e, l', rfl, hl⟩

theorem keepsModes_pure (a : α) : KeepsModes (pure a) := fun l => .inl ⟨a, l, rfl, rfl⟩

/-- A change of the buffer, the cursor or the scan. -/
theorem keepsModes_modify {f : Lexer → Lexer} (hf : ∀ l, (f l).modes = l.modes) :
    KeepsModes (modify f) := fun l => .inl ⟨_, _, rfl, hf l⟩

theorem KeepsModes.get_bind {k : Lexer → LexM β} (h : ∀ l, KeepsModes (k l)) :
    KeepsModes (get >>= k) := fun l => h l l

theorem keepsModes_keep (t : Token) : KeepsModes (keep t) :=
  (keepsModes_cutSource _).bind fun _ => (keepsModes_noteSpan _ _).bind fun _ =>
    keepsModes_modify fun _ => rfl

theorem keepsModes_peek (kinds : List Kind) : KeepsModes (peek kinds) :=
  modes_peekAny.bind fun _ => .get_bind fun _ => keepsModes_pure _

theorem keepsModes_next (kinds : List Kind) : KeepsModes (next kinds) := by
  refine (keepsModes_peek kinds).bind fun o => ?_
  cases o with
  | none => exact keepsModes_pure _
  | some t =>
    exact (keepsModes_modify (f := Lexer.consume) fun _ => rfl).bind fun _ => keepsModes_pure _

theorem keepsModes_peekAdjacent (kinds : List Kind) : KeepsModes (peekAdjacent kinds) :=
  modes_peekAny.bind fun _ => keepsModes_pure _

theorem keepsModes_back : KeepsModes back := by
  intro l
  unfold back
  split
  · exact .inr ⟨_, l, rfl, rfl⟩
  · exact .inl ⟨_, _, rfl, rfl⟩

theorem keepsModes_acceptWith (pattern : Pattern) (kind : Kind) (allowBlank : Bool) :
    KeepsModes (acceptWith pattern kind allowBlank) := by
  refine (keepsModes_modify Lexer.modes_discard).bind fun _ => .get_bind fun l => ?_
  refine (keepsModes_cutSource _).bind fun _ => ?_
  split
  · refine (keepsModes_keep _).bind fun _ => ?_
    exact (keepsModes_modify (f := Lexer.consume) fun _ => rfl).bind fun _ => keepsModes_pure _
  · exact keepsModes_pure _

theorem keepsModes_accept (pattern : Pattern) (kind : Kind) : KeepsModes (accept pattern kind) :=
  .get_bind fun _ => keepsModes_acceptWith pattern kind _

/-- What is entered is left again, whatever happens in between. -/
theorem KeepsModes.useRules (h : KeepsModes act) (rules : Rules) (allowBlank : Bool) :
    KeepsModes (useRules rules allowBlank act) := by
  intro l
  have hentered := Lexer.modes_enter l rules allowBlank
  have hleave : ∀ l', l'.modes = (l.enter rules allowBlank).modes →
      ∃ l'', leave l' = .ok () l'' ∧ l''.modes = l.modes := by
    intro l' hl'
    obtain ⟨l'', hsome, hmodes, _⟩ := Lexer.leave?_of_modes (hl'.trans hentered)
    exact ⟨l'', by simp only [leave, hsome], hmodes⟩
  obtain ⟨a, l', hok, hl'⟩ | ⟨e, l', herr, hl'⟩ := h (l.enter rules allowBlank)
  · obtain ⟨l'', hout, hmodes⟩ := hleave l' hl'
    exact .inl ⟨a, l'', ensuring_of_ok hok hout, hmodes⟩
  · obtain ⟨l'', hout, hmodes⟩ := hleave l' hl'
    exact .inr ⟨e, l'', ensuring_of_error herr hout, hmodes⟩

end LexM

/-! ### Routines -/

/-- What can be done with a lexer from outside: its operations one after another, each
chosen in the light of all answers before it, faults among them, and any of them under
rules of their own. -/
inductive Routine : Type → Type 1 where
  | done {α : Type} (a : α) : Routine α
  | fail {α : Type} (f : LexFault) : Routine α
  | peekAny : Routine Token
  | peek (kinds : List Kind) : Routine (Option Token)
  | next (kinds : List Kind) : Routine (Option Token)
  | peekAdjacent (kinds : List Kind) : Routine (Option Token)
  | back : Routine Unit
  | accept (pattern : Pattern) (kind : Kind) : Routine (Option Token)
  | acceptWith (pattern : Pattern) (kind : Kind) (allowBlank : Bool) : Routine (Option Token)
  /-- Looks at the lexer: where it is, what it reads and whether the source has ended. -/
  | inspect {α : Type} (look : Lexer → α) : Routine α
  | reset (m : Lexer.Mark) : Routine Unit
  | useRules {α : Type} (rules : Rules) (allowBlank : Bool) (body : Routine α) : Routine α
  | andThen {α β : Type} (first : Routine α) (rest : α → Routine β) : Routine β
  /-- Goes on with a fault in hand instead of stopping. -/
  | recover {α : Type} (body : Routine α) (handler : LexFault → Routine α) : Routine α

namespace Routine

/-- Runs a routine, and what is to be done about its fault. -/
def recovering {α : Type} (act : LexM α) (handler : LexFault → LexM α) : LexM α := fun l =>
  match act l with
  | .error (.fault f) l => handler f l
  | result => result

def run {α : Type} : Routine α → LexM α
  | done a => pure a
  | fail f => throw (.fault f)
  | peekAny => LexM.peekAny
  | peek kinds => LexM.peek kinds
  | next kinds => LexM.next kinds
  | peekAdjacent kinds => LexM.peekAdjacent kinds
  | back => LexM.back
  | accept pattern kind => LexM.accept pattern kind
  | acceptWith pattern kind allowBlank => LexM.acceptWith pattern kind allowBlank
  | inspect look => do return look (← get)
  | reset m => modify (Lexer.reset m)
  | useRules rules allowBlank body => LexM.useRules rules allowBlank body.run
  | andThen first rest => do (rest (← first.run)).run
  | recover body handler => recovering body.run fun f => (handler f).run

open LexM

theorem keepsModes_recovering {α : Type} {act : LexM α} {handler : LexFault → LexM α}
    (h : KeepsModes act) (hhandler : ∀ f, KeepsModes (handler f)) :
    KeepsModes (recovering act handler) := by
  rw [keepsModes_iff] at h ⊢
  intro l
  have hl := h l
  unfold recovering
  cases hact : act l with
  | ok a l' =>
    rw [hact] at hl
    exact hl
  | error e l' =>
    rw [hact] at hl
    cases e with
    | fault f => exact (keepsModes_iff.mp (hhandler f) l').trans hl
    | breach b => exact hl

theorem keepsModes_run {α : Type} (r : Routine α) : KeepsModes r.run := by
  induction r with
  | done a => exact keepsModes_pure a
  | fail f => exact fun l => .inr ⟨_, l, rfl, rfl⟩
  | peekAny => exact modes_peekAny
  | peek kinds => exact keepsModes_peek kinds
  | next kinds => exact keepsModes_next kinds
  | peekAdjacent kinds => exact keepsModes_peekAdjacent kinds
  | back => exact keepsModes_back
  | accept pattern kind => exact keepsModes_accept pattern kind
  | acceptWith pattern kind allowBlank => exact keepsModes_acceptWith pattern kind allowBlank
  | inspect look => exact .get_bind fun _ => keepsModes_pure _
  | reset m => exact keepsModes_modify fun _ => rfl
  | useRules rules allowBlank body ih => exact ih.useRules rules allowBlank
  | andThen first rest ihfirst ihrest => exact ihfirst.bind ihrest
  | recover body handler ihbody ihhandler => exact keepsModes_recovering ihbody ihhandler

end Routine

/-! ### Combinators -/

/-- On every way out the modes, the open levels and the closing backquote are as they were. -/
def Restores {α : Type} (act : ParseM α) : Prop := ∀ s, Keeps s (finalState (act s))

/-- The same but for the open levels, of which a chain may hold on to some. -/
def RestoresContext {α : Type} (act : ParseM α) : Prop :=
  ∀ s, KeepsContext s (finalState (act s))

/-- Opens a level, or stops with the setting as it was. -/
def Opens (descend : ParseM Unit) : Prop :=
  ∀ s, (∃ s', descend s = .ok () s' ∧ Keeps s.deeper s') ∨
    ∃ e s', descend s = .error e s' ∧ Keeps s s'

section Combinators
variable {α β : Type} {act : ParseM α} {k : α → ParseM β} {d : ParseM Unit}

theorem RestoresContext.bind (h : RestoresContext act) (hk : ∀ a, RestoresContext (k a)) :
    RestoresContext (act >>= k) := by
  intro s
  have hs := h s
  cases hact : act s with
  | ok a s' =>
    rw [hact] at hs
    rw [bind_of_ok hact]
    exact hs.trans (hk a s')
  | error e s' =>
    rw [hact] at hs
    rw [bind_of_error hact]
    exact hs

theorem Opens.restoresContext (h : Opens d) : RestoresContext d := by
  intro s
  obtain ⟨s', hok, hs'⟩ | ⟨e, s', herr, hs'⟩ := h s
  · rw [hok]
    exact ⟨hs'.modes, hs'.inBackquote⟩
  · rw [herr]
    exact hs'.keepsContext

namespace Restores

theorem context (h : Restores act) : RestoresContext act := fun s => (h s).keepsContext

theorem pure (a : α) : Restores (Pure.pure a) := fun s => .refl s

theorem breached (b : Breach) : Restores (ShellGrammar.breached b : ParseM α) := fun s => .refl s

theorem bind (h : Restores act) (hk : ∀ a, Restores (k a)) : Restores (act >>= k) := by
  intro s
  have hs := h s
  cases hact : act s with
  | ok a s' =>
    rw [hact] at hs
    rw [bind_of_ok hact]
    exact hs.trans (hk a s')
  | error e s' =>
    rw [hact] at hs
    rw [bind_of_error hact]
    exact hs

theorem get_bind {k : ParseState → ParseM β} (h : ∀ s, Restores (k s)) :
    Restores (get >>= k) := fun s => h s s

/-- A result, named once more. -/
theorem map {f : α → β} (h : Restores act) : Restores (act >>= fun a => Pure.pure (f a)) :=
  h.bind fun _ => pure _

theorem lexing {act : LexM α} (h : LexM.KeepsModes act) : Restores (ParseM.lexing act) := by
  intro s
  rw [lexing_eq]
  obtain ⟨a, l, hok, hl⟩ | ⟨e, l, herr, hl⟩ := h s.lexer
  · rw [hok]
    exact ⟨hl, rfl, rfl⟩
  · rw [herr]
    exact ⟨hl, rfl, rfl⟩

theorem peekAny : Restores ParseM.peekAny := lexing LexM.modes_peekAny

theorem next (kinds : List Kind) : Restores (ParseM.next kinds) :=
  lexing (LexM.keepsModes_next kinds)

theorem peek (kinds : List Kind) : Restores (ParseM.peek kinds) :=
  lexing (LexM.keepsModes_peek kinds)

theorem peekAdjacent (kinds : List Kind) : Restores (ParseM.peekAdjacent kinds) :=
  lexing (LexM.keepsModes_peekAdjacent kinds)

theorem look (adjacent : Bool) (kinds : List Kind) : Restores (ParseM.look adjacent kinds) := by
  cases adjacent with
  | true => exact peekAdjacent kinds
  | false => exact peek kinds

theorem back : Restores ParseM.back := lexing LexM.keepsModes_back

theorem accept (pattern : Pattern) (kind : Kind) : Restores (ParseM.accept pattern kind) :=
  lexing (LexM.keepsModes_accept pattern kind)

theorem acceptPastBlank (pattern : Pattern) (kind : Kind) :
    Restores (ParseM.acceptPastBlank pattern kind) :=
  lexing (LexM.keepsModes_acceptWith pattern kind true)

theorem fail (expected : Expected) : Restores (ParseM.fail expected : ParseM α) :=
  peekAny.bind fun _ => .get_bind fun _ _ => .refl _

theorem pieceStartHere : Restores Grammar.pieceStartHere := .get_bind fun _ => pure _

/-! Changes of the setting, and what undoes them. -/

/-- A step out that undoes the step in, from `s` to `s₁`, whatever was done there. -/
theorem around {leave : ParseM Unit} {P : ParseState → Prop} {s s₁ : ParseState}
    (hact : P (finalState (act s₁)))
    (hleave : ∀ s₂, P s₂ → ∃ s₃, leave s₂ = .ok () s₃ ∧ Keeps s s₃) :
    Keeps s (finalState (ensuring act leave s₁)) := by
  cases hrun : act s₁ with
  | ok a s₂ =>
    rw [hrun] at hact
    obtain ⟨s₃, hout, hs₃⟩ := hleave s₂ hact
    rw [ensuring_of_ok hrun hout]
    exact hs₃
  | error e s₂ =>
    rw [hrun] at hact
    obtain ⟨s₃, hout, hs₃⟩ := hleave s₂ hact
    rw [ensuring_of_error hrun hout]
    exact hs₃

theorem nested (hd : Opens d) (h : Restores act) : Restores (ParseM.nested d act) := by
  intro s
  obtain ⟨s₁, hok, hs₁⟩ | ⟨e, s₁, herr, hs₁⟩ := hd s
  · rw [ParseM.nested, bind_of_ok hok]
    refine around (h s₁) fun s₂ hs₂ => ?_
    have hall := hs₁.trans hs₂
    exact ⟨_, ascend_of_depth hall.depth, hall.modes, hall.inBackquote, rfl⟩
  · rw [ParseM.nested, bind_of_error herr]
    exact hs₁

/-- Whatever levels a chain holds on to, its end releases them all. -/
theorem folding (h : RestoresContext act) : Restores (ParseM.folding act) := by
  intro s
  show Keeps s (finalState (ensuring act (modify fun s' => { s' with depth := s.depth }) s))
  exact around (h s) fun _ hs₂ => ⟨_, rfl, hs₂.modes, hs₂.inBackquote, rfl⟩

theorem withRules (rules : Rules) (allowBlank : Bool) (h : Restores act) :
    Restores (ParseM.withRules rules allowBlank act) := by
  intro s
  refine around (h { s with lexer := s.lexer.enter rules allowBlank }) fun s₂ hs₂ => ?_
  obtain ⟨l, hsome, hmodes, _⟩ := Lexer.leave?_of_modes
    (hs₂.modes.trans (Lexer.modes_enter s.lexer rules allowBlank))
  refine ⟨{ s₂ with lexer := l }, ?_, hmodes, hs₂.inBackquote, hs₂.depth⟩
  simp only [lexing_eq, LexM.leave, hsome]

theorem inList (closer : Closer) (h : Restores act) : Restores (ParseM.inList closer act) := by
  intro s
  show Keeps s (finalState (ensuring act (modify fun s' => { s' with inBackquote := s.inBackquote })
    { s with inBackquote := closer == .backquote }))
  exact around (h _) fun _ hs₂ => ⟨_, rfl, hs₂.modes, rfl, hs₂.depth⟩

/-! Loops, alternatives and chains. -/

theorem skipNewlines (bound : Nat) : Restores (ParseM.skipNewlines bound) := by
  induction bound with
  | zero => exact breached .outOfSteps
  | succ bound ih =>
    refine (next _).bind fun o => ?_
    cases o with
    | none => exact pure ()
    | some t => exact ih

theorem gather {step : ParseM (Option α)} (h : Restores step) (bound : Nat) :
    Restores (ShellGrammar.gather step bound) := by
  induction bound with
  | zero => exact breached .outOfSteps
  | succ bound ih =>
    refine h.bind fun o => ?_
    cases o with
    | none => exact pure []
    | some a => exact ih.map

theorem firstOf {alternatives : List (ParseM (Option α))}
    (h : ∀ alternative ∈ alternatives, Restores alternative) :
    Restores (ParseM.firstOf alternatives) := by
  induction alternatives with
  | nil => exact pure none
  | cons alternative rest ih =>
    refine (h alternative List.mem_cons_self).bind fun o => ?_
    cases o with
    | none => exact ih fun other hother => h other (List.mem_cons_of_mem _ hother)
    | some a => exact pure (some a)

theorem chainRest {operator : ParseM (Option β)} {operand : β → ParseM Node}
    {join : β → Node → Node → Node} (hd : Opens d) (hoperator : Restores operator)
    (hoperand : ∀ op, Restores (operand op)) (bound : Nat) (left : Node) :
    RestoresContext (ParseM.chainRest d operator operand join bound left) := by
  induction bound generalizing left with
  | zero => exact (breached .outOfSteps).context
  | succ bound ih =>
    refine hoperator.context.bind fun o => ?_
    cases o with
    | none => exact (pure left).context
    | some op =>
      exact hd.restoresContext.bind fun _ => (hoperand op).context.bind fun _ => ih _

theorem chain {g : Grammar} {first : ParseM Node} {operator : ParseM (Option β)}
    {operand : β → ParseM Node} {join : β → Node → Node → Node} (hd : Opens g.descend)
    (hfirst : Restores first) (hoperator : Restores operator)
    (hoperand : ∀ op, Restores (operand op)) :
    Restores (ParseM.chain g first operator operand join) :=
  folding (hfirst.context.bind fun left => chainRest hd hoperator hoperand g.steps left)

/-- A token that has to be there. -/
theorem orFail {expected : Expected} {o : Option Token} {act : ParseM β} (h : Restores act) :
    Restores (if o.isNone = true then ParseM.fail expected >>= fun _ : PUnit => act else act) := by
  split
  · exact (fail expected).bind fun _ => h
  · exact h

end Restores

theorem opens_descend (limit : Nat) : Opens (ParseM.descend limit) := by
  intro s
  by_cases hfull : limit ≠ 0 ∧ limit ≤ s.depth
  · right
    have hrefused : ParseM.descend limit s = tooDeep limit s :=
      descendOr_of_le (Nat.pos_of_ne_zero hfull.1) hfull.2
    have hkeeps := (tooDeepRefusal limit).keeps s
    refine ⟨(tooDeepRefusal limit).halt s, (tooDeepRefusal limit).after s, ?_, hkeeps⟩
    rw [hrefused, ← tooDeepRefusal_act]
    rfl
  · left
    refine ⟨s.deeper, ?_, .refl _⟩
    show (if limit ≠ 0 ∧ limit ≤ s.depth then tooDeep limit else _) s = _
    rw [if_neg hfull]
    rfl

end Combinators

/-! ### Productions -/

/-- The productions that a grammar gives to others restore the setting, and what it opens
levels by opens them. -/
structure Grammar.Restoring (g : Grammar) : Prop where
  opens : Opens g.descend
  doubleQuoted : Restores g.doubleQuoted
  parameter : Restores g.parameter
  arithExpansion : Restores g.arithExpansion
  nestedList : ∀ closer, Restores (g.nestedList closer)
  arith : Restores g.arith
  assignment : Restores g.assignment
  ternary : Restores g.ternary
  binary : ∀ min, Restores (g.binary min)
  power : Restores g.power
  unary : Restores g.unary

namespace Grammar.Restoring
variable {g : Grammar}

/-! Arithmetic. -/

theorem primary (h : g.Restoring) : Restores (Grammar.primary g) := by
  refine (Restores.next _).bind fun o => ?_
  cases o with
  | none => exact .fail _
  | some t =>
    dsimp only
    split
    · exact .pure _
    · exact .pure _
    · exact .pure _
    · exact .nested h.opens (h.arith.bind fun _ => (Restores.next _).bind fun _ =>
        .orFail (.pure _))
    · exact .nested h.opens h.parameter
    · exact .nested h.opens h.arithExpansion
    · exact (Restores.nested h.opens (h.nestedList _)).map
    · exact Restores.back.bind fun _ => .fail _

theorem postOperand (h : g.Restoring) : Restores (Grammar.postOperand g) := by
  refine h.primary.bind fun _ => (Restores.next _).bind fun o => ?_
  cases o <;> exact .pure _

theorem unaryOperand (h : g.Restoring) : Restores (Grammar.unaryOperand g) := by
  refine (Restores.next _).bind fun o => ?_
  cases o with
  | none => exact h.postOperand
  | some op => exact (Restores.nested h.opens h.unary).map

theorem powerOperand (h : g.Restoring) : Restores (Grammar.powerOperand g) := by
  refine h.unaryOperand.bind fun _ => (Restores.next _).bind fun o => ?_
  cases o with
  | none => exact .pure _
  | some op => exact (Restores.nested h.opens h.power).map

theorem binaryOperator (min : Nat) : Restores (Grammar.binaryOperator min) := by
  refine (Restores.peek _).bind fun o => ?_
  cases o with
  | none => exact .pure _
  | some t =>
    dsimp only
    split
    · exact .pure _
    · split
      · exact .pure _
      · exact (Restores.next _).map

theorem binaryOperand (h : g.Restoring) (min : Nat) : Restores (Grammar.binaryOperand g min) :=
  .chain h.opens h.powerOperand (binaryOperator min) fun _ => h.binary _

theorem ternaryOperand (h : g.Restoring) : Restores (Grammar.ternaryOperand g) := by
  refine (h.binaryOperand 0).bind fun _ => (Restores.next _).bind fun _ => ?_
  split
  · exact .pure _
  · refine (Restores.nested h.opens h.arith).bind fun _ => (Restores.next _).bind fun _ => ?_
    exact .orFail (Restores.nested h.opens h.ternary).map

theorem assignmentOperand (h : g.Restoring) : Restores (Grammar.assignmentOperand g) := by
  refine (Restores.next _).bind fun o => ?_
  cases o with
  | none => exact h.ternaryOperand
  | some name =>
    refine (Restores.next _).bind fun o => ?_
    cases o with
    | none => exact Restores.back.bind fun _ => h.ternaryOperand
    | some op => exact (Restores.nested h.opens h.assignment).map

theorem expression (h : g.Restoring) : Restores (Grammar.expression g) :=
  .chain h.opens h.assignmentOperand (Restores.next _).map fun _ => h.assignmentOperand

/-! Words. -/

theorem piece (h : g.Restoring) (adjacent : Bool) : Restores (Grammar.piece g adjacent) := by
  refine Restores.pieceStartHere.bind fun _ => (Restores.look _ _).bind fun o => ?_
  cases o with
  | none => exact .pure _
  | some t =>
    refine (Restores.next _).bind fun _ => ?_
    split
    · exact .pure _
    · exact .pure _
    · exact .pure _
    · exact (Restores.nested h.opens h.doubleQuoted).map
    · exact (Restores.nested h.opens h.parameter).map
    · exact (Restores.nested h.opens h.arithExpansion).map
    · exact (Restores.nested h.opens (h.nestedList _)).map
    · exact (Restores.nested h.opens (h.nestedList _)).map
    · exact (Restores.nested h.opens (h.nestedList _)).map
    · exact (Restores.nested h.opens (h.nestedList _)).map
    · exact Restores.back.bind fun _ => .pure _

theorem word (h : g.Restoring) : Restores (Grammar.word g) := by
  refine (h.piece false).bind fun o => ?_
  cases o with
  | none => exact .pure _
  | some first => exact (Restores.gather (h.piece true) _).map

theorem payload (h : g.Restoring) (rules : Rules) : Restores (Grammar.payload g rules) :=
  (Restores.withRules rules true h.word).map

theorem quotedPiece (h : g.Restoring) : Restores (Grammar.quotedPiece g) := by
  refine (Restores.next _).bind fun _ => ?_
  split
  · exact .pure _
  · refine (h.piece false).bind fun o => ?_
    cases o with
    | none => exact .fail _
    | some p => exact .pure _

theorem doubleQuotedRest (h : g.Restoring) : Restores (Grammar.doubleQuotedRest g) :=
  .withRules _ _ (Restores.gather h.quotedPiece _).map

theorem arithExpansionRest (h : g.Restoring) : Restores (Grammar.arithExpansionRest g) :=
  (Restores.withRules _ _ (h.expression.bind fun _ => (Restores.accept _ _).bind fun _ =>
    .orFail (.pure _))).map

/-! Parameters. -/

theorem arithOperand (h : g.Restoring) : Restores (Grammar.arithOperand g) :=
  .withRules _ _ h.expression

theorem matchingNames (ref : Bool) (name mode : Text) :
    Restores (Grammar.matchingNames ref name mode) := by
  unfold Grammar.matchingNames
  dsimp only
  split
  · exact (Restores.fail _).bind fun _ => by
      split
      · exact (Restores.fail _).bind fun _ => .pure _
      · exact .pure _
  · split
    · exact (Restores.fail _).bind fun _ => .pure _
    · exact .pure _

theorem forms (h : g.Restoring) (ref : Bool) (name : Text) :
    ∀ form ∈ Grammar.forms g ref name, Restores form := by
  have hpayload : ∀ (pattern : Pattern) (k : Option Token → ParseM (Option Form)),
      k none = pure none → (∀ op, Restores (k (some op))) →
      Restores (ParseM.accept pattern .op >>= k) := by
    intro pattern k hnone hsome
    refine (Restores.accept _ _).bind fun o => ?_
    cases o with
    | none =>
      rw [hnone]
      exact .pure _
    | some op => exact hsome op
  intro form hform
  simp only [Grammar.forms, List.mem_cons, List.not_mem_nil, or_false] at hform
  rcases hform with rfl | rfl | rfl | rfl | rfl | rfl | rfl | rfl | rfl
  · refine (Restores.next _).bind fun o => ?_
    cases o <;> exact .pure _
  · exact hpayload _ _ rfl fun _ => (h.payload _).map
  · refine (Restores.accept _ _).bind fun o => ?_
    cases o with
    | none => exact .pure _
    | some colon =>
      refine h.arithOperand.bind fun _ => (Restores.acceptPastBlank _ _).bind fun o => ?_
      cases o with
      | none => exact .pure _
      | some colon => exact h.arithOperand.map
  · exact hpayload _ _ rfl fun _ => (h.payload _).map
  · exact hpayload _ _ rfl fun _ => (h.payload _).map
  · refine (Restores.accept _ _).bind fun o => ?_
    cases o with
    | none => exact .pure _
    | some slash =>
      refine (Restores.accept _ _).bind fun _ => (h.payload _).bind fun _ =>
        (Restores.accept _ _).bind fun o => ?_
      cases o with
      | none => exact .pure _
      | some slash => exact (h.payload _).map
  · refine (Restores.accept _ _).bind fun o => ?_
    cases o with
    | none => exact .pure _
    | some sign =>
      refine (Restores.accept _ _).bind fun o => ?_
      cases o with
      | none => exact (matchingNames _ _ _).map
      | some op => exact .pure _
  · refine (Restores.accept _ _).bind fun o => ?_
    cases o with
    | none => exact .pure _
    | some star => exact (matchingNames _ _ _).map
  · refine (Restores.next _).bind fun o => ?_
    cases o with
    | none => exact .pure _
    | some bracket =>
      exact h.arithOperand.bind fun _ => (Restores.acceptPastBlank _ _).bind fun _ =>
        .orFail (.pure _)

theorem head : Restores Grammar.head := by
  refine (Restores.accept _ _).bind fun _ => (Restores.accept _ _).bind fun _ =>
    (Restores.next _).bind fun o => ?_
  cases o with
  | some t => exact .pure _
  | none =>
    dsimp only
    split
    · refine (Restores.peek _).bind fun _ => ?_
      split
      · exact .pure _
      · exact .fail _
    · exact .fail _

theorem parameterBody (h : g.Restoring) : Restores (Grammar.parameterBody g) := by
  refine head.bind fun hd => ?_
  split
  · exact .pure _
  · exact (Restores.firstOf (h.forms hd.ref hd.name)).map

theorem parameterRest (h : g.Restoring) : Restores (Grammar.parameterRest g) := by
  refine .withRules _ _ (h.parameterBody.bind fun form => ?_)
  dsimp only
  split
  · exact (Restores.acceptPastBlank _ _).bind fun _ => .orFail (.pure _)
  · exact (Restores.next _).bind fun _ => .orFail (.pure _)

/-! Commands. -/

theorem assignment? (h : g.Restoring) : Restores (Grammar.assignment? g) := by
  refine (Restores.accept _ _).bind fun o => ?_
  cases o with
  | none => exact .pure _
  | some t => exact (Restores.withRules _ _ h.word).map

theorem simpleCommand (h : g.Restoring) : Restores (Grammar.simpleCommand g) := by
  refine (Restores.gather h.assignment? _).bind fun _ => (Restores.gather h.word _).bind fun _ => ?_
  split
  · exact (Restores.fail _).bind fun _ => .pure _
  · exact .pure _

theorem commandOperator (g : Grammar) (kinds : List Kind) :
    Restores (Grammar.commandOperator g kinds) := by
  refine (Restores.next _).bind fun o => ?_
  cases o with
  | none => exact .pure _
  | some op => exact (Restores.skipNewlines _).map

theorem acceptBang : Restores Grammar.acceptBang := by
  refine (Restores.peek _).bind fun o => ?_
  cases o with
  | none => exact .pure _
  | some t =>
    dsimp only
    split
    · refine (Restores.next _).bind fun _ => Restores.pieceStartHere.bind fun _ =>
        (Restores.peekAdjacent _).bind fun _ => ?_
      split
      · exact Restores.back.bind fun _ => .pure _
      · exact .pure _
    · exact .pure _

theorem pipeline (h : g.Restoring) : Restores (Grammar.pipeline g) :=
  acceptBang.bind fun _ => (Restores.chain h.opens h.simpleCommand (commandOperator g _) fun _ =>
    h.simpleCommand).map

theorem andOr (h : g.Restoring) : Restores (Grammar.andOr g) :=
  .chain h.opens h.pipeline (commandOperator g _) fun _ => h.pipeline

theorem entry (h : g.Restoring) : Restores (Grammar.entry g) :=
  h.andOr.bind fun _ => (Restores.next _).map

theorem entries (h : g.Restoring) (closer : Closer) (bound : Nat) :
    Restores (Grammar.entries g closer bound) := by
  induction bound with
  | zero => exact .breached .outOfSteps
  | succ bound ih =>
    refine (Restores.skipNewlines _).bind fun _ => (Restores.peek _).bind fun _ => ?_
    split
    · exact .pure _
    · refine h.entry.bind fun _ => ?_
      split
      · exact ih.map
      · exact .pure _

theorem list (h : g.Restoring) (closer : Closer) : Restores (Grammar.list g closer) :=
  (h.entries closer _).bind fun _ => (Restores.next _).bind fun _ => .orFail (.pure _)

theorem nestedListRest (h : g.Restoring) (closer : Closer) :
    Restores (Grammar.nestedListRest g closer) :=
  .inList closer (.withRules _ _ (h.list closer))

end Grammar.Restoring

/-- So do the productions of every level. -/
theorem restoring_level {descend : ParseM Unit} (hd : Opens descend) (n : Nat) :
    (Grammar.level descend n).Restoring := by
  induction n with
  | zero =>
    have hnone : Restores (breached .outOfSteps : ParseM Node) := .breached _
    exact ⟨hd, hnone, hnone, hnone, fun _ => hnone, hnone, hnone, hnone, fun _ => hnone, hnone, hnone⟩
  | succ n ih =>
    exact ⟨hd, ih.doubleQuotedRest, ih.parameterRest, ih.arithExpansionRest, ih.nestedListRest,
      ih.expression, ih.assignmentOperand, ih.ternaryOperand, ih.binaryOperand, ih.powerOperand,
      ih.unaryOperand⟩

/-- Every production over a grammar restores the setting. -/
structure Grammar.AllRestore (g : Grammar) : Prop where
  list : ∀ closer, Restores (Grammar.list g closer)
  entry : Restores (Grammar.entry g)
  andOr : Restores (Grammar.andOr g)
  pipeline : Restores (Grammar.pipeline g)
  simpleCommand : Restores (Grammar.simpleCommand g)
  word : Restores (Grammar.word g)
  payload : ∀ rules, Restores (Grammar.payload g rules)
  piece : ∀ adjacent, Restores (Grammar.piece g adjacent)
  doubleQuotedRest : Restores (Grammar.doubleQuotedRest g)
  parameterRest : Restores (Grammar.parameterRest g)
  arithExpansionRest : Restores (Grammar.arithExpansionRest g)
  nestedListRest : ∀ closer, Restores (Grammar.nestedListRest g closer)
  expression : Restores (Grammar.expression g)
  assignmentOperand : Restores (Grammar.assignmentOperand g)
  ternaryOperand : Restores (Grammar.ternaryOperand g)
  binaryOperand : ∀ min, Restores (Grammar.binaryOperand g min)
  powerOperand : Restores (Grammar.powerOperand g)
  unaryOperand : Restores (Grammar.unaryOperand g)
  postOperand : Restores (Grammar.postOperand g)
  primary : Restores (Grammar.primary g)

/-- Whatever state it starts in, whatever the limit and the levels there are, a production
ends with the rule sets, the open levels and the closing backquote as it found them, with a
node as with any fault; and `useRules` leaves the rule sets as it found them, whatever
routine it runs. -/
theorem productions_restore (limit levels : Nat) :
    (Grammar.level (ParseM.descend limit) levels).AllRestore ∧
      ∀ (α : Type) (body : Routine α) (rules : Rules) (allowBlank : Bool) (l : Lexer),
        (finalState (LexM.useRules rules allowBlank body.run l)).modes = l.modes := by
  have h := restoring_level (opens_descend limit) levels
  refine ⟨⟨h.list, h.entry, h.andOr, h.pipeline, h.simpleCommand, h.word, h.payload, h.piece,
    h.doubleQuotedRest, h.parameterRest, h.arithExpansionRest, h.nestedListRest, h.expression,
    h.assignmentOperand, h.ternaryOperand, h.binaryOperand, h.powerOperand, h.unaryOperand,
    h.postOperand, h.primary⟩, fun α body rules allowBlank l => ?_⟩
  exact LexM.keepsModes_iff.mp (body.keepsModes_run.useRules rules allowBlank) l

end ShellGrammar
