import ShellGrammar.Proofs.Lexer.Lookahead

/-! Which move tells a fault.

A production stops at a fault in one of three ways: its lexer cannot read on, the token at
the cursor is not what the grammar asks for, or no level is left for it. In each of them the
last thing it does is to look at the next token, and the fault says what that look was
answered (`Fault.Tells`). From there on the run only puts things back. `Drive.Blames` says so
of a drive: its moves end in a look that tells the fault and, behind it, leave the rule sets
that were entered. A rule for each way of putting productions together makes it true of every
production (`parse_blames`).

Text that is refused for the blank in front of it is refused in a mode without comments, so
the judgment keeps track of the mode in force as well. -/
namespace ShellGrammar
open Grammar ParseM

variable {source : Text} {α β : Type}

/-- Blank is allowed in a mode, or else comments are not blank in it. -/
def Mode.Plain (mode : Mode) : Prop := mode.allowBlank = true ∨ mode.rules = .param

/-- A fault is what a lexer answers to a move, or what is made of the token that it shows. -/
inductive Fault.Tells (limit : Nat) (l : Lexer) : Move → Fault → Prop
  | lexical {m : Move} {f : LexFault} : m.answer l = .error (.fault f) →
      Tells limit l m (.ofLexFault f)
  | syntactic {expected : Expected} {t : Token} : Move.peekAny.answer l = .ok (some t) →
      l.mode.Plain →
      Tells limit l .peekAny (.atToken (.syntactic expected (refused t l.mode.allowBlank)) t)
  | tooDeep {t : Token} : Move.peekAny.answer l = .ok (some t) →
      Tells limit l .peekAny (.atToken (.tooDeep limit) t)

namespace Drive
variable {P : ParseState → Prop} {limit : Nat} {mode : Mode} {act : ParseM α}

/-- The moves of a run that stops at a fault: those before the look that tells it, that look,
and the rule sets left behind it. -/
def Stops (limit : Nat) (l : Lexer) (moves : List Move) (f : Fault) : Prop :=
  ∃ front m leaves, moves = front ++ m :: leaves ∧ (∀ u ∈ leaves, u = .leave) ∧
    Fault.Tells limit (l.run front) m f

theorem Stops.after {l : Lexer} {front moves : List Move} {f : Fault}
    (h : Stops limit (l.run front) moves f) : Stops limit l (front ++ moves) f := by
  obtain ⟨front', m, leaves, rfl, hleaves, htells⟩ := h
  refine ⟨front ++ front', m, leaves, (List.append_assoc ..).symm, hleaves, ?_⟩
  rwa [Lexer.run_append]

theorem Stops.before {l : Lexer} {moves leaves : List Move} {f : Fault}
    (h : Stops limit l moves f) (hleaves : ∀ u ∈ leaves, u = .leave) :
    Stops limit l (moves ++ leaves) f := by
  obtain ⟨front, m, leaves', rfl, hleaves', htells⟩ := h
  refine ⟨front, m, leaves' ++ leaves, List.append_assoc .., fun u hu => ?_, htells⟩
  rcases List.mem_append.mp hu with hu | hu
  · exact hleaves' u hu
  · exact hleaves u hu

/-- A drive, in a mode, keeps the modes, and when its run stops at a fault, the last look it
took tells the fault. -/
structure Blames (limit : Nat) (mode : Mode) (d : Drive source P act) : Prop where
  keeps : ∀ s, (finalState (act s)).lexer.modes = s.lexer.modes
  fault : ∀ s f s', P s → s.lexer.Current source → s.lexer.mode = mode →
    act s = .error (.fault f) s' → Stops limit s.lexer (d.moves s) f

/-- A state reached in the course of a drive is current, in the mode it began in. -/
theorem Blames.reached {d : Drive source P act} (h : d.Blames limit mode) {s s' : ParseState} {a : α}
    (hP : P s) (hs : s.lexer.Current source) (hmode : s.lexer.mode = mode)
    (hact : act s = .ok a s') :
    s'.lexer = s.lexer.run (d.moves s) ∧ s'.lexer.Current source ∧ s'.lexer.mode = mode := by
  have hreplays := d.replays s
  have hlast := (d.stays_current hP hs).last
  have hkeeps := h.keeps s
  rw [hact] at hreplays hkeeps
  rw [← hreplays] at hlast
  exact ⟨hreplays, hlast, (congrArg (·.headD .base) hkeeps).trans hmode⟩

namespace Blames
variable {k : α → ParseM β}

/-! ### Sequences -/

theorem andThen {R : α → ParseState → Prop} {first : Drive source P act}
    {hR : ∀ s a s', P s → s.lexer.Current source → act s = .ok a s' → R a s'}
    {rest : ∀ a, Drive source (R a) (k a)} (h : first.Blames limit mode)
    (hrest : ∀ a, (rest a).Blames limit mode) : (Drive.andThen first hR rest).Blames limit mode := by
  refine ⟨fun s => ?_, fun s f s' hP hs hmode herr => ?_⟩
  · have hkeeps := h.keeps s
    cases hact : act s with
    | ok a s₁ =>
      rw [hact] at hkeeps
      rw [bind_of_ok hact]
      exact ((hrest a).keeps s₁).trans hkeeps
    | error e s₁ =>
      rw [hact] at hkeeps
      rw [bind_of_error hact]
      exact hkeeps
  · rw [moves]
    cases hact : act s with
    | ok a s₁ =>
      obtain ⟨hreplays, hs₁, hmode₁⟩ := h.reached hP hs hmode hact
      rw [bind_of_ok hact] at herr
      have hends := (hrest a).fault s₁ f s' (hR s a s₁ hP hs hact) hs₁ hmode₁ herr
      rw [hreplays] at hends
      exact hends.after
    | error e s₁ =>
      rw [bind_of_error hact] at herr
      cases herr
      exact (h.fault s f s' hP hs hmode hact).before fun _ hu => absurd hu List.not_mem_nil

theorem bind {first : Drive source P act} {rest : ∀ a, Drive source (fun _ => True) (k a)}
    (h : first.Blames limit mode) (hrest : ∀ a, (rest a).Blames limit mode) :
    (first.bind rest).Blames limit mode :=
  h.andThen hrest

/-- What does not touch the lexer and stops at no fault. -/
theorem still {h : ∀ s, (finalState (act s)).lexer = s.lexer}
    (hno : ∀ s f s', act s ≠ .error (.fault f) s') :
    (Drive.still h : Drive source P act).Blames limit mode :=
  ⟨fun s => by rw [h s], fun s f s' _ _ _ herr => absurd herr (hno s f s')⟩

theorem pure (a : α) : (Drive.pure a : Drive source P _).Blames limit mode :=
  still fun _ _ _ => nofun

theorem breached (b : Breach) :
    (Drive.breached b : Drive source P (ShellGrammar.breached b : ParseM α)).Blames limit mode :=
  still fun _ _ _ h => by cases h

theorem setting : (Drive.setting : Drive source P _).Blames limit mode :=
  still fun _ _ _ => nofun

theorem pieceStartHere : (Drive.pieceStartHere : Drive source P _).Blames limit mode :=
  setting.bind fun _ => pure _

/-- A move that keeps the modes, whose faults are its answers. -/
theorem move {act : LexM α} {m : Move} {hact : Lexer.after act = m.after}
    {h : ∀ s, P s → s.lexer.Current source → (m.after s.lexer).Current source}
    (hkeeps : LexM.KeepsModes act)
    (hanswer : ∀ l f l', act l = .error (.fault f) l' → m.answer l = .error (.fault f)) :
    (Drive.move m hact h : Drive source P (lexing act)).Blames limit mode := by
  refine ⟨fun s => (Restores.lexing hkeeps s).modes, fun s f s' _ _ _ herr => ?_⟩
  rw [lexing_eq] at herr
  cases hrun : act s.lexer with
  | ok a l => rw [hrun] at herr; cases herr
  | error e l =>
    rw [hrun] at herr
    cases e with
    | breach b => cases herr
    | fault g =>
      cases herr
      exact ⟨[], m, [], rfl, fun _ hu => absurd hu List.not_mem_nil, .lexical (hanswer _ _ _ hrun)⟩

/-! ### Readers -/

theorem peekAny : (Drive.peekAny : Drive source P _).Blames limit mode :=
  move LexM.modes_peekAny fun l f l' h => by
    simp only [Move.answer, Move.ask, Lexer.answer, Functor.map, EStateM.map, h]

theorem peek (kinds : List Kind) : (Drive.peek kinds : Drive source P _).Blames limit mode :=
  move (LexM.keepsModes_peek kinds) fun l f l' h => by
    simp only [Move.answer, Move.ask, Lexer.answer, h]

theorem next (kinds : List Kind) : (Drive.next kinds : Drive source P _).Blames limit mode :=
  move (LexM.keepsModes_next kinds) fun l f l' h => by
    simp only [Move.answer, Move.ask, Lexer.answer, h]

theorem peekAdjacent (kinds : List Kind) :
    (Drive.peekAdjacent kinds : Drive source P _).Blames limit mode :=
  move (LexM.keepsModes_peekAdjacent kinds) fun l f l' h => by
    simp only [Move.answer, Move.ask, Lexer.answer, h]

theorem look (adjacent : Bool) (kinds : List Kind) :
    (Drive.look adjacent kinds : Drive source P _).Blames limit mode := by
  cases adjacent with
  | true => exact peekAdjacent kinds
  | false => exact peek kinds

theorem accept (pattern : Pattern) (kind : Kind) :
    (Drive.accept pattern kind : Drive source P _).Blames limit mode :=
  move (LexM.keepsModes_accept pattern kind) fun l f l' h => by
    simp only [Move.answer, Move.ask, Lexer.answer, h]

theorem acceptPastBlank (pattern : Pattern) (kind : Kind) :
    (Drive.acceptPastBlank pattern kind : Drive source P _).Blames limit mode :=
  move (LexM.keepsModes_acceptWith pattern kind true) fun l f l' h => by
    simp only [Move.answer, Move.ask, Lexer.answer, h]

theorem back {h : ∀ s, P s → OneTaken source s} :
    (Drive.back h : Drive source P _).Blames limit mode :=
  move LexM.keepsModes_back fun l f l' h => by
    simp only [Move.answer, Move.ask, Lexer.answer, SeqRight.seqRight, EStateM.seqRight, h]

/-! ### Refusals -/

/-- A look at the next token, and a fault that tells what was seen. -/
theorem refuse {k : Token → ParseM β} {rest : ∀ t, Drive source (fun _ => True) (k t)}
    (hno : ∀ t s, (rest t).moves s = [])
    (hkeeps : ∀ t s, (finalState (k t s)).lexer.modes = s.lexer.modes)
    (htells : ∀ t s f s' l, k t s = .error (.fault f) s' → s.lexer.mode = mode → l.mode = mode →
      Move.peekAny.answer l = .ok (some t) → Fault.Tells limit l .peekAny f) :
    (Drive.peekAny.bind rest : Drive source P _).Blames limit mode := by
  have hlook : (Drive.peekAny : Drive source P _).Blames limit mode := peekAny
  refine ⟨fun s => ?_, fun s f s' hP hs hmode herr => ?_⟩
  · have hmodes := hlook.keeps s
    cases hact : ParseM.peekAny s with
    | ok t s₁ =>
      rw [hact] at hmodes
      rw [bind_of_ok hact]
      exact (hkeeps t s₁).trans hmodes
    | error e s₁ =>
      rw [hact] at hmodes
      rw [bind_of_error hact]
      exact hmodes
  · refine ⟨[], .peekAny, [], ?_, fun _ hu => absurd hu List.not_mem_nil, ?_⟩
    · rw [Drive.bind, moves]
      cases ParseM.peekAny s with
      | ok t s₁ => exact congrArg (_ :: ·) (hno t s₁)
      | error e s₁ => rfl
    · cases hact : ParseM.peekAny s with
      | ok t s₁ =>
        obtain ⟨_, _, hmode₁⟩ := hlook.reached hP hs hmode hact
        rw [bind_of_ok hact] at herr
        refine htells t s₁ f s' s.lexer herr hmode₁ hmode ?_
        rw [ParseM.peekAny, lexing_eq] at hact
        cases hrun : LexM.peekAny s.lexer with
        | ok u l =>
          rw [hrun] at hact
          cases hact
          simp only [Move.answer, Move.ask, Lexer.answer, Functor.map, EStateM.map, hrun]
        | error e l => rw [hrun] at hact; cases hact
      | error e s₁ =>
        rw [bind_of_error hact] at herr
        cases herr
        obtain ⟨front, m, leaves, hmoves, _, htells⟩ := hlook.fault s f s' hP hs hmode hact
        obtain ⟨rfl, hm⟩ := List.append_eq_singleton_iff.mp hmoves.symm |>.resolve_right
          fun h => absurd h.2 (List.cons_ne_nil _ _)
        cases hm
        exact htells

theorem fail (hplain : mode.Plain) (expected : Expected) :
    (Drive.fail expected : Drive source P (ParseM.fail expected : ParseM α)).Blames limit mode :=
  refuse (fun _ _ => rfl) (fun _ _ => rfl) fun t s f s' l herr hs hl hanswer => by
    cases herr
    rw [hs, ← hl]
    exact .syntactic hanswer (by rw [hl]; exact hplain)

theorem tooDeep : (Drive.tooDeep limit : Drive source P _).Blames limit mode :=
  refuse (fun _ _ => rfl) (fun _ _ => rfl) fun t s f s' l herr hs hl hanswer => by
    cases herr
    exact .tooDeep hanswer

/-- A drive of a computation under another name. -/
theorem cast {act' : ParseM α} (h : act' = act) {d : Drive source P act}
    (hd : d.Blames limit mode) :
    (Eq.mpr (congrArg (Drive source P) h) d : Drive source P act').Blames limit mode := by
  subst h
  exact hd

theorem branch {c : Prop} [Decidable c] {yes no : ParseM α} {first : Drive source P yes}
    {second : Drive source P no} (hyes : c → first.Blames limit mode)
    (hno : ¬ c → second.Blames limit mode) : (first.branch second : Drive source P (if c then yes else no)).Blames limit mode := by
  by_cases hc : c
  · rw [show first.branch second = _ from dif_pos hc]
    exact (hyes hc).cast (if_pos hc)
  · rw [show first.branch second = _ from dif_neg hc]
    exact (hno hc).cast (if_neg hc)

theorem orFail (hplain : mode.Plain) {expected : Expected} {c : Prop} [Decidable c]
    {act : ParseM β} {d : ∀ {P}, Drive source P act}
    (hd : ∀ {P}, (d : Drive source P act).Blames limit mode) :
    (Drive.orFail d : Drive source P
      (if c then ParseM.fail expected >>= fun _ : PUnit => act else act)).Blames limit mode :=
  branch (fun _ => (fail hplain expected).bind fun _ => hd) fun _ => hd

theorem descend : (Drive.descend limit : Drive source P _).Blames limit mode :=
  setting.bind fun _ => branch (fun _ => tooDeep) fun _ => still fun _ _ _ => nofun

/-! ### Settings -/

/-- What a run stops at is not changed by what is put back. -/
theorem fault_ensuring {body : Drive source P act} {leave : ParseM Unit}
    (h : body.Blames limit mode) (out : Drive source (fun _ => True) leave)
    (hout : ∀ s, ∀ u ∈ out.moves s, u = .leave)
    (hleave : ∀ s f s', leave s ≠ .error (.fault f) s') {s s' : ParseState} {f : Fault} (hP : P s)
    (hs : s.lexer.Current source) (hmode : s.lexer.mode = mode)
    (herr : ShellGrammar.ensuring act leave s = .error (.fault f) s') :
    Stops limit s.lexer ((Drive.ensuring body out).moves s) f := by
  have hact : ∃ s₁, act s = .error (.fault f) s₁ := by
    rw [ShellGrammar.ensuring] at herr
    cases hact : act s with
    | ok a s₁ =>
      rw [hact] at herr
      cases hout : leave s₁ with
      | ok u s₂ => simp only [hout] at herr; cases herr
      | error e s₂ => simp only [hout] at herr; cases herr; exact absurd hout (hleave _ _ _)
    | error e s₁ =>
      rw [hact] at herr
      cases hout : leave s₁ with
      | ok u s₂ => simp only [hout] at herr; cases herr; exact ⟨s₁, rfl⟩
      | error e s₂ => simp only [hout] at herr; cases herr; exact absurd hout (hleave _ _ _)
  obtain ⟨s₁, hact⟩ := hact
  exact (h.fault s f s₁ hP hs hmode hact).before (hout _)

/-- What is put back does not concern the lexer. -/
theorem closing {body : Drive source P act} {leave : ParseM Unit}
    {hstill : ∀ s, (finalState (leave s)).lexer = s.lexer} (h : body.Blames limit mode)
    (hleave : ∀ s f s', leave s ≠ .error (.fault f) s') :
    (Drive.ensuring body (.still hstill)).Blames limit mode := by
  refine ⟨fun s => ?_, fun s f s' hP hs hmode herr =>
    h.fault_ensuring (.still hstill) (fun _ _ hu => absurd hu List.not_mem_nil) hleave hP hs hmode herr⟩
  have hkeeps := h.keeps s
  unfold ShellGrammar.ensuring
  cases hact : act s with
  | ok a s₁ =>
    rw [hact] at hkeeps
    have hout := hstill s₁
    dsimp only
    cases hl : leave s₁ <;> · rw [hl] at hout; exact (congrArg Lexer.modes hout).trans hkeeps
  | error e s₁ =>
    rw [hact] at hkeeps
    have hout := hstill s₁
    dsimp only
    cases hl : leave s₁ <;> · rw [hl] at hout; exact (congrArg Lexer.modes hout).trans hkeeps

theorem nested {d : ParseM Unit} {opens : Drive source P d}
    {body : Drive source (fun _ => True) act} (hopens : opens.Blames limit mode)
    (h : body.Blames limit mode) : (Drive.nested opens body).Blames limit mode :=
  hopens.bind fun _ => h.closing fun s f s' herr => by
    rw [ParseM.ascend] at herr
    split at herr <;> cases herr

theorem folding {body : Drive source (fun _ => True) act} (h : body.Blames limit mode) :
    (Drive.folding body : Drive source P _).Blames limit mode :=
  setting.bind fun _ => h.closing fun _ _ _ herr => by cases herr

theorem inList {closer : Closer} {body : Drive source (fun _ => True) act}
    (h : body.Blames limit mode) : (Drive.inList closer body : Drive source P _).Blames limit mode :=
  setting.bind fun _ => (still fun _ _ _ herr => by cases herr).bind fun _ =>
    h.closing fun _ _ _ herr => by cases herr

theorem withRules {rules : Rules} {allowBlank : Bool} {body : Drive source (fun _ => True) act}
    (h : body.Blames limit ⟨rules, allowBlank⟩) :
    (Drive.withRules rules allowBlank body : Drive source P _).Blames limit mode := by
  have henter : ∀ s : ParseState, lexing (modify (Lexer.enter rules allowBlank)) s =
      .ok () { s with lexer := s.lexer.enter rules allowBlank } := fun _ => rfl
  have hleave : ∀ s f s', lexing LexM.leave s ≠ .error (.fault f) s' := by
    intro s f s' herr
    rw [lexing_eq, LexM.leave] at herr
    cases hl : s.lexer.leave? <;> simp only [hl] at herr <;> cases herr
  refine ⟨fun s => ?_, fun s f s' _ hs _ herr => ?_⟩
  · rw [ParseM.withRules, bind_of_ok (henter s)]
    have hkeeps := h.keeps { s with lexer := s.lexer.enter rules allowBlank }
    have hout : ∀ s₂, s₂.lexer.modes = (s.lexer.enter rules allowBlank).modes →
        ∃ l, lexing LexM.leave s₂ = .ok () { s₂ with lexer := l } ∧ l.modes = s.lexer.modes := by
      intro s₂ hs₂
      obtain ⟨l, hsome, hmodes, _⟩ := Lexer.leave?_of_modes
        (hs₂.trans (Lexer.modes_enter s.lexer rules allowBlank))
      exact ⟨l, by simp only [lexing_eq, LexM.leave, hsome], hmodes⟩
    cases hact : act { s with lexer := s.lexer.enter rules allowBlank } with
    | ok a s₂ =>
      rw [hact] at hkeeps
      obtain ⟨l, hl, hmodes⟩ := hout s₂ hkeeps
      rw [ensuring_of_ok hact hl]
      exact hmodes
    | error e s₂ =>
      rw [hact] at hkeeps
      obtain ⟨l, hl, hmodes⟩ := hout s₂ hkeeps
      rw [ensuring_of_error hact hl]
      exact hmodes
  · rw [ParseM.withRules, bind_of_ok (henter s)] at herr
    have hmode : (s.lexer.enter rules allowBlank).mode = ⟨rules, allowBlank⟩ := by
      rw [Lexer.mode, Lexer.modes_enter]
      rfl
    have hne : Move.leave ≠ .back := by
      intro hback
      cases hback
    have hends := h.fault_ensuring (free .leave rfl hne)
      (fun _ _ hu => List.mem_singleton.mp hu) hleave trivial (hs.enter rules allowBlank) hmode herr
    exact Stops.after (l := s.lexer) (hends : Stops limit (s.lexer.run [.enter rules allowBlank]) _ f)

/-! ### Loops, alternatives and chains -/

theorem skipNewlines (bound : Nat) :
    (Drive.skipNewlines bound : Drive source P _).Blames limit mode := by
  induction bound generalizing P with
  | zero => exact breached .outOfSteps
  | succ bound ih =>
    refine (next _).bind fun o => ?_
    cases o with
    | none => exact pure ()
    | some t => exact ih

theorem gather {step : ParseM (Option α)} {d : ∀ {P}, Drive source P step}
    (h : ∀ {P}, (d : Drive source P step).Blames limit mode) (bound : Nat) :
    (Drive.gather d bound : Drive source P _).Blames limit mode := by
  induction bound generalizing P with
  | zero => exact breached .outOfSteps
  | succ bound ih =>
    refine h.bind fun o => ?_
    cases o with
    | none => exact pure []
    | some a => exact ih.bind fun _ => pure _

theorem alternative {first : ParseM (Option α)} {others : List (ParseM (Option α))}
    {d : Drive source P first} {dothers : Drive source (fun _ => True) (ParseM.firstOf others)}
    (h : d.Blames limit mode) (hothers : dothers.Blames limit mode) :
    (Drive.alternative d dothers).Blames limit mode := by
  refine h.bind fun o => ?_
  cases o with
  | none => exact hothers
  | some a => exact pure (some a)

section Chains
variable {operator : ParseM (Option β)} {operand : β → ParseM Node}
  {join : β → Node → Node → Node} {doperator : ∀ {P}, Drive source P operator}
  {doperand : ∀ op {P}, Drive source P (operand op)}

theorem chainRest {opens : ParseM Unit} {dopens : ∀ {P}, Drive source P opens}
    (hopens : ∀ {P}, (dopens : Drive source P opens).Blames limit mode)
    (hoperator : ∀ {P}, (doperator : Drive source P operator).Blames limit mode)
    (hoperand : ∀ op {P}, (doperand op : Drive source P (operand op)).Blames limit mode)
    (bound : Nat) (left : Node) :
    (Drive.chainRest dopens doperator doperand bound left :
      Drive source P (ParseM.chainRest opens operator operand join bound left)).Blames limit mode := by
  induction bound generalizing left P with
  | zero => exact breached .outOfSteps
  | succ bound ih =>
    refine hoperator.bind fun o => ?_
    cases o with
    | none => exact pure left
    | some op => exact hopens.bind fun _ => (hoperand op).bind fun _ => ih _

theorem chain {g : Grammar} {first : ParseM Node} {dopens : ∀ {P}, Drive source P g.descend}
    {dfirst : ∀ {P}, Drive source P first}
    (hopens : ∀ {P}, (dopens : Drive source P g.descend).Blames limit mode)
    (hfirst : ∀ {P}, (dfirst : Drive source P first).Blames limit mode)
    (hoperator : ∀ {P}, (doperator : Drive source P operator).Blames limit mode)
    (hoperand : ∀ op {P}, (doperand op : Drive source P (operand op)).Blames limit mode) :
    (Drive.chain dopens dfirst doperator doperand :
      Drive source P (ParseM.chain g first operator operand join)).Blames limit mode :=
  folding (hfirst.bind fun left => chainRest hopens hoperator hoperand g.steps left)

end Chains

end Blames
end Drive

/-! ### Productions -/

/-- The productions that a grammar gives to others tell their faults by their last look. Those
that refuse text themselves do so in a plain mode. -/
structure Grammar.Driven.Blaming {g : Grammar} (limit : Nat) (d : g.Driven source) : Prop where
  descend : ∀ {P mode}, (d.descend (P := P)).Blames limit mode
  doubleQuoted : ∀ {P mode}, (d.doubleQuoted (P := P)).Blames limit mode
  parameter : ∀ {P mode}, (d.parameter (P := P)).Blames limit mode
  arithExpansion : ∀ {P mode}, (d.arithExpansion (P := P)).Blames limit mode
  nestedList : ∀ closer {P mode}, (d.nestedList closer (P := P)).Blames limit mode
  arith : ∀ {P mode}, mode.Plain → (d.arith (P := P)).Blames limit mode
  assignment : ∀ {P mode}, mode.Plain → (d.assignment (P := P)).Blames limit mode
  ternary : ∀ {P mode}, mode.Plain → (d.ternary (P := P)).Blames limit mode
  binary : ∀ min {P mode}, mode.Plain → (d.binary min (P := P)).Blames limit mode
  power : ∀ {P mode}, mode.Plain → (d.power (P := P)).Blames limit mode
  unary : ∀ {P mode}, mode.Plain → (d.unary (P := P)).Blames limit mode

namespace Grammar.Driven.Blaming
open Drive
variable {g : Grammar} {limit : Nat} {d : g.Driven source} {P : ParseState → Prop} {mode : Mode}

/-! Arithmetic. -/

theorem primary (h : d.Blaming limit) (hplain : mode.Plain) :
    (d.primary (P := P)).Blames limit mode := by
  refine (Blames.next primaryStart).andThen fun o => ?_
  cases o with
  | none => exact .fail hplain _
  | some t =>
    obtain ⟨kind, origin, blank, body⟩ := t
    cases kind
    case number | ident | dollarName => exact Blames.pure _
    case lparen =>
      exact h.descend.nested ((h.arith hplain).bind fun _ => (Blames.next _).bind fun _ =>
        .orFail hplain (.pure _))
    case dollarBrace => exact h.descend.nested h.parameter
    case dollarParen2 => exact h.descend.nested h.arithExpansion
    case dollarParen => exact (h.descend.nested (h.nestedList _)).bind fun _ => .pure _
    all_goals exact Blames.back.bind fun _ => .fail hplain _

theorem postOperand (h : d.Blaming limit) (hplain : mode.Plain) :
    (d.postOperand (P := P)).Blames limit mode := by
  refine (h.primary hplain).bind fun _ => (Blames.next _).bind fun o => ?_
  cases o <;> exact .pure _

theorem unaryOperand (h : d.Blaming limit) (hplain : mode.Plain) :
    (d.unaryOperand (P := P)).Blames limit mode := by
  refine (Blames.next _).bind fun o => ?_
  cases o with
  | none => exact h.postOperand hplain
  | some op => exact (h.descend.nested (h.unary hplain)).bind fun _ => .pure _

theorem powerOperand (h : d.Blaming limit) (hplain : mode.Plain) :
    (d.powerOperand (P := P)).Blames limit mode := by
  refine (h.unaryOperand hplain).bind fun _ => (Blames.next _).bind fun o => ?_
  cases o with
  | none => exact .pure _
  | some op => exact (h.descend.nested (h.power hplain)).bind fun _ => .pure _

theorem binaryOperator (min : Nat) :
    (Driven.binaryOperator min : Drive source P _).Blames limit mode := by
  refine (Blames.peek _).bind fun o => ?_
  cases o with
  | none => exact .pure _
  | some t =>
    obtain ⟨kind, origin, blank, body⟩ := t
    cases kind
    all_goals first
      | exact Blames.pure _
      | exact .branch (fun _ => .pure _) fun _ => (Blames.next _).bind fun _ => .pure _

theorem binaryOperand (h : d.Blaming limit) (hplain : mode.Plain) (min : Nat) :
    (d.binaryOperand min (P := P)).Blames limit mode :=
  .chain h.descend (h.powerOperand hplain) (binaryOperator min) fun _ => h.binary _ hplain

theorem ternaryOperand (h : d.Blaming limit) (hplain : mode.Plain) :
    (d.ternaryOperand (P := P)).Blames limit mode :=
  (h.binaryOperand hplain 0).bind fun _ => (Blames.next _).bind fun _ =>
    .branch (fun _ => .pure _) fun _ =>
      (h.descend.nested (h.arith hplain)).bind fun _ => (Blames.next _).bind fun _ =>
        .orFail hplain ((h.descend.nested (h.ternary hplain)).bind fun _ => .pure _)

theorem assignmentOperand (h : d.Blaming limit) (hplain : mode.Plain) :
    (d.assignmentOperand (P := P)).Blames limit mode := by
  refine (Blames.next _).andThen fun o => ?_
  cases o with
  | none => exact h.ternaryOperand hplain
  | some name =>
    refine (Blames.next _).andThen fun o => ?_
    cases o with
    | none => exact Blames.back.bind fun _ => h.ternaryOperand hplain
    | some op => exact (h.descend.nested (h.assignment hplain)).bind fun _ => .pure _

theorem expression (h : d.Blaming limit) (hplain : mode.Plain) :
    (d.expression (P := P)).Blames limit mode :=
  .chain h.descend (h.assignmentOperand hplain) ((Blames.next _).bind fun _ => .pure _)
    fun _ => h.assignmentOperand hplain

/-! Words. -/

theorem piece (h : d.Blaming limit) (adjacent : Bool) :
    (d.piece adjacent (P := P)).Blames limit mode := by
  refine Blames.pieceStartHere.bind fun kinds => (Blames.look adjacent kinds).andThen fun o => ?_
  cases o with
  | none => exact .pure _
  | some t =>
    refine (Blames.next []).andThen fun _ => ?_
    obtain ⟨kind, origin, blank, body⟩ := t
    cases kind
    case str | singleQuote | dollarName => exact Blames.pure _
    case doubleQuote => exact (h.descend.nested h.doubleQuoted).bind fun _ => .pure _
    case dollarBrace => exact (h.descend.nested h.parameter).bind fun _ => .pure _
    case dollarParen2 => exact (h.descend.nested h.arithExpansion).bind fun _ => .pure _
    case dollarParen | backquote | inParen | outParen =>
      exact (h.descend.nested (h.nestedList _)).bind fun _ => .pure _
    all_goals exact Blames.back.bind fun _ => .pure _

theorem word (h : d.Blaming limit) : (d.word (P := P)).Blames limit mode := by
  refine (h.piece false).bind fun o => ?_
  cases o with
  | none => exact .pure _
  | some first => exact (Blames.gather (h.piece true) _).bind fun _ => .pure _

theorem payload (h : d.Blaming limit) (rules : Rules) :
    (d.payload rules (P := P)).Blames limit mode :=
  (Blames.withRules h.word).bind fun _ => .pure _

theorem quotedPiece (h : d.Blaming limit) (hplain : mode.Plain) :
    (d.quotedPiece (P := P)).Blames limit mode := by
  refine (Blames.next _).bind fun _ => .branch (fun _ => .pure _) fun _ => ?_
  refine (h.piece false).bind fun o => ?_
  cases o with
  | none => exact .fail hplain _
  | some p => exact .pure _

theorem doubleQuotedRest (h : d.Blaming limit) :
    (d.doubleQuotedRest (P := P)).Blames limit mode :=
  .withRules ((Blames.gather (h.quotedPiece (.inl rfl)) _).bind fun _ => .pure _)

theorem arithExpansionRest (h : d.Blaming limit) :
    (d.arithExpansionRest (P := P)).Blames limit mode := by
  refine Blames.bind (.withRules ?_) fun _ => .pure _
  refine (h.expression (.inl rfl)).bind fun _ => (Blames.accept _ _).bind fun _ => ?_
  exact .orFail (.inl rfl) (.pure _)

/-! Parameters. -/

theorem arithOperand (h : d.Blaming limit) : (d.arithOperand (P := P)).Blames limit mode :=
  .withRules (h.expression (.inl rfl))

theorem matchingNames (hplain : mode.Plain) (ref : Bool) (name text : Text) :
    (Driven.matchingNames ref name text : Drive source P _).Blames limit mode :=
  .branch (fun _ => (Blames.fail hplain _).bind fun _ => .orFail hplain (.pure _))
    fun _ => .orFail hplain (.pure _)

theorem operated (h : d.Blaming limit) (pattern : Pattern) (rules : Rules)
    (form : Text → Node → Form) :
    (d.operated pattern rules form (P := P)).Blames limit mode := by
  refine (Blames.accept _ _).bind fun o => ?_
  cases o with
  | none => exact .pure _
  | some op => exact (h.payload rules).bind fun _ => .pure _

section Forms
variable (ref : Bool) (name : Text)

theorem elementsForm :
    (Driven.elementsForm ref name : Drive source P _).Blames limit mode := by
  refine (Blames.next _).bind fun o => ?_
  cases o <;> exact .pure _

theorem substringForm (h : d.Blaming limit) :
    (d.substringForm ref name (P := P)).Blames limit mode := by
  refine (Blames.accept _ _).bind fun o => ?_
  cases o with
  | none => exact .pure _
  | some colon =>
    refine h.arithOperand.bind fun _ => (Blames.acceptPastBlank _ _).bind fun o => ?_
    cases o with
    | none => exact .pure _
    | some colon => exact h.arithOperand.bind fun _ => .pure _

theorem replacementForm (h : d.Blaming limit) :
    (d.replacementForm ref name (P := P)).Blames limit mode := by
  refine (Blames.accept _ _).bind fun o => ?_
  cases o with
  | none => exact .pure _
  | some slash =>
    refine (Blames.accept _ _).bind fun _ => (h.payload _).bind fun _ =>
      (Blames.accept _ _).bind fun o => ?_
    cases o with
    | none => exact .pure _
    | some slash => exact (h.payload _).bind fun _ => .pure _

theorem atForm (hplain : mode.Plain) :
    (Driven.atForm ref name : Drive source P _).Blames limit mode := by
  refine (Blames.accept _ _).bind fun o => ?_
  cases o with
  | none => exact .pure _
  | some mark =>
    refine (Blames.accept _ _).bind fun o => ?_
    cases o with
    | none => exact (matchingNames hplain _ _ _).bind fun _ => .pure _
    | some op => exact .pure _

theorem starForm (hplain : mode.Plain) :
    (Driven.starForm ref name : Drive source P _).Blames limit mode := by
  refine (Blames.accept _ _).bind fun o => ?_
  cases o with
  | none => exact .pure _
  | some mark => exact (matchingNames hplain _ _ _).bind fun _ => .pure _

theorem elementForm (h : d.Blaming limit) (hplain : mode.Plain) :
    (d.elementForm ref name (P := P)).Blames limit mode := by
  refine (Blames.next _).bind fun o => ?_
  cases o with
  | none => exact .pure _
  | some bracket =>
    exact h.arithOperand.bind fun _ => (Blames.acceptPastBlank _ _).bind fun _ =>
      .orFail hplain (.pure _)

theorem forms (h : d.Blaming limit) (hplain : mode.Plain) :
    (d.forms ref name (P := P)).Blames limit mode :=
  .alternative (elementsForm ref name) <|
  .alternative (h.operated _ _ _) <|
  .alternative (h.substringForm ref name) <|
  .alternative (h.operated _ _ _) <|
  .alternative (h.operated _ _ _) <|
  .alternative (h.replacementForm ref name) <|
  .alternative (atForm ref name hplain) <|
  .alternative (starForm ref name hplain) <|
  .alternative (h.elementForm ref name hplain) (.pure none)

end Forms

theorem head (hplain : mode.Plain) : (Driven.head : Drive source P _).Blames limit mode := by
  refine (Blames.accept _ _).bind fun _ => (Blames.accept _ _).bind fun _ =>
    (Blames.next _).bind fun o => ?_
  cases o with
  | some t => exact .pure _
  | none =>
    exact .branch (fun _ => (Blames.peek _).bind fun _ =>
      .branch (fun _ => .pure _) fun _ => .fail hplain _) fun _ => .fail hplain _

theorem parameterBody (h : d.Blaming limit) (hplain : mode.Plain) :
    (d.parameterBody (P := P)).Blames limit mode :=
  (head hplain).bind fun _ => .branch (fun _ => .pure _) fun _ =>
    (h.forms _ _ hplain).bind fun _ => .pure _

theorem parameterRest (h : d.Blaming limit) : (d.parameterRest (P := P)).Blames limit mode :=
  .withRules <| (h.parameterBody (.inr rfl)).bind fun _ =>
    .branch (fun _ => (Blames.acceptPastBlank _ _).bind fun _ => .orFail (.inr rfl) (.pure _))
      fun _ => (Blames.next _).bind fun _ => .orFail (.inr rfl) (.pure _)

/-! Commands. -/

theorem assignment? (h : d.Blaming limit) : (d.assignment? (P := P)).Blames limit mode := by
  refine (Blames.accept _ _).bind fun o => ?_
  cases o with
  | none => exact .pure _
  | some head => exact (Blames.withRules h.word).bind fun _ => .pure _

theorem simpleCommand (h : d.Blaming limit) (hplain : mode.Plain) :
    (d.simpleCommand (P := P)).Blames limit mode :=
  (Blames.gather h.assignment? _).bind fun _ => (Blames.gather h.word _).bind fun _ =>
    .orFail hplain (.pure _)

theorem commandOperator (kinds : List Kind) :
    (Driven.commandOperator g kinds : Drive source P _).Blames limit mode := by
  refine (Blames.next _).bind fun o => ?_
  cases o with
  | none => exact .pure _
  | some op => exact (Blames.skipNewlines _).bind fun _ => .pure _

theorem acceptBang : (Driven.acceptBang : Drive source P _).Blames limit mode := by
  refine (Blames.peek _).andThen fun o => ?_
  cases o with
  | none => exact .pure _
  | some t =>
    refine .branch (fun _ => ?_) fun _ => .pure _
    refine (Blames.next []).andThen fun _ => Blames.pieceStartHere.andThen fun kinds =>
      (Blames.peekAdjacent kinds).andThen fun _ => ?_
    exact .branch (fun _ => Blames.back.bind fun _ => .pure _) fun _ => .pure _

theorem pipeline (h : d.Blaming limit) (hplain : mode.Plain) :
    (d.pipeline (P := P)).Blames limit mode :=
  acceptBang.bind fun _ => (Blames.chain h.descend (h.simpleCommand hplain) (commandOperator _)
    fun _ => h.simpleCommand hplain).bind fun _ => .pure _

theorem andOr (h : d.Blaming limit) (hplain : mode.Plain) :
    (d.andOr (P := P)).Blames limit mode :=
  .chain h.descend (h.pipeline hplain) (commandOperator _) fun _ => h.pipeline hplain

theorem entry (h : d.Blaming limit) (hplain : mode.Plain) :
    (d.entry (P := P)).Blames limit mode :=
  (h.andOr hplain).bind fun _ => (Blames.next _).bind fun _ => .pure _

theorem entries (h : d.Blaming limit) (hplain : mode.Plain) (closer : Closer) (bound : Nat) :
    (d.entries closer bound (P := P)).Blames limit mode := by
  induction bound generalizing P with
  | zero => exact .breached _
  | succ bound ih =>
    exact (Blames.skipNewlines _).bind fun _ => (Blames.peek _).bind fun _ =>
      .branch (fun _ => .pure _) fun _ => (h.entry hplain).bind fun _ =>
        .branch (fun _ => ih.bind fun _ => .pure _) fun _ => .pure _

theorem list (h : d.Blaming limit) (hplain : mode.Plain) (closer : Closer) :
    (d.list closer (P := P)).Blames limit mode :=
  (h.entries hplain closer _).bind fun _ => (Blames.next _).bind fun _ =>
    .orFail hplain (.pure _)

theorem nestedListRest (h : d.Blaming limit) (closer : Closer) :
    (d.nestedListRest closer (P := P)).Blames limit mode :=
  .inList (.withRules (h.list (.inl rfl) closer))

end Grammar.Driven.Blaming

/-- So do the productions of every level. -/
theorem Grammar.driven_blaming (source : Text) (limit levels : Nat) :
    (Grammar.driven source limit levels).Blaming limit := by
  induction levels with
  | zero =>
    exact {
      descend := .descend
      doubleQuoted := .breached _
      parameter := .breached _
      arithExpansion := .breached _
      nestedList := fun _ => .breached _
      arith := fun _ => .breached _
      assignment := fun _ => .breached _
      ternary := fun _ => .breached _
      binary := fun _ _ _ _ => .breached _
      power := fun _ => .breached _
      unary := fun _ => .breached _ }
  | succ levels ih =>
    exact {
      descend := .descend
      doubleQuoted := ih.doubleQuotedRest
      parameter := ih.parameterRest
      arithExpansion := ih.arithExpansionRest
      nestedList := fun closer => ih.nestedListRest closer
      arith := fun hplain => ih.expression hplain
      assignment := fun hplain => ih.assignmentOperand hplain
      ternary := fun hplain => ih.ternaryOperand hplain
      binary := fun min _ _ hplain => ih.binaryOperand hplain min
      power := fun hplain => ih.powerOperand hplain
      unary := fun hplain => ih.unaryOperand hplain }

/-- A parse that stops at a fault ends with a look that tells it, and leaves the rule sets it
is in. -/
theorem parse_blames {options : Options} {source : Text} {f : Fault}
    (h : parse options source = .error (.fault f)) :
    Drive.Stops options.maxDepth (.ofText source) (parseMoves options source) f := by
  obtain ⟨s, hs⟩ := parse_eq_error_iff.mp h
  exact ((Grammar.driven_blaming source options.maxDepth (source.length + 1)).list (.inl rfl)
    .endOfSource).fault (.ofText source) f s trivial (Lexer.current_ofText source) rfl hs

end ShellGrammar
