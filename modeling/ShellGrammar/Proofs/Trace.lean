import ShellGrammar.Proofs.Drive
import ShellGrammar.Proofs.Safety

/-! What a parse reports is the truth about the rule sets in force.

A reader of the trace who knows nothing but the events can tell at each of them which rule
sets are in force: `Event.replay` follows an event from the modes before it to those after it,
and follows it only if the depth, the rule set and the number of dropped tokens that it reports
are the right ones. One lexer `Reports` another if the events logged between the two lead from
the modes of the one to those of the other. Every move reports what it does
(`Move.reports_after`), hence any run of moves does (`Lexer.reports_run`), and a parse is a run
of moves: after each of them, the events so far tell the rule sets in force (`trace_tells`). At
its end no rule set is entered, at whichever fault it stops. So the events of a parse are a
balanced word, with the two that frame it outside (`trace_bracketed`). -/
namespace ShellGrammar

/-! ### Replaying events -/

namespace Event

/-- The modes after an event that reports the truth about the modes before it. A rule set that
is entered is counted in the depth, a rule set that is left is not, and the outermost rules
count as one. The events that frame a parse are about no rule set. -/
def replay (modes : List Mode) : Event → Option (List Mode)
  | pushRules rules allowBlank depth =>
    let entered := ⟨rules, allowBlank⟩ :: modes
    if depth = 1 + entered.length then some entered else none
  | popRules rules depth =>
    match modes with
    | [] => none
    | _ :: left =>
      if rules = (left.headD .base).rules ∧ depth = 1 + left.length then some left else none
  | discardLookahead dropped => if 0 < dropped then some modes else none
  | parsing _ | parsed _ => none

end Event

/-- The events follow each other from no rule set entered to none, and each tells the truth. -/
def Balanced (events : List Event) : Prop := events.foldlM Event.replay [] = some []

instance (events : List Event) : Decidable (Balanced events) :=
  inferInstanceAs (Decidable (_ = _))

/-- Every one of balanced events leads from some modes to others. -/
theorem Balanced.replayed {events : List Event} (h : Balanced events) {e : Event}
    (he : e ∈ events) : ∃ modes modes', e.replay modes = some modes' := by
  obtain ⟨front, rest, rfl⟩ := List.append_of_mem he
  rw [Balanced, List.foldlM_append] at h
  obtain ⟨modes, -, hrest⟩ := Option.bind_eq_some_iff.mp h
  obtain ⟨modes', he', -⟩ := Option.bind_eq_some_iff.mp hrest
  exact ⟨modes, modes', he'⟩

/-! ### Lexers -/

namespace Lexer
variable {l l' l'' : Lexer}

/-- What was logged between two lexers leads from the modes of the first to those of the
second. -/
def Reports (l l' : Lexer) : Prop :=
  ∃ events, l'.log.reverse = l.log.reverse ++ events ∧
    events.foldlM Event.replay l.modes = some l'.modes

/-- Nothing is logged where no rule set is entered or left. -/
theorem Reports.still (hlog : l'.log = l.log) (hmodes : l'.modes = l.modes) : l.Reports l' :=
  ⟨[], by rw [hlog, List.append_nil], by rw [hmodes]; rfl⟩

theorem Reports.refl (l : Lexer) : l.Reports l := .still rfl rfl

theorem Reports.trans (h : l.Reports l') (h' : l'.Reports l'') : l.Reports l'' := by
  obtain ⟨events, hlog, hmodes⟩ := h
  obtain ⟨later, hlog', hmodes'⟩ := h'
  refine ⟨events ++ later, ?_, ?_⟩
  · rw [hlog', hlog, List.append_assoc]
  · rw [List.foldlM_append, hmodes]
    exact hmodes'

/-- One event is enough if it leads on from the modes before it. -/
theorem Reports.event {e : Event} (hlog : l'.log = e :: l.log)
    (he : e.replay l.modes = some l'.modes) : l.Reports l' := by
  refine ⟨[e], by rw [hlog, List.reverse_cons], ?_⟩
  rw [List.foldlM_cons, he]
  rfl

theorem reports_discard (l : Lexer) : l.Reports l.discard := by
  unfold Lexer.discard
  cases hget : l.tokens[l.next]? with
  | none => exact .refl l
  | some first =>
    obtain ⟨hlt, -⟩ := Array.getElem?_eq_some_iff.mp hget
    exact .event rfl (if_pos (Nat.sub_pos_of_lt hlt))

theorem reports_enter (l : Lexer) (rules : Rules) (allowBlank : Bool) :
    l.Reports (l.enter rules allowBlank) := by
  refine l.reports_discard.trans (.event rfl (if_pos ?_))
  show l.discard.modes.length + 1 + 1 = 1 + (l.discard.modes.length + 1)
  exact Nat.add_comm _ _

/-- The rule set that is left is the one entered last. What was read ahead is dropped before
the leaving is reported. -/
theorem reports_leave? (hleave : l.leave? = some l') : l.Reports l' := by
  unfold Lexer.leave? at hleave
  cases hmodes : l.modes with
  | nil => simp only [hmodes, reduceCtorEq] at hleave
  | cons m left =>
    simp only [hmodes, Option.some.injEq] at hleave
    subst hleave
    have hlast : l.Reports { l.discard with modes := m :: left } :=
      l.reports_discard.trans (.still rfl ((modes_discard l).trans hmodes).symm)
    have hlog : ({ l with modes := left } : Lexer).discard.log = l.discard.log := by
      unfold Lexer.discard
      cases l.tokens[l.next]? <;> rfl
    have hreplay : Event.replay (m :: left)
        (.popRules ({ l with modes := left } : Lexer).discard.mode.rules
          ({ l with modes := left } : Lexer).discard.depth) =
          some ({ l with modes := left } : Lexer).discard.modes := by
      rw [mode, depth, modes_discard]
      exact if_pos ⟨rfl, Nat.add_comm _ _⟩
    exact hlast.trans (.event (congrArg (_ :: ·) hlog) hreplay)

end Lexer

/-! ### Moves -/

namespace LexM
variable {α β : Type} {act : LexM α}

/-- Whichever way the computation ends, it reports what it did. -/
def Reporting (act : LexM α) : Prop := ∀ l : Lexer, l.Reports (Lexer.after act l)

theorem Reporting.bind {k : α → LexM β} (h : Reporting act) (hk : ∀ a, Reporting (k a)) :
    Reporting (act >>= k) := by
  intro l
  have hfirst := h l
  unfold Lexer.after at hfirst ⊢
  cases hact : act l with
  | ok a l' =>
    rw [hact] at hfirst
    rw [bind_of_ok hact]
    exact hfirst.trans (hk a l')
  | error e l' =>
    rw [hact] at hfirst
    rw [bind_of_error hact]
    exact hfirst

theorem Reporting.get_bind {k : Lexer → LexM β} (h : ∀ l, Reporting (k l)) :
    Reporting (get >>= k) :=
  fun l => h l l

theorem reporting_modify {f : Lexer → Lexer} (hf : ∀ l : Lexer, l.Reports (f l)) :
    Reporting (modify f) := hf

/-- A computation that leaves the lexer alone reports nothing. -/
theorem reporting_of_still (h : ∀ l, Lexer.after act l = l) : Reporting act := by
  intro l
  rw [h l]
  exact .refl l

theorem reporting_pure (a : α) : Reporting (pure a) := reporting_of_still fun _ => rfl

theorem reporting_throw (e : Halt LexFault) : Reporting (throw e : LexM α) :=
  reporting_of_still fun _ => rfl

theorem reporting_current : Reporting current := by
  refine reporting_of_still fun l => ?_
  unfold Lexer.after current
  cases l.tokens[l.next]? <;> rfl

theorem reporting_cutSource (lengths : List Nat) : Reporting (cutSource lengths) := by
  refine reporting_of_still fun l => ?_
  unfold Lexer.after cutSource
  cases l.scan.isCut && lengths.all l.scan.has <;> rfl

theorem reporting_noteSpan (start stop : Position) : Reporting (noteSpan start stop) := by
  refine reporting_of_still fun l => ?_
  unfold Lexer.after noteSpan
  cases Span.between? start.offset stop.offset <;> rfl

theorem reporting_keep (t : Token) : Reporting (keep t) :=
  (reporting_cutSource _).bind fun _ => (reporting_noteSpan _ _).bind fun _ =>
    reporting_modify fun _ => .still rfl rfl

theorem reporting_consume : Reporting (modify Lexer.consume) :=
  reporting_modify fun _ => .still rfl rfl

theorem reporting_produce : Reporting produce := by
  refine .get_bind fun l => (reporting_cutSource _).bind fun _ => ?_
  cases l.mode.rules.tokenAt l.scan with
  | ok t => exact reporting_keep t
  | error f => exact (reporting_noteSpan _ _).bind fun _ => reporting_throw _

theorem reporting_peekAny : Reporting peekAny := by
  intro l
  by_cases hlt : l.next < l.tokens.size
  · simp only [Lexer.after, peekAny, if_pos hlt]
    exact reporting_current l
  · simp only [Lexer.after, peekAny, if_neg hlt]
    exact reporting_produce.bind (fun _ => reporting_current) l

theorem reporting_peek (kinds : List Kind) : Reporting (peek kinds) :=
  reporting_peekAny.bind fun _ => .get_bind fun _ => reporting_pure _

theorem reporting_next (kinds : List Kind) : Reporting (next kinds) := by
  refine (reporting_peek kinds).bind fun o => ?_
  cases o with
  | none => exact reporting_pure _
  | some t => exact reporting_consume.bind fun _ => reporting_pure _

theorem reporting_peekAdjacent (kinds : List Kind) : Reporting (peekAdjacent kinds) :=
  reporting_peekAny.bind fun _ => reporting_pure _

theorem reporting_back : Reporting back := by
  intro l
  unfold Lexer.after back
  cases l.next with
  | zero => exact .refl l
  | succ n => exact .still rfl rfl

theorem reporting_acceptWith (pattern : Pattern) (kind : Kind) (allowBlank : Bool) :
    Reporting (acceptWith pattern kind allowBlank) := by
  refine (reporting_modify Lexer.reports_discard).bind fun _ => .get_bind fun l => ?_
  refine (reporting_cutSource _).bind fun _ => ?_
  cases l.mode.rules.takeAt pattern kind allowBlank l.scan with
  | none => exact reporting_pure _
  | some t =>
    exact (reporting_keep t).bind fun _ => reporting_consume.bind fun _ => reporting_pure _

theorem reporting_leave : Reporting leave := by
  intro l
  unfold Lexer.after leave
  cases hleave : l.leave? with
  | none => exact .refl l
  | some l' => exact Lexer.reports_leave? hleave

end LexM

/-- A move reports what it does. -/
theorem Move.reports_after (m : Move) (l : Lexer) : l.Reports (m.after l) := by
  cases m with
  | peek kinds => exact LexM.reporting_peek kinds l
  | next kinds => exact LexM.reporting_next kinds l
  | peekAny => exact LexM.reporting_peekAny l
  | peekAdjacent kinds => exact LexM.reporting_peekAdjacent kinds l
  | back => exact LexM.reporting_back l
  | accept pattern kind =>
    exact LexM.Reporting.get_bind (fun _ => LexM.reporting_acceptWith pattern kind _) l
  | acceptWith pattern kind allowBlank => exact LexM.reporting_acceptWith pattern kind allowBlank l
  | enter rules allowBlank => exact l.reports_enter rules allowBlank
  | leave => exact LexM.reporting_leave l

/-- So does any run of moves. -/
theorem Lexer.reports_run (moves : List Move) (l : Lexer) : l.Reports (l.run moves) := by
  induction moves generalizing l with
  | nil => exact .refl l
  | cons m rest ih => exact (m.reports_after l).trans (ih (m.after l))

/-! ### Parses -/

/-- After any number of its moves a parse has reported them, and it reports the others later. -/
theorem reports_lexerAfter (options : Options) (source : Text) (count : Nat) :
    (Lexer.ofText source).Reports (lexerAfter options source count) ∧
      (lexerAfter options source count).Reports (finalState (run options source)).lexer := by
  refine ⟨Lexer.reports_run _ _, ?_⟩
  rw [← lexerAfter_all, lexerAfter, lexerAfter, List.take_length,
    ← List.take_append_drop count (parseMoves options source), Lexer.run_append,
    List.take_append_drop]
  exact Lexer.reports_run _ _

/-- A parse reports the truth and ends with no rule set entered, at whichever fault it stops. -/
theorem balanced_run (options : Options) (source : Text) :
    Balanced (finalState (run options source)).lexer.log.reverse := by
  obtain ⟨hbefore, hafter⟩ := reports_lexerAfter options source 0
  obtain ⟨events, hlog, hmodes⟩ := hbefore.trans hafter
  have hleft : (finalState (run options source)).lexer.modes = [] :=
    ((restoring_level (opens_descend options.maxDepth) (source.length + 1)).list .endOfSource
      (.ofText source)).modes
  rw [hleft] at hmodes
  rw [hlog]
  exact hmodes

/-- What a list production yields is a list. -/
theorem body_of_list {g : Grammar} {closer : Closer} {n : Node} {s s' : ParseState}
    (h : Grammar.list g closer s = .ok n s') : ∃ body, n = .list body := by
  obtain ⟨body, s₁, -, hclose⟩ := ok_of_bind h
  obtain ⟨t, s₂, -, hend⟩ := ok_of_bind hclose
  cases t with
  | some t =>
    cases hend
    exact ⟨body, rfl⟩
  | none =>
    obtain ⟨_, s₃, -, hreturn⟩ := ok_of_bind hend
    cases hreturn
    exact ⟨body, rfl⟩

theorem trace_of_ok {options : Options} {source : Text} {n : Node} {s : ParseState}
    (h : run options source = .ok n s) :
    trace options source =
      .parsing (Text.bytes source) :: (s.lexer.log.reverse ++ [.parsed n.children.length]) := by
  rw [trace, h]

theorem trace_of_error {options : Options} {source : Text} {e : Halt Fault} {s : ParseState}
    (h : run options source = .error e s) :
    trace options source = .parsing (Text.bytes source) :: s.lexer.log.reverse := by
  rw [trace, h]

/-- **The events are about the rule sets in force.** After any number of the moves of a parse the
events so far lead from no rule set entered to the modes in force, and the trace goes on from
there. -/
theorem trace_tells (options : Options) (source : Text) (count : Nat) :
    let l := lexerAfter options source count
    l.log.reverse.foldlM Event.replay [] = some l.modes ∧
      ∃ later, trace options source =
        .parsing (Text.bytes source) :: (l.log.reverse ++ later) := by
  intro l
  obtain ⟨⟨events, hlog, hmodes⟩, ⟨rest, hrest, -⟩⟩ := reports_lexerAfter options source count
  constructor
  · rw [hlog]
    exact hmodes
  · cases hrun : run options source with
    | ok n s =>
      rw [hrun] at hrest
      exact ⟨rest ++ [.parsed n.children.length], by
        rw [trace_of_ok hrun, show s.lexer.log.reverse = _ from hrest, List.append_assoc]⟩
    | error e s =>
      rw [hrun] at hrest
      exact ⟨rest, by rw [trace_of_error hrun, show s.lexer.log.reverse = _ from hrest]⟩

/-- **The trace of a parse is well bracketed.** It starts with the size of the source, and it
ends with the number of entries if and only if there is a tree. In between stands nothing but a
balanced word of rule sets entered and left, with the tokens that were dropped. -/
theorem trace_bracketed (options : Options) (source : Text) :
    ∃ events, Balanced events ∧ (∀ n, Event.parsing n ∉ events ∧ Event.parsed n ∉ events) ∧
      ((∃ body, parse options source = .ok (.list body) ∧
          trace options source =
            .parsing (Text.bytes source) :: (events ++ [.parsed body.length])) ∨
        (∃ f, parse options source = .error (.fault f) ∧
          trace options source = .parsing (Text.bytes source) :: events)) := by
  have hbalanced := balanced_run options source
  refine ⟨_, hbalanced, fun n => ⟨fun hn => ?_, fun hn => ?_⟩, ?_⟩
  · obtain ⟨modes, modes', hreplay⟩ := hbalanced.replayed hn
    cases hreplay
  · obtain ⟨modes, modes', hreplay⟩ := hbalanced.replayed hn
    cases hreplay
  clear hbalanced
  cases hrun : run options source with
  | ok n s =>
    obtain ⟨body, rfl⟩ := body_of_list hrun
    exact .inl ⟨body, parse_eq_ok_iff.mpr ⟨s, hrun⟩, trace_of_ok hrun⟩
  | error e s =>
    obtain ⟨f, rfl⟩ := fault_of_run hrun
    exact .inr ⟨f, parse_eq_error_iff.mpr ⟨s, hrun⟩, trace_of_error hrun⟩

/-- The quoted text is not closed: the rules for it are left at the fault. -/
example : trace ⟨64⟩ ['a', '"', 'b'] =
    [.parsing 3, .discardLookahead 1, .pushRules .doubleQuote true 2, .discardLookahead 1,
      .popRules .command 1] := by decide +kernel

end ShellGrammar
