import ShellGrammar.Parse
import ShellGrammar.Proofs.Grammar.Command

/-! Runs of whole scripts.

The productions of every level yield what they should, by induction on the level. So
there is one number of levels for a script that says everything about limits: a limit
from there on changes nothing, and a lower one refuses a level. A script that parses has
a derivation with that number, whatever the limit was. -/
namespace ShellGrammar
open ParseM

/-- The productions of every level yield what they should. -/
theorem sound_level (source : Text) (levels : Nat) :
    Sound source fun d => Grammar.level d levels := by
  induction levels with
  | zero =>
    refine ⟨fun _ => rfl, ⟨0, fun _ => rfl⟩, ?_, ?_, ?_, ?_, ?_, ?_, ?_, ?_, ?_, ?_⟩ <;>
      intros <;> exact Runs.breached .outOfSteps
  | succ n ih =>
    exact
      { descend := fun _ => rfl
        steps := ⟨n + 1, fun _ => rfl⟩
        doubleQuoted := fun _ => ih.doubleQuotedRest
        parameter := fun _ => ih.parameterRest
        arithExpansion := fun _ => ih.arithExpansionRest
        nestedList := fun _ => ih.nestedListRest
        arith := fun _ => ih.expression
        assignment := fun _ => ih.assignmentOperand
        ternary := fun _ => ih.ternaryOperand
        binary := fun _ => ih.binaryOperand
        power := fun _ => ih.powerOperand
        unary := fun _ => ih.unaryOperand }

/-- The context outside every construct. -/
def Context.script : Context := ⟨.base, false⟩

/-- A parse of a script in which levels are opened by `descend`. -/
def runWith (descend : ParseM Unit) (source : Text) : EStateM.Result (Halt Fault) ParseState Node :=
  Grammar.list (Grammar.level descend (source.length + 1)) .endOfSource (.ofText source)

theorem run_eq (options : Options) (source : Text) :
    run options source = runWith (descend options.maxDepth) source := rfl

theorem run_zero (source : Text) : run ⟨0⟩ source = runWith unlimited source := by
  rw [run_eq, descend_zero]

theorem parse_congr {options options' : Options} {source : Text}
    (h : run options source = run options' source) : parse options source = parse options' source := by
  unfold parse
  generalize run options source = outcome at h
  rw [h]

theorem parse_eq_ok_iff {options : Options} {source : Text} {t : Node} :
    parse options source = .ok t ↔ ∃ s, run options source = .ok t s := by
  unfold parse
  generalize run options source = outcome
  cases outcome with
  | ok u s => simp
  | error e s => simp

theorem parse_eq_error_iff {options : Options} {source : Text} {e : Halt Fault} :
    parse options source = .error e ↔ ∃ s, run options source = .error e s := by
  unfold parse
  generalize run options source = outcome
  cases outcome with
  | ok u s => simp
  | error e s => simp

/-- As an option, the outcome of a parse can be compared with a tree. -/
theorem parse_of_toOption {options : Options} {source : Text} {t : Node}
    (h : (parse options source).toOption = some t) : parse options source = .ok t := by
  cases hparse : parse options source with
  | ok u =>
    rw [hparse] at h
    exact congrArg Except.ok (Option.some.inj h)
  | error e =>
    rw [hparse] at h
    cases h

/-- So can why a parse stopped, with a reason to stop. -/
theorem parse_of_stop {options : Options} {source : Text} {e : Halt Fault}
    (h : (match parse options source with
      | .ok _ => none
      | .error e => some e) = some e) : parse options source = .error e := by
  cases hparse : parse options source with
  | ok u =>
    rw [hparse] at h
    cases h
  | error e' =>
    rw [hparse] at h
    exact congrArg Except.error (Option.some.inj h)

/-! ### Levels of a script -/

/-- With `limit` levels, a parse of a script is refused one at `place`: whatever a refusal
makes of the state it is in, it makes of `place`. -/
def RefusedAt (limit : Nat) (source : Text) (place : ParseState) : Prop :=
  ∀ r : Refusal, ∃ s, runWith (descendOr limit r.act) source = .error (r.halt place) s

/-- The most levels that are open at once in a parse of a script without a limit. -/
structure ScriptPeaks (source : Text) (peak : Nat) : Prop where
  within : ∀ limit refuse, 0 < limit → peak ≤ limit →
    runWith (descendOr limit refuse) source = runWith unlimited source
  beyond : ∀ limit, 0 < limit → limit < peak →
    ∃ place, place.Reading source ∧ RefusedAt limit source place
  derives : ∀ t s, runWith unlimited source = .ok t s →
    s.lexer.Current source ∧ Derives .script (.list .endOfSource) [t] s.lexer.consumed peak

/-- Every script has a peak. -/
theorem exists_scriptPeaks (source : Text) : ∃ peak, ScriptPeaks source peak := by
  obtain ⟨n, hpeak, hends⟩ := (sound_level source (source.length + 1)).list .endOfSource
    (.ofText source) (Lexer.current_ofText source) (c := .script) rfl
  have hzero : (ParseState.ofText source).depth + n = n := Nat.zero_add n
  rw [hzero] at hpeak
  refine ⟨n, hpeak.within, fun limit hpos hlt => ?_, fun t s hrun => ?_⟩
  · obtain ⟨place, hat, hplace⟩ := hpeak.beyond limit hpos (Nat.zero_le limit) hlt
    refine ⟨place, hat, fun r => ?_⟩
    obtain ⟨s, hs, _⟩ := hplace r
    exact ⟨s, hs⟩
  · have hended : Ends source (.ofText source)
      (fun a ts => Derives .script (.list .endOfSource) [a] ts n) (runWith unlimited source) := hends
    rw [hrun] at hended
    obtain ⟨hcurrent, _, ts, hts, hderives⟩ := hended
    have hnone : (ParseState.ofText source).lexer.consumed = [] := rfl
    rw [hnone, List.nil_append] at hts
    rw [hts]
    exact ⟨hcurrent, hderives⟩

/-! ### The fault of a limit -/

namespace LexM

/-- A computation that leaves the modes, in whatever state the lexer is. -/
def KeepsModes {α : Type} (act : LexM α) : Prop :=
  ∀ l, (∃ a l', act l = .ok a l' ∧ l'.modes = l.modes) ∨
    ∃ e l', act l = .error e l' ∧ l'.modes = l.modes

theorem KeepsModes.bind {α β : Type} {act : LexM α} {k : α → LexM β} (h : KeepsModes act)
    (hk : ∀ a, KeepsModes (k a)) : KeepsModes (act >>= k) := by
  intro l
  obtain ⟨a, l₁, hok, h₁⟩ | ⟨e, l₁, herr, h₁⟩ := h l
  · rw [bind_of_ok hok, ← h₁]
    exact hk a l₁
  · exact .inr ⟨e, l₁, bind_of_error herr, h₁⟩

theorem keepsModes_current : KeepsModes current := by
  intro l
  unfold current
  split
  · exact .inl ⟨_, l, rfl, rfl⟩
  · exact .inr ⟨_, l, rfl, rfl⟩

theorem keepsModes_cutSource (lengths : List Nat) : KeepsModes (cutSource lengths) := by
  intro l
  unfold cutSource
  split
  · exact .inl ⟨_, l, rfl, rfl⟩
  · exact .inr ⟨_, l, rfl, rfl⟩

theorem keepsModes_noteSpan (start stop : Position) : KeepsModes (noteSpan start stop) := by
  intro l
  unfold noteSpan
  split
  · exact .inl ⟨_, l, rfl, rfl⟩
  · exact .inr ⟨_, l, rfl, rfl⟩

theorem keepsModes_produce : KeepsModes produce := by
  intro l
  refine ((keepsModes_cutSource _).bind fun _ => ?_) l
  cases l.mode.rules.tokenAt l.scan with
  | ok t =>
    refine (keepsModes_cutSource _).bind fun _ => (keepsModes_noteSpan _ _).bind fun _ l => ?_
    exact .inl ⟨_, _, rfl, rfl⟩
  | error f => exact (keepsModes_noteSpan _ _).bind fun _ l => .inr ⟨_, l, rfl, rfl⟩

/-- Looking at a token leaves the modes, in whatever state the lexer is. -/
theorem modes_peekAny : KeepsModes peekAny := by
  intro l
  unfold peekAny
  split
  · exact keepsModes_current l
  · exact (keepsModes_produce.bind fun _ => keepsModes_current) l

end LexM

/-- Failing for want of a level, as a refusal. -/
def tooDeepRefusal (limit : Nat) : Refusal where
  halt s :=
    match LexM.peekAny s.lexer with
    | .ok t _ => .fault (.atToken (.tooDeep limit) t)
    | .error e _ => e.map .ofLexFault
  after s :=
    match LexM.peekAny s.lexer with
    | .ok _ l | .error _ l => { s with lexer := l }
  keeps s := by
    obtain ⟨t, l, h, hmodes⟩ | ⟨e, l, h, hmodes⟩ := LexM.modes_peekAny s.lexer
    · rw [h]
      exact ⟨hmodes, rfl, rfl⟩
    · rw [h]
      exact ⟨hmodes, rfl, rfl⟩

theorem tooDeepRefusal_act (limit : Nat) : (tooDeepRefusal limit).act = tooDeep limit := by
  funext s
  show EStateM.Result.error ((tooDeepRefusal limit).halt s) ((tooDeepRefusal limit).after s) = _
  simp only [tooDeepRefusal, tooDeep]
  cases h : LexM.peekAny s.lexer with
  | ok t l =>
    have hpeek : ParseM.peekAny s = .ok t { s with lexer := l } := by
      rw [ParseM.peekAny, lexing_eq, h]
    rw [bind_of_ok hpeek]
    rfl
  | error e l =>
    have hpeek : ParseM.peekAny s = .error (e.map .ofLexFault) { s with lexer := l } := by
      rw [ParseM.peekAny, lexing_eq, h]
    rw [bind_of_error hpeek]

/-! ### What a limit does to a parse -/

theorem ScriptPeaks.run_of_le {source : Text} {peak : Nat} (h : ScriptPeaks source peak)
    {limit : Nat} (hpos : 0 < limit) (hle : peak ≤ limit) :
    run ⟨limit⟩ source = run ⟨0⟩ source := by
  rw [run_zero]
  exact h.within limit (tooDeep limit) hpos hle

/-- A refused level stops a parse at the token there. -/
theorem RefusedAt.run_eq {limit : Nat} {source : Text} {place : ParseState}
    (h : RefusedAt limit source place) :
    ∃ s, run ⟨limit⟩ source = .error ((tooDeepRefusal limit).halt place) s := by
  obtain ⟨s, hs⟩ := h (tooDeepRefusal limit)
  rw [tooDeepRefusal_act] at hs
  exact ⟨s, hs⟩

/-- What parses with a limit parses the same way without one. -/
theorem run_unlimited {options : Options} {source : Text} {t : Node} {s : ParseState}
    (h : run options source = .ok t s) : run ⟨0⟩ source = .ok t s := by
  obtain ⟨peak, hpeak⟩ := exists_scriptPeaks source
  obtain ⟨limit⟩ := options
  rcases Nat.eq_zero_or_pos limit with rfl | hpos
  · exact h
  · rcases Nat.lt_or_ge limit peak with hlt | hle
    · obtain ⟨place, _, hplace⟩ := hpeak.beyond limit hpos hlt
      obtain ⟨s', hs'⟩ := hplace.run_eq
      rw [hs'] at h
      cases h
    · rw [← hpeak.run_of_le hpos hle]
      exact h

/-- A script that parses has a derivation, with as many levels as the limit has to allow. -/
theorem run_derives {options : Options} {source : Text} {t : Node} {s : ParseState}
    (h : run options source = .ok t s) : ∃ peak, ScriptPeaks source peak ∧
      s.lexer.Current source ∧ Derives .script (.list .endOfSource) [t] s.lexer.consumed peak := by
  obtain ⟨peak, hpeak⟩ := exists_scriptPeaks source
  have hrun := run_unlimited h
  rw [run_zero] at hrun
  exact ⟨peak, hpeak, hpeak.derives t s hrun⟩

end ShellGrammar
