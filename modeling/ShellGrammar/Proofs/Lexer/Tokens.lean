import ShellGrammar.Proofs.Grammar.Cursor

/-! Reading a source to its end.

A lexer that reads token by token under one rule set keeps a buffer and a cursor, and enters the rule
set before and leaves it behind. What it reads is what the table cuts off the text, one token after the
other, each from where the last one ended (`tokenize_eq_ok_iff`). -/
namespace ShellGrammar
open LexM (Ending)

variable {rules : Rules} {allowBlank : Bool} {source : Text}

namespace Rules

/-- The tokens that a table cuts off from a place on, at most so many, and why there are no more. -/
def tokensFrom (rules : Rules) (allowBlank : Bool) : (bound : Nat) → Scan → Option (List Token × Ending)
  | 0, _ => none
  | bound + 1, place =>
    match rules.tokenAt place with
    | .error f => some ([], .fault f)
    | .ok t =>
      if t.isVisible [] allowBlank then
        if t.kind = .eos then some ([t], .eos)
        else (tokensFrom rules allowBlank bound t.after).map fun r => (t :: r.1, r.2)
      else some ([], .hidden)

end Rules

namespace LexM
open Lexer

/-- The next token of a current lexer is what its table cuts off where it stands. -/
theorem next_here {l : Lexer} (h : l.Current source) :
    match l.mode.rules.tokenAt l.here with
    | .error f => ∃ l', next [] l = .error (.fault f) l' ∧ l'.modes = l.modes
    | .ok t =>
      if t.isVisible [] l.mode.allowBlank then
        ∃ l', next [] l = .ok (some t) l' ∧ l'.Current source ∧ l'.modes = l.modes ∧ l'.here = t.after
      else ∃ l', next [] l = .ok none l' ∧ l'.modes = l.modes := by
  rw [next_eq]
  obtain ⟨t, l', hok, hlooked, ht⟩ | ⟨f, herr, hf⟩ := peekAny_here h
  · obtain ⟨rest, hahead⟩ := hlooked.ahead
    rw [ht, hok]
    simp only [hlooked.mode]
    split
    · have hcurrent := (hlooked.fresh h).consume hahead
      refine ⟨_, rfl, hcurrent, hlooked.modes, hcurrent.toTiled.here_of_consumed (l := l) ?_⟩
      rw [consumed_consume hahead, hlooked.consumed]
    · exact ⟨_, rfl, hlooked.modes⟩
  · rw [hf, herr]
    exact ⟨l, rfl, rfl⟩

/-- Reading on under a rule set yields the tokens that the table cuts off, unless it goes on for too
long. -/
theorem readAll_here {l : Lexer} (h : l.Current source) (bound : Nat) :
    match l.mode.rules.tokensFrom l.mode.allowBlank bound l.here with
    | some r => ∃ l', readAll bound l = .ok r l' ∧ l'.modes = l.modes
    | none => ∃ b l', readAll bound l = .error (.breach b) l' := by
  induction bound generalizing l with
  | zero => exact ⟨_, _, rfl⟩
  | succ bound ih =>
    have hnext := next_here h
    rw [Rules.tokensFrom, readAll]
    cases ht : l.mode.rules.tokenAt l.here with
    | error f =>
      rw [ht] at hnext
      obtain ⟨l', hnext, hmodes⟩ := hnext
      simp only [hnext]
      exact ⟨l', rfl, hmodes⟩
    | ok t =>
      rw [ht] at hnext
      by_cases hvisible : t.isVisible [] l.mode.allowBlank = true
      · simp only [hvisible, if_true] at hnext ⊢
        obtain ⟨l', hnext, hcurrent, hmodes, hhere⟩ := hnext
        have hmode : l'.mode = l.mode := congrArg (·.headD .base) hmodes
        simp only [hnext]
        by_cases heos : t.kind = .eos
        · simp only [heos, if_true]
          exact ⟨l', rfl, hmodes⟩
        · simp only [heos, if_false]
          have hrest := ih hcurrent
          rw [hmode, hhere] at hrest
          cases hfrom : l.mode.rules.tokensFrom l.mode.allowBlank bound t.after with
          | none =>
            rw [hfrom] at hrest
            obtain ⟨b, l'', hrest⟩ := hrest
            exact ⟨b, l'', by simp only [Functor.map, EStateM.map, hrest]⟩
          | some r =>
            rw [hfrom] at hrest
            obtain ⟨l'', hrest, hmodes'⟩ := hrest
            exact ⟨l'', by simp only [Functor.map, EStateM.map, hrest], hmodes'.trans hmodes⟩
      · simp only [hvisible] at hnext ⊢
        obtain ⟨l', hnext, hmodes⟩ := hnext
        simp only [hnext]
        exact ⟨l', rfl, hmodes⟩

end LexM

/-- The tokens of a source are those that the table cuts off it, one behind the other. -/
theorem tokenize_eq_ok_iff {r : List Token × Ending} :
    tokenize rules allowBlank source = .ok r ↔
      rules.tokensFrom allowBlank (source.length + 1) (.ofText source) = some r := by
  let l := (Lexer.ofText source).enter rules allowBlank
  have hcurrent : l.Current source := (Lexer.current_ofText source).enter rules allowBlank
  have hmodes : l.modes = [⟨rules, allowBlank⟩] := Lexer.modes_enter _ _ _
  have hmode : l.mode = ⟨rules, allowBlank⟩ := congrArg (·.headD .base) hmodes
  have hread := LexM.readAll_here hcurrent (source.length + 1)
  have hhere : l.here = .ofText source := rfl
  rw [hmode, hhere] at hread
  have henter : LexM.useRules rules allowBlank (LexM.readAll (source.length + 1)) (.ofText source) =
      ensuring (LexM.readAll (source.length + 1)) LexM.leave l := rfl
  rw [tokenize, henter]
  cases hfrom : rules.tokensFrom allowBlank (source.length + 1) (.ofText source) with
  | none =>
    simp only [hfrom] at hread
    obtain ⟨b, l', hread⟩ := hread
    simp only [ensuring, hread]
    cases LexM.leave l' <;> simp
  | some r' =>
    simp only [hfrom] at hread
    obtain ⟨l', hread, hmodes'⟩ := hread
    obtain ⟨l'', hleave, -⟩ := Lexer.leave?_of_modes (hmodes'.trans hmodes)
    have hleaves : LexM.leave l' = .ok () l'' := by simp only [LexM.leave, hleave]
    rw [ensuring_of_ok hread hleaves]
    simp

end ShellGrammar
