import ShellGrammar.Proofs.Lexer.Tiling

/-! What reading does to a lexer.

All readers look at the token at the cursor first, so each is given by the outcome
of `peekAny` (`peek_eq`, `next_eq`, `peekAdjacent_eq`), and on a tiled lexer that
outcome is one of two: the token stands ahead, or the text is at fault and the
lexer is as it was (`peekAny_cases`). No promise can be broken by reading alone.

A lexer is `Current` when, besides, everything ahead was read under the rules now in
force. Then what is read next does not depend on what was looked at before: it is
the token that the rules in force cut off where the consumed tokens end. -/
namespace ShellGrammar

namespace Lexer

/-- Tiled, and what stands ahead was read under the rules in force. -/
structure Current (source : Text) (l : Lexer) : Prop extends l.Tiled source where
  fresh : ∀ t ∈ l.ahead, l.mode.rules.tokenAt t.origin = .ok t

theorem current_ofText (source : Text) : Current source (.ofText source) :=
  ⟨tiled_ofText source, fun _ ht => nomatch ht⟩

/-- A tiled lexer with nothing ahead is current under any rules. -/
theorem Tiled.current {source : Text} {l : Lexer} (h : l.Tiled source) (ha : l.ahead = []) :
    l.Current source :=
  ⟨h, fun t ht => by rw [ha] at ht; cases ht⟩

theorem Current.consume {source : Text} {l : Lexer} (h : l.Current source) {t : Token}
    {rest : List Token} (ha : l.ahead = t :: rest) : l.consume.Current source := by
  refine ⟨h.toTiled.consume ha, fun u hu => ?_⟩
  rw [ahead_consume ha] at hu
  exact h.fresh u (by rw [ha]; exact List.mem_cons_of_mem t hu)

theorem Current.enter {source : Text} {l : Lexer} (h : l.Current source) (rules : Rules)
    (allowBlank : Bool) : (l.enter rules allowBlank).Current source :=
  (h.toTiled.enter rules allowBlank).current (ahead_discard l)

theorem modes_enter (l : Lexer) (rules : Rules) (allowBlank : Bool) :
    (l.enter rules allowBlank).modes = ⟨rules, allowBlank⟩ :: l.modes := by
  show _ :: l.discard.modes = _
  rw [modes_discard]

/-- With a rule set to leave, the lexer leaves it for the ones around it. -/
theorem leave?_of_modes {l : Lexer} {m : Mode} {modes : List Mode} (hm : l.modes = m :: modes) :
    ∃ l', l.leave? = some l' ∧ l'.modes = modes ∧ l'.consumed = l.consumed ∧ l'.ahead = [] ∧
      ∀ source, l.Tiled source → l'.Tiled source := by
  have hsome : ∃ l', l.leave? = some l' := by
    unfold leave?
    rw [hm]
    exact ⟨_, rfl⟩
  obtain ⟨l', hl'⟩ := hsome
  obtain ⟨m', modes', log, hm', rfl⟩ := leave?_cases hl'
  rw [hm] at hm'
  cases hm'
  exact ⟨_, hl', rfl, consumed_discard l, ahead_discard l, fun _ h => h.discard.withModes _ _⟩

end Lexer

namespace LexM
open Lexer

/-! ### The readers in terms of the token at the cursor -/

theorem peek_eq (kinds : List Kind) (l : Lexer) :
    peek kinds l =
      match peekAny l with
      | .ok t l' => .ok (if t.isVisible kinds l'.mode.allowBlank then some t else none) l'
      | .error e l' => .error e l' := by
  simp only [peek, bind, EStateM.bind]
  cases peekAny l <;> rfl

theorem peekAdjacent_eq (kinds : List Kind) (l : Lexer) :
    peekAdjacent kinds l =
      match peekAny l with
      | .ok t l' => .ok (if t.isVisible kinds false then some t else none) l'
      | .error e l' => .error e l' := by
  simp only [peekAdjacent, bind, EStateM.bind]
  cases peekAny l <;> rfl

theorem next_eq (kinds : List Kind) (l : Lexer) :
    next kinds l =
      match peekAny l with
      | .ok t l' =>
        if t.isVisible kinds l'.mode.allowBlank then .ok (some t) l'.consume else .ok none l'
      | .error e l' => .error e l' := by
  simp only [next, bind, EStateM.bind, peek_eq]
  cases peekAny l with
  | ok t l' =>
    by_cases hv : t.isVisible kinds l'.mode.allowBlank = true
    · simp only [hv, if_true]
      rfl
    · simp only [hv]
      rfl
  | error e l' => rfl

theorem accept_eq (pattern : Pattern) (kind : Kind) (l : Lexer) :
    accept pattern kind l = acceptWith pattern kind l.mode.allowBlank l := rfl

/-! ### The token at the cursor -/

theorem peekAny_of_ahead {l : Lexer} {t : Token} {rest : List Token} (ha : l.ahead = t :: rest) :
    peekAny l = .ok t l := by
  have hget : l.tokens[l.next]? = some t := by
    rw [getElem?_next, ha]
    rfl
  have hlt : l.next < l.tokens.size := by
    obtain ⟨hlt, _⟩ := Array.getElem?_eq_some_iff.mp hget
    exact hlt
  simp only [peekAny, if_pos hlt, current, hget]

/-- A lexer that stands on a source cuts it between characters. -/
theorem cutSource_eq {source : Text} {l : Lexer} (h : l.scan.On source) {lengths : List Nat}
    (hin : ∀ n ∈ lengths, n ≤ l.scan.rest.length) : cutSource lengths l = .ok () l := by
  have hall : lengths.all l.scan.has = true :=
    List.all_eq_true.mpr fun n hn => Scan.has_iff.mpr (hin n hn)
  rw [cutSource, h.isCut, hall]
  rfl

theorem noteSpan_eq {start stop : Position} (h : start.offset ≤ stop.offset) (l : Lexer) :
    noteSpan start stop l = .ok () l := by
  simp only [noteSpan, Span.between?, if_pos h]

theorem keep_eq {source : Text} {l : Lexer} (h : l.scan.On source) {t : Token}
    (ho : t.origin = l.scan) (hf : t.Fits) : keep t l = .ok () (l.buffer t) := by
  have hin : ∀ n ∈ [t.blank.length, t.blank.length + t.body.length],
      n ≤ l.scan.rest.length := by
    have hle := hf.length_le
    rw [Token.text, List.length_append, ho] at hle
    simp only [List.mem_cons, List.not_mem_nil, or_false, forall_eq_or_imp, forall_eq]
    omega
  have hspan : t.start.offset ≤ t.stop.offset := by
    rw [Token.stop, Position.offset_advance]
    exact Nat.le_add_right _ _
  rw [keep, bind_of_ok (cutSource_eq h hin), bind_of_ok (noteSpan_eq hspan l)]
  rfl

theorem produce_eq {source : Text} {l : Lexer} (h : l.scan.On source) :
    produce l =
      match l.mode.rules.tokenAt l.scan with
      | .ok t => .ok () (l.buffer t)
      | .error f => .error (.fault f) l := by
  have hget : (get : LexM Lexer) l = .ok l l := rfl
  have hin : ∀ n ∈ [l.mode.rules.blankLength l.scan.rest, l.mode.rules.skipLength l.scan],
      n ≤ l.scan.rest.length := by
    have hblank := Rules.blankLength_le l.mode.rules l.scan.rest
    have hskip := Rules.skipLength_le l.mode.rules l.scan
    simp only [List.mem_cons, List.not_mem_nil, or_false, forall_eq_or_imp, forall_eq]
    exact ⟨hblank, hskip⟩
  rw [produce, bind_of_ok hget, bind_of_ok (cutSource_eq h hin)]
  cases ht : l.mode.rules.tokenAt l.scan with
  | ok t =>
    obtain ⟨ho, hf⟩ := Rules.tokenAt_fits ht
    exact keep_eq h ho hf
  | error f =>
    have hspan : f.start.offset ≤ f.stop.offset := by
      rw [LexFault.stop, Position.offset_step]
      exact Nat.le_add_right _ _
    exact bind_of_ok (noteSpan_eq hspan l)

theorem peekAny_of_nil {source : Text} {l : Lexer} (h : l.Tiled source) (ha : l.ahead = []) :
    peekAny l =
      match l.mode.rules.tokenAt l.scan with
      | .ok t => .ok t (l.buffer t)
      | .error f => .error (.fault f) l := by
  have hge : ¬ l.next < l.tokens.size := by
    have := next_eq_size h ha
    omega
  have hproduce := produce_eq h.on
  rw [peekAny, if_neg hge]
  cases ht : l.mode.rules.tokenAt l.scan with
  | error f =>
    rw [ht] at hproduce
    exact bind_of_error hproduce
  | ok t =>
    rw [ht] at hproduce
    have hget : (l.buffer t).tokens[(l.buffer t).next]? = some t := by
      rw [getElem?_next, ahead_buffer h, ha]
      rfl
    rw [bind_of_ok hproduce]
    simp only [current, hget]

/-- What there is to know of a lexer after a look at the token at the cursor. -/
structure Looked (source : Text) (l : Lexer) (t : Token) (l' : Lexer) : Prop where
  tiled : l'.Tiled source
  consumed : l'.consumed = l.consumed
  modes : l'.modes = l.modes
  ahead : ∃ rest, l'.ahead = t :: rest
  fresh : l.Current source → l'.Current source

theorem Looked.mode {source : Text} {l l' : Lexer} {t : Token} (h : Looked source l t l') :
    l'.mode = l.mode := by
  rw [Lexer.mode, h.modes]
  rfl

theorem peekAny_cases {source : Text} {l : Lexer} (h : l.Tiled source) :
    (∃ t l', peekAny l = .ok t l' ∧ Looked source l t l') ∨
    (∃ f, peekAny l = .error (.fault f) l ∧ l.mode.rules.tokenAt l.scan = .error f) := by
  cases ha : l.ahead with
  | cons t rest =>
    exact .inl ⟨t, l, peekAny_of_ahead ha, h, rfl, rfl, ⟨rest, ha⟩, fun hc => hc⟩
  | nil =>
    rw [peekAny_of_nil h ha]
    cases ht : l.mode.rules.tokenAt l.scan with
    | error f => exact .inr ⟨f, rfl, rfl⟩
    | ok t =>
      obtain ⟨ho, hf⟩ := Rules.tokenAt_fits ht
      have hahead : (l.buffer t).ahead = [t] := by rw [ahead_buffer h, ha]; rfl
      refine .inl ⟨t, l.buffer t, rfl, h.buffer ho hf, consumed_buffer h t, rfl, ⟨[], hahead⟩, ?_⟩
      intro _
      refine ⟨h.buffer ho hf, fun u hu => ?_⟩
      rw [hahead, List.mem_singleton] at hu
      rw [hu, ho]
      exact ht

/-- Taking a token of a given shape leaves nothing ahead, and consumes the token if
it is there. -/
theorem acceptWith_cases {source : Text} {l : Lexer} (h : l.Tiled source) (pattern : Pattern)
    (kind : Kind) (allowBlank : Bool) :
    (acceptWith pattern kind allowBlank l = .ok none l.discard ∧
      l.mode.rules.takeAt pattern kind allowBlank l.discard.scan = none) ∨
    (∃ t l', acceptWith pattern kind allowBlank l = .ok (some t) l' ∧
      l.mode.rules.takeAt pattern kind allowBlank l.discard.scan = some t ∧
      l'.Tiled source ∧ l'.consumed = l.consumed ++ [t] ∧ l'.modes = l.modes ∧ l'.ahead = []) := by
  have hd := h.discard
  have hdiscard : (modify Lexer.discard : LexM PUnit) l = .ok () l.discard := rfl
  have hget : (get : LexM Lexer) l.discard = .ok l.discard l.discard := rfl
  have hin : ∀ n ∈ [l.discard.mode.rules.blankLength l.discard.scan.rest],
      n ≤ l.discard.scan.rest.length := by
    intro n hn
    rw [List.mem_singleton.mp hn]
    exact Rules.blankLength_le _ _
  rw [acceptWith, bind_of_ok hdiscard, bind_of_ok hget, bind_of_ok (cutSource_eq hd.on hin)]
  cases ht : l.discard.mode.rules.takeAt pattern kind allowBlank l.discard.scan with
  | none =>
    rw [mode_discard] at ht
    exact .inl ⟨rfl, ht⟩
  | some t =>
    obtain ⟨ho, hf⟩ := Rules.takeAt_fits ht
    have hahead : (l.discard.buffer t).ahead = [t] := by
      rw [ahead_buffer hd, ahead_discard]
      rfl
    refine .inr ⟨t, (l.discard.buffer t).consume, ?_, ?_, (hd.buffer ho hf).consume hahead, ?_,
      modes_discard l, ahead_consume hahead⟩
    · exact bind_of_ok (keep_eq hd.on ho hf)
    · rw [← mode_discard]
      exact ht
    · rw [consumed_consume hahead, consumed_buffer hd, consumed_discard]

/-- Stepping back over a token that was read under the rules in force. -/
theorem back_of_consumed {source : Text} {l : Lexer} (h : l.Current source) {front : List Token}
    {t : Token} (hc : l.consumed = front ++ [t]) (ht : l.mode.rules.tokenAt t.origin = .ok t) :
    ∃ l', back l = .ok () l' ∧ l'.Current source ∧ l'.consumed = front ∧ l'.modes = l.modes := by
  have hlength := length_consumed h.toTiled
  rw [hc, List.length_append, List.length_singleton] at hlength
  have htokens : l.tokens.toList = front ++ (t :: l.ahead) := by
    rw [← consumed_append_ahead, hc, List.append_assoc]
    rfl
  have hahead : Lexer.ahead { l with next := front.length } = t :: l.ahead := by
    show l.tokens.toList.drop front.length = _
    rw [htokens, List.drop_left]
  refine ⟨{ l with next := front.length }, ?_, ⟨⟨?_, h.tiles⟩, fun u hu => ?_⟩, ?_, rfl⟩
  · simp only [back, ← hlength]
  · have := h.cursor_le
    show front.length ≤ l.tokens.size
    omega
  · rw [hahead] at hu
    rcases List.mem_cons.mp hu with rfl | hu
    · exact ht
    · exact h.fresh u hu
  · show l.tokens.toList.take front.length = front
    rw [htokens, List.take_left]

end LexM

end ShellGrammar
