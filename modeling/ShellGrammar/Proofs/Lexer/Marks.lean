import ShellGrammar.Proofs.Lexer.Lookahead
import ShellGrammar.Proofs.Rules.Ahead

/-! What going back to a mark restores.

A mark keeps two lengths and a scan, not the tokens themselves. Without steps back a lexer
holds at most one token ahead (`ahead_le_run`), and what was consumed at the mark is still
consumed at the reset (`consumed_run`). So all that the marked lexer was is there again,
except for the token it held ahead: that one may have been dropped since, or read again under
other rules and consumed. `reset_restores_iff` says exactly when the reset lexer answers
every later list of moves as the marked one: the token held ahead, if there was one, is still
in its place, or it was dropped and had no text to lose. -/
namespace ShellGrammar

variable {source : Text} {l l' : Lexer}

/-! ### Between a mark and its reset -/

section Ahead
variable (h : l.Tiled source)
include h

theorem Lexer.ahead_le_peekAny (hle : l.ahead.length ≤ 1) :
    (after LexM.peekAny l).ahead.length ≤ 1 := by
  unfold after
  cases ha : l.ahead with
  | cons t rest =>
    rw [LexM.peekAny_of_ahead ha]
    exact hle
  | nil =>
    rw [LexM.peekAny_of_nil h ha]
    cases l.mode.rules.tokenAt l.scan with
    | ok t =>
      show (l.buffer t).ahead.length ≤ 1
      rw [ahead_buffer h, ha]
      exact Nat.le_refl 1
    | error f => exact hle

theorem Lexer.ahead_le_next (hle : l.ahead.length ≤ 1) (kinds : List Kind) :
    (after (LexM.next kinds) l).ahead.length ≤ 1 := by
  have hlook := ahead_le_peekAny h hle
  simp only [after, LexM.next_eq] at hlook ⊢
  obtain ⟨t, l', hok, hl'⟩ | ⟨f, herr, _⟩ := LexM.peekAny_cases h
  · obtain ⟨rest, ha⟩ := hl'.ahead
    simp only [hok] at hlook ⊢
    by_cases hv : t.isVisible kinds l'.mode.allowBlank = true
    · simp only [hv, if_true, ahead_consume ha]
      rw [ha, List.length_cons] at hlook
      omega
    · simp only [hv]
      exact hlook
  · simp only [herr]
    exact hle

theorem Lexer.ahead_le_acceptWith (pattern : Pattern) (kind : Kind) (allowBlank : Bool) :
    (after (LexM.acceptWith pattern kind allowBlank) l).ahead.length ≤ 1 := by
  unfold after
  obtain ⟨hnone, _⟩ | ⟨t, l', hsome, _, _, _, _, ha⟩ :=
    LexM.acceptWith_cases h pattern kind allowBlank
  · rw [hnone]
    show l.discard.ahead.length ≤ 1
    rw [ahead_discard]
    exact Nat.zero_le 1
  · rw [hsome]
    show l'.ahead.length ≤ 1
    rw [ha]
    exact Nat.zero_le 1

/-- Only a step back makes a lexer hold more than one token ahead. -/
theorem Move.ahead_le_after (m : Move) (hm : m ≠ .back) (hle : l.ahead.length ≤ 1) :
    (m.after l).ahead.length ≤ 1 := by
  cases m with
  | peek kinds =>
    rw [after, after_peek]
    exact Lexer.ahead_le_peekAny h hle
  | next kinds => exact Lexer.ahead_le_next h hle kinds
  | peekAny => exact Lexer.ahead_le_peekAny h hle
  | peekAdjacent kinds =>
    rw [after, after_peekAdjacent]
    exact Lexer.ahead_le_peekAny h hle
  | back => exact absurd rfl hm
  | accept pattern kind => exact Lexer.ahead_le_acceptWith h pattern kind l.mode.allowBlank
  | acceptWith pattern kind allowBlank => exact Lexer.ahead_le_acceptWith h pattern kind allowBlank
  | enter rules allowBlank =>
    show l.discard.ahead.length ≤ 1
    rw [Lexer.ahead_discard]
    exact Nat.zero_le 1
  | leave =>
    simp only [after, Lexer.after, LexM.leave]
    cases hl : l.leave? with
    | none => exact hle
    | some l' =>
      obtain ⟨m, modes, log, _, rfl⟩ := Lexer.leave?_cases hl
      show l.discard.ahead.length ≤ 1
      rw [Lexer.ahead_discard]
      exact Nat.zero_le 1

end Ahead

theorem ahead_le_run (h : l.Tiled source) (hle : l.ahead.length ≤ 1) (moves : List Move)
    (hback : .back ∉ moves) : (l.run moves).ahead.length ≤ 1 := by
  induction moves generalizing l with
  | nil => exact hle
  | cons m rest ih =>
    have hm : m ≠ .back := fun he => hback (he ▸ List.mem_cons_self)
    exact ih (m.tiled_after h) (m.ahead_le_after h hm hle)
      fun hr => hback (List.mem_cons_of_mem m hr)

theorem consumed_run (h : l.Tiled source) (moves : List Move) (hback : .back ∉ moves) :
    l.consumed <+: (l.run moves).consumed := by
  induction moves generalizing l with
  | nil => exact List.prefix_refl _
  | cons m rest ih =>
    have hm : m ≠ .back := fun he => hback (he ▸ List.mem_cons_self)
    exact (m.consumed_after h hm).trans
      (ih (m.tiled_after h) fun hr => hback (List.mem_cons_of_mem m hr))

theorem current_run (h : l.Current source) (moves : List Move) (hback : .back ∉ moves) :
    (l.run moves).Current source := by
  induction moves generalizing l with
  | nil => exact h
  | cons m rest ih =>
    have hm : m ≠ .back := fun he => hback (he ▸ List.mem_cons_self)
    exact ih (m.current_after h hm) fun hr => hback (List.mem_cons_of_mem m hr)

/-! ### Lexers that differ in a token without text -/

/-- A token that any rules make of the end of a source, and that covers nothing. -/
def Token.Empty (t : Token) : Prop :=
  t.after = t.origin ∧ ∀ rules : Rules, rules.tokenAt t.origin = .ok t

/-- Two lexers with the same tokens under the same modes, but that the first may hold ahead
the end of the source, which the other has yet to read. -/
structure Trails (source : Text) (l l' : Lexer) : Prop where
  left : l.Tiled source
  right : l'.Tiled source
  modes : l'.modes = l.modes
  consumed : l'.consumed = l.consumed
  ahead : l.ahead = l'.ahead ∨ ∃ t, t.Empty ∧ l.ahead = l'.ahead ++ [t]

/-- A token without text is the end of the source, and nothing is left there. -/
theorem Rules.empty_of_text {rules : Rules} {t : Token} (h : rules.tokenAt t.origin = .ok t)
    (htext : t.text = []) : t.Empty := by
  obtain ⟨hblank, hbody⟩ := List.append_eq_nil_iff.mp htext
  obtain ⟨hdrop, heq⟩ | ⟨kind, length, hfit, heq⟩ := tokenAt_cases h
  · have htake : t.origin.rest.take (rules.skipLength t.origin) = [] := by
      rw [heq] at hblank
      exact hblank
    have hrest : t.origin.rest = [] := by
      rw [← List.take_append_drop (rules.skipLength t.origin) t.origin.rest, htake, hdrop]
      rfl
    refine ⟨?_, fun rules' => ?_⟩
    · rw [Token.after, hblank, hbody]
      rfl
    · rw [tokenAt_nil hrest, ← tokenAt_nil hrest rules, h]
  · have hlength := (length_cut kind hfit).2
    rw [← heq, hbody, List.length_nil] at hlength
    exact absurd hlength.symm (Nat.ne_of_gt (firstFit_pos hfit))

namespace Trails

theorem mode (h : Trails source l l') : l'.mode = l.mode := by
  rw [Lexer.mode, h.modes]
  rfl

theorem here (h : Trails source l l') : l'.discard.scan = l.discard.scan :=
  h.left.here_eq h.right h.consumed

/-- Looking finds the same token, and finds it ahead of both lexers, or the same fault. -/
theorem peekAny_cases (h : Trails source l l') :
    (∃ t a a' rest rest', LexM.peekAny l = .ok t a ∧ LexM.peekAny l' = .ok t a' ∧
      Trails source a a' ∧ a.ahead = t :: rest ∧ a'.ahead = t :: rest') ∨
    (∃ f, LexM.peekAny l = .error (.fault f) l ∧ LexM.peekAny l' = .error (.fault f) l') := by
  cases ha' : l'.ahead with
  | cons t rest' =>
    obtain ⟨rest, ha⟩ : ∃ rest, l.ahead = t :: rest := by
      obtain ha | ⟨e, _, ha⟩ := h.ahead
      · exact ⟨rest', ha.trans ha'⟩
      · exact ⟨rest' ++ [e], by rw [ha, ha']; rfl⟩
    exact .inl ⟨t, l, l', rest, rest', LexM.peekAny_of_ahead ha, LexM.peekAny_of_ahead ha', h,
      ha, ha'⟩
  | nil =>
    have hlook' := LexM.peekAny_of_nil h.right ha'
    rw [← Lexer.here_of_nil ha'] at hlook'
    obtain ha | ⟨e, he, ha⟩ := h.ahead
    · rw [ha'] at ha
      have hlook := LexM.peekAny_of_nil h.left ha
      rw [← Lexer.here_of_nil ha, ← h.left.here_eq h.right h.consumed, ← h.mode] at hlook
      cases ht : l'.mode.rules.tokenAt l'.here with
      | error f =>
        rw [ht] at hlook hlook'
        exact .inr ⟨f, hlook, hlook'⟩
      | ok t =>
        rw [ht] at hlook hlook'
        obtain ⟨ho, hf⟩ := Rules.tokenAt_fits ht
        have ho' : t.origin = l'.scan := ho.trans (Lexer.here_of_nil ha')
        have ho : t.origin = l.scan :=
          (ho.trans (h.left.here_eq h.right h.consumed)).trans (Lexer.here_of_nil ha)
        have hahead : (l.buffer t).ahead = [t] := by rw [Lexer.ahead_buffer h.left, ha]; rfl
        have hahead' : (l'.buffer t).ahead = [t] := by rw [Lexer.ahead_buffer h.right, ha']; rfl
        refine .inl ⟨t, _, _, [], [], hlook, hlook', ⟨h.left.buffer ho hf, h.right.buffer ho' hf,
          h.modes, ?_, .inl (hahead.trans hahead'.symm)⟩, hahead, hahead'⟩
        rw [Lexer.consumed_buffer h.left, Lexer.consumed_buffer h.right, h.consumed]
    · rw [ha'] at ha
      have ho : e.origin = l'.here := by
        rw [h.left.here_eq h.right h.consumed]
        exact (Lexer.here_of_ahead ha).symm
      have ht := he.2 l'.mode.rules
      rw [ho] at ht
      rw [ht] at hlook'
      have hahead' : (l'.buffer e).ahead = [e] := by rw [Lexer.ahead_buffer h.right, ha']; rfl
      refine .inl ⟨e, _, _, [], [], LexM.peekAny_of_ahead ha, hlook', ⟨h.left,
        h.right.buffer (ho.trans (Lexer.here_of_nil ha')) (Rules.tokenAt_fits ht).2, h.modes, ?_,
        .inl (ha.trans hahead'.symm)⟩, ha, hahead'⟩
      rw [Lexer.consumed_buffer h.right, h.consumed]

theorem consume (h : Trails source l l') {t : Token} {rest rest' : List Token}
    (ha : l.ahead = t :: rest) (ha' : l'.ahead = t :: rest') :
    Trails source l.consume l'.consume where
  left := h.left.consume ha
  right := h.right.consume ha'
  modes := h.modes
  consumed := by rw [Lexer.consumed_consume ha, Lexer.consumed_consume ha', h.consumed]
  ahead := by
    rw [Lexer.ahead_consume ha, Lexer.ahead_consume ha']
    obtain heq | ⟨e, he, heq⟩ := h.ahead
    · rw [ha, ha', List.cons.injEq] at heq
      exact .inl heq.2
    · rw [ha, ha', List.cons_append, List.cons.injEq] at heq
      exact .inr ⟨e, he, heq.2⟩

/-- Lexers with nothing ahead. -/
theorem of_nil (h : l.Tiled source) (h' : l'.Tiled source) (hm : l'.modes = l.modes)
    (hc : l'.consumed = l.consumed) (ha : l.ahead = []) (ha' : l'.ahead = []) :
    Trails source l l' :=
  ⟨h, h', hm, hc, .inl (ha.trans ha'.symm)⟩

theorem discard (h : Trails source l l') : Trails source l.discard l'.discard :=
  of_nil h.left.discard h.right.discard
    ((Lexer.modes_discard l').trans (h.modes.trans (Lexer.modes_discard l).symm))
    ((Lexer.consumed_discard l').trans (h.consumed.trans (Lexer.consumed_discard l).symm))
    (Lexer.ahead_discard l) (Lexer.ahead_discard l')

/-! ### Moves -/

/-- The answers of two lexers and what becomes of them. -/
def Agrees (source : Text) (act : LexM (Option Token)) (l l' : Lexer) : Prop :=
  Lexer.answer act l' = Lexer.answer act l ∧
    Trails source (Lexer.after act l) (Lexer.after act l')

theorem look (h : Trails source l l') (see : Token → Lexer → Option Token)
    (hsee : ∀ t a a', Trails source a a' → see t a' = see t a) {act : LexM (Option Token)}
    (hact : ∀ l, act l = match LexM.peekAny l with
      | .ok t l' => .ok (see t l') l'
      | .error e l' => .error e l') : Agrees source act l l' := by
  unfold Agrees Lexer.answer Lexer.after
  rw [hact, hact]
  obtain ⟨t, a, a', _, _, hok, hok', hlooked, _⟩ | ⟨f, herr, herr'⟩ := h.peekAny_cases
  · rw [hok, hok']
    exact ⟨congrArg Except.ok (hsee t a a' hlooked), hlooked⟩
  · rw [herr, herr']
    exact ⟨rfl, h⟩

theorem next (h : Trails source l l') (kinds : List Kind) :
    Agrees source (LexM.next kinds) l l' := by
  unfold Agrees Lexer.answer Lexer.after
  rw [LexM.next_eq, LexM.next_eq]
  obtain ⟨t, a, a', rest, rest', hok, hok', hlooked, ha, ha'⟩ | ⟨f, herr, herr'⟩ :=
    h.peekAny_cases
  · simp only [hok, hok', hlooked.mode]
    by_cases hv : t.isVisible kinds a.mode.allowBlank = true
    · simp only [hv, if_true]
      exact ⟨trivial, hlooked.consume ha ha'⟩
    · simp only [hv]
      exact ⟨rfl, hlooked⟩
  · rw [herr, herr']
    exact ⟨rfl, h⟩

theorem acceptWith (h : Trails source l l') (pattern : Pattern) (kind : Kind)
    (allowBlank : Bool) : Agrees source (LexM.acceptWith pattern kind allowBlank) l l' := by
  have htake : l'.mode.rules.takeAt pattern kind allowBlank l'.discard.scan =
      l.mode.rules.takeAt pattern kind allowBlank l.discard.scan := by
    rw [h.mode, h.here]
  unfold Agrees Lexer.answer Lexer.after
  obtain ⟨hnone, ht⟩ | ⟨t, a, hsome, ht, htiled, hconsumed, hmodes, ha⟩ :=
    LexM.acceptWith_cases h.left pattern kind allowBlank
  · obtain ⟨hnone', _⟩ | ⟨t', _, _, ht', _⟩ :=
      LexM.acceptWith_cases h.right pattern kind allowBlank
    · rw [hnone, hnone']
      exact ⟨rfl, h.discard⟩
    · rw [htake, ht] at ht'
      cases ht'
  · obtain ⟨_, ht'⟩ | ⟨t', a', hsome', ht', htiled', hconsumed', hmodes', ha'⟩ :=
      LexM.acceptWith_cases h.right pattern kind allowBlank
    · rw [htake, ht] at ht'
      cases ht'
    · rw [htake, ht] at ht'
      cases ht'
      rw [hsome, hsome']
      exact ⟨rfl, of_nil htiled htiled' (hmodes'.trans (h.modes.trans hmodes.symm))
        (by rw [hconsumed, hconsumed', h.consumed]) ha ha'⟩

theorem leave (h : Trails source l l') : Agrees source (LexM.leave *> pure none) l l' := by
  unfold Agrees Lexer.answer
  rw [Lexer.after_then]
  simp only [Lexer.after, SeqRight.seqRight, EStateM.seqRight, LexM.leave]
  cases hm : l.modes with
  | nil =>
    have hnone : l.leave? = none := by simp only [Lexer.leave?, hm]
    have hnone' : l'.leave? = none := by simp only [Lexer.leave?, h.modes, hm]
    simp only [hnone, hnone']
    exact ⟨trivial, h⟩
  | cons mode modes =>
    obtain ⟨a, hsome, hmodes, hconsumed, ha, htiled⟩ := Lexer.leave?_of_modes hm
    obtain ⟨a', hsome', hmodes', hconsumed', ha', htiled'⟩ :=
      Lexer.leave?_of_modes (h.modes.trans hm)
    simp only [hsome, hsome']
    exact ⟨rfl, of_nil (htiled source h.left) (htiled' source h.right)
      (hmodes'.trans hmodes.symm) (hconsumed'.trans (h.consumed.trans hconsumed.symm)) ha ha'⟩

theorem back (h : Trails source l l') : Agrees source (LexM.back *> pure none) l l' := by
  have hnext : l'.next = l.next := by
    rw [← Lexer.length_consumed h.right, h.consumed, Lexer.length_consumed h.left]
  have hleft := after_back h.left
  have hright := after_back h.right
  unfold Agrees Lexer.answer
  rw [Lexer.after_then]
  simp only [Lexer.after, SeqRight.seqRight, EStateM.seqRight, LexM.back] at hleft hright ⊢
  rw [hnext] at hright ⊢
  cases hn : l.next with
  | zero => exact ⟨rfl, h⟩
  | succ n =>
    rw [hn] at hleft hright
    have hle : n ≤ l.consumed.length := by
      rw [Lexer.length_consumed h.left]
      omega
    have hle' : n ≤ l'.consumed.length := by rwa [h.consumed]
    refine ⟨rfl, hleft, hright, h.modes, ?_, ?_⟩
    · show l'.tokens.toList.take n = l.tokens.toList.take n
      rw [← Lexer.consumed_append_ahead, ← Lexer.consumed_append_ahead,
        List.take_append_of_le_length hle, List.take_append_of_le_length hle', h.consumed]
    · show l.tokens.toList.drop n = l'.tokens.toList.drop n ∨
        ∃ t, t.Empty ∧ l.tokens.toList.drop n = l'.tokens.toList.drop n ++ [t]
      rw [← Lexer.consumed_append_ahead, ← Lexer.consumed_append_ahead,
        List.drop_append_of_le_length hle, List.drop_append_of_le_length hle', h.consumed]
      obtain ha | ⟨t, ht, ha⟩ := h.ahead
      · exact .inl (by rw [ha])
      · exact .inr ⟨t, ht, by rw [ha, List.append_assoc]⟩

/-- Every move, a step back among them, is answered alike and leaves such lexers. -/
theorem move (h : Trails source l l') (m : Move) :
    m.answer l' = m.answer l ∧ Trails source (m.after l) (m.after l') := by
  suffices hagrees : Agrees source m.ask l l' by
    rw [← m.after_ask]
    exact hagrees
  cases m with
  | peek kinds =>
    exact h.look (fun t a => if t.isVisible kinds a.mode.allowBlank then some t else none)
      (fun t a a' ha => by rw [ha.mode]) (LexM.peek_eq kinds)
  | next kinds => exact h.next kinds
  | peekAny =>
    refine h.look (fun t _ => some t) (fun _ _ _ _ => rfl) fun l => ?_
    simp only [Move.ask, Functor.map, EStateM.map]
    cases LexM.peekAny l <;> rfl
  | peekAdjacent kinds =>
    exact h.look (fun t _ => if t.isVisible kinds false then some t else none)
      (fun _ _ _ _ => rfl) (LexM.peekAdjacent_eq kinds)
  | back => exact h.back
  | accept pattern kind =>
    have haccept := h.acceptWith pattern kind l.mode.allowBlank
    unfold Agrees Lexer.answer Lexer.after at haccept ⊢
    simp only [Move.ask, LexM.accept_eq, h.mode]
    exact haccept
  | acceptWith pattern kind allowBlank => exact h.acceptWith pattern kind allowBlank
  | enter rules allowBlank =>
    refine ⟨rfl, of_nil (h.left.enter rules allowBlank) (h.right.enter rules allowBlank) ?_ ?_
      (Lexer.ahead_discard l) (Lexer.ahead_discard l')⟩
    · show (l'.enter rules allowBlank).modes = (l.enter rules allowBlank).modes
      rw [Lexer.modes_enter, Lexer.modes_enter, h.modes]
    · show (l'.enter rules allowBlank).consumed = (l.enter rules allowBlank).consumed
      rw [Lexer.consumed_enter, Lexer.consumed_enter, h.consumed]
  | leave => exact h.leave

theorem answers (h : Trails source l l') (moves : List Move) :
    l'.answers moves = l.answers moves := by
  induction moves generalizing l l' with
  | nil => rfl
  | cons m rest ih =>
    obtain ⟨hanswer, hafter⟩ := h.move m
    rw [Lexer.answers, Lexer.answers, hanswer, ih hafter]

end Trails

/-! ### The reset lexer -/

namespace Lexer

/-- The token held ahead at a mark, if there was one, is still in its place, or it was dropped
and had no text. -/
def Regains (s s' : Lexer) : Prop :=
  ∀ t, s.tokens[s.next]? = some t →
    s'.tokens[s.next]? = some t ∨ s'.tokens[s.next]? = none ∧ t.text = []

section Reset
variable {s s' : Lexer}

theorem consumed_reset (hs : s.Tiled source) (hconsumed : s.consumed <+: s'.consumed) :
    (s'.reset s.mark).consumed = s.consumed := by
  have hfront : s'.tokens.toList.take s.next = s.consumed := by
    obtain ⟨rest, hrest⟩ := hconsumed
    rw [← consumed_append_ahead, ← hrest, List.append_assoc, ← length_consumed hs, List.take_left]
  show (s'.tokens.shrink s.tokens.size).toList.take s.next = _
  rw [Array.toList_shrink, List.take_take, Nat.min_eq_left hs.cursor_le, hfront]

theorem ahead_reset (s s' : Lexer) : (s'.reset s.mark).ahead =
    (s'.tokens.toList.drop s.next).take s.ahead.length := by
  show (s'.tokens.shrink s.tokens.size).toList.drop s.next = _
  rw [Array.toList_shrink, List.drop_take, ahead, List.length_drop, Array.length_toList]

theorem ahead_reset_of_nil (ha : s.ahead = []) : (s'.reset s.mark).ahead = [] := by
  rw [ahead_reset, ha]
  rfl

/-- The reset lexer holds ahead what now is where the one token ahead was. -/
theorem ahead_reset_of_one (s' : Lexer) {t : Token} (ha : s.ahead = [t]) :
    (s'.reset s.mark).ahead = s'.tokens[s.next]?.toList := by
  rw [ahead_reset, ha, ← Array.getElem?_toList, ← List.head?_drop]
  cases s'.tokens.toList.drop s.next <;> rfl

theorem tiled_reset (hs : s.Tiled source) (hconsumed : s.consumed <+: s'.consumed)
    (htiles : Tiles (.ofText source) (s.consumed ++ (s'.reset s.mark).ahead) s.scan) :
    (s'.reset s.mark).Tiled source := by
  have hback := consumed_reset hs hconsumed
  refine ⟨?_, ?_⟩
  · have hle := List.length_take_le' s.next (s'.reset s.mark).tokens.toList
    show s.next ≤ (s'.reset s.mark).tokens.size
    rw [← length_consumed hs, ← hback]
    exact hle
  · rw [← consumed_append_ahead, hback]
    exact htiles

theorem getElem?_next_of_one {t : Token} (ha : s.ahead = [t]) : s.tokens[s.next]? = some t := by
  rw [getElem?_next, ha]
  rfl

/-- Where nothing was lost, the reset lexer is as the marked one, but for the end of the
source. -/
theorem Regains.trails (h : s.Regains s') (hs : s.Current source)
    (hconsumed : s.consumed <+: s'.consumed) (hmodes : s'.modes = s.modes)
    (hone : s.ahead.length ≤ 1) : Trails source s (s'.reset s.mark) := by
  have hback := consumed_reset hs.toTiled hconsumed
  have htiles := hs.tiles
  rw [← consumed_append_ahead] at htiles
  suffices hsuffices :
      Tiles (.ofText source) (s.consumed ++ (s'.reset s.mark).ahead) s.scan ∧
      (s.ahead = (s'.reset s.mark).ahead ∨
        ∃ t, t.Empty ∧ s.ahead = (s'.reset s.mark).ahead ++ [t]) from
    ⟨hs.toTiled, tiled_reset hs.toTiled hconsumed hsuffices.1, hmodes, hback, hsuffices.2⟩
  cases ha : s.ahead with
  | nil =>
    rw [ahead_reset_of_nil ha]
    rw [ha] at htiles
    exact ⟨htiles, .inl rfl⟩
  | cons t rest =>
    obtain rfl : rest = [] := by
      rw [ha, List.length_cons] at hone
      exact List.length_eq_zero_iff.mp (by omega)
    have hahead := ahead_reset_of_one s' ha
    rw [ha] at htiles
    obtain hkept | ⟨hgone, htext⟩ := h t (getElem?_next_of_one ha)
    · rw [hkept, Option.toList_some] at hahead
      rw [hahead]
      exact ⟨htiles, .inl rfl⟩
    · rw [hgone, Option.toList_none] at hahead
      have hempty := Rules.empty_of_text (hs.fresh t (by rw [ha]; exact List.mem_cons_self)) htext
      obtain ⟨m, hfront, ho, _, hafter⟩ := tiles_append.mp htiles
      have hend : m = s.scan := by
        rw [← ho, ← hempty.1]
        exact hafter
      rw [hahead, List.append_nil, ← hend]
      exact ⟨hfront, .inr ⟨t, hempty, rfl⟩⟩

end Reset

/-! ### What was lost -/

theorem of_cutSource {lengths : List Nat} (h : LexM.cutSource lengths l = .ok () l') : l' = l := by
  rw [LexM.cutSource] at h
  split at h <;> cases h
  rfl

theorem of_noteSpan {start stop : Position} (h : LexM.noteSpan start stop l = .ok () l') :
    l' = l := by
  rw [LexM.noteSpan] at h
  split at h <;> cases h
  rfl

/-- What was added to the buffer begins at the scan. -/
theorem of_produce (h : LexM.produce l = .ok () l') :
    ∃ t, t.origin = l.scan ∧ l' = l.buffer t := by
  obtain ⟨_, _, hget, h⟩ := ok_of_bind h
  cases hget
  obtain ⟨_, _, hcut, h⟩ := ok_of_bind h
  rw [of_cutSource hcut] at h
  cases ht : l.mode.rules.tokenAt l.scan with
  | error f =>
    rw [ht] at h
    obtain ⟨_, _, _, hthrow⟩ := ok_of_bind h
    cases hthrow
  | ok t =>
    rw [ht] at h
    obtain ⟨_, _, hcut, h⟩ := ok_of_bind h
    rw [of_cutSource hcut] at h
    obtain ⟨_, _, hspan, h⟩ := ok_of_bind h
    rw [of_noteSpan hspan] at h
    cases h
    exact ⟨t, (Rules.tokenAt_fits ht).1, rfl⟩

/-- With nothing ahead a token that is found begins at the scan. -/
theorem origin_of_peekAny {t : Token} (hsize : l.next = l.tokens.size)
    (h : LexM.peekAny l = .ok t l') : t.origin = l.scan := by
  rw [LexM.peekAny, if_neg (by omega)] at h
  obtain ⟨_, a, hproduce, hcurrent⟩ := ok_of_bind h
  obtain ⟨u, ho, rfl⟩ := of_produce hproduce
  have hget : (l.buffer u).tokens[(l.buffer u).next]? = some u := by
    show (l.tokens.push u)[l.next]? = some u
    rw [hsize, Array.getElem?_push_size]
  simp only [LexM.current, hget] at hcurrent
  cases hcurrent
  exact ho

theorem forward_eq_self {n : Nat} {s : Scan} (hle : n ≤ s.rest.length) (h : s.forward n = s) :
    n = 0 := by
  have hrest := congrArg (fun s : Scan => s.rest.length) h
  simp only [Scan.rest_forward, List.length_drop] at hrest
  omega

/-- A token with text does not begin where it ends. -/
theorem text_of_after {t : Token} (hf : t.Fits) (h : t.after = t.origin) : t.text = [] := by
  have hle : t.blank.length + t.body.length ≤ t.origin.rest.length := by
    rw [← List.length_append]
    exact hf.length_le
  have hzero := forward_eq_self hle h
  rw [Token.text, List.eq_nil_of_length_eq_zero (by omega : t.blank.length = 0),
    List.eq_nil_of_length_eq_zero (by omega : t.body.length = 0)]
  rfl

/-- If looking at the next token is answered as it was, nothing was lost. -/
theorem regains_of_peekAny {s s' : Lexer} (hs : s.Current source)
    (hconsumed : s.consumed <+: s'.consumed) (hone : s.ahead.length ≤ 1)
    (h : Move.peekAny.answer (s'.reset s.mark) = Move.peekAny.answer s) : s.Regains s' := by
  intro t ht
  have ha : s.ahead = [t] := by
    rw [getElem?_next] at ht
    obtain ⟨rest, hrest⟩ := List.head?_eq_some_iff.mp ht
    rw [hrest, List.length_cons] at hone
    rw [hrest, List.eq_nil_of_length_eq_zero (by omega : rest.length = 0)]
  obtain ⟨b, hb⟩ : ∃ b, LexM.peekAny (s'.reset s.mark) = .ok t b := by
    simp only [Move.answer, Move.ask, answer, Functor.map, EStateM.map,
      LexM.peekAny_of_ahead ha] at h
    cases hlook : LexM.peekAny (s'.reset s.mark) with
    | ok u b =>
      rw [hlook] at h
      cases h
      exact ⟨b, rfl⟩
    | error e b =>
      rw [hlook] at h
      cases h
  have hahead := ahead_reset_of_one s' ha
  cases hplace : s'.tokens[s.next]? with
  | some u =>
    rw [hplace, Option.toList_some] at hahead
    rw [LexM.peekAny_of_ahead hahead] at hb
    cases hb
    exact .inl rfl
  | none =>
    rw [hplace, Option.toList_none] at hahead
    have hsize : (s'.reset s.mark).next = (s'.reset s.mark).tokens.size := by
      have hlength := congrArg List.length (consumed_append_ahead (s'.reset s.mark))
      rw [hahead, List.append_nil, consumed_reset hs.toTiled hconsumed, length_consumed hs.toTiled,
        Array.length_toList] at hlength
      exact hlength
    have ho : t.origin = (s'.reset s.mark).scan := origin_of_peekAny hsize hb
    have htiles := hs.tiles
    rw [← consumed_append_ahead, ha] at htiles
    obtain ⟨m, _, _, hf, hafter⟩ := tiles_append.mp htiles
    exact .inr ⟨rfl, text_of_after hf (hafter.trans ho.symm)⟩

end Lexer

/-- **What going back to a mark restores.** Without steps back, and with the modes of the mark
again in force, the lexer that was reset to a mark answers every later list of moves as the
marked lexer does if and only if the token that the marked lexer held ahead is still in its
place, or was dropped and had no text. -/
theorem reset_restores_iff (source : Text) (front between : List Move) (hfront : .back ∉ front)
    (hbetween : .back ∉ between)
    (hmodes : (((Lexer.ofText source).run front).run between).modes =
      ((Lexer.ofText source).run front).modes) :
    let marked := (Lexer.ofText source).run front
    let later := marked.run between
    (∀ moves, (later.reset marked.mark).answers moves = marked.answers moves) ↔
      marked.Regains later := by
  intro marked later
  have htiled := Lexer.tiled_run front _ (Lexer.tiled_ofText source)
  have hcurrent : marked.Current source :=
    current_run (Lexer.current_ofText source) front hfront
  have hone : marked.ahead.length ≤ 1 :=
    ahead_le_run (Lexer.tiled_ofText source) (Nat.zero_le 1) front hfront
  have hconsumed : marked.consumed <+: later.consumed := consumed_run htiled between hbetween
  constructor
  · intro h
    exact Lexer.regains_of_peekAny hcurrent hconsumed hone (List.cons.inj (h [.peekAny])).1
  · intro h moves
    exact (h.trails hcurrent hconsumed hmodes hone).answers moves

/-- A token was seen, then a brace looked for in its place, which is not there: going back to
where the token was seen does not bring it back. -/
theorem reset_restores_iff_seen :
    let marked := (Lexer.ofText "a b".toList).run [.peek []]
    let later := marked.run [.accept (.lit ['}']) .rbrace]
    ¬ ∀ moves, (later.reset marked.mark).answers moves = marked.answers moves := by
  intro marked later h
  have hregains := (reset_restores_iff "a b".toList [.peek []] [.accept (.lit ['}']) .rbrace]
    (by simp) (by simp) rfl).mp h
  obtain hkept | ⟨_, htext⟩ := hregains _ rfl
  · exact nomatch hkept
  · exact nomatch htext

end ShellGrammar
