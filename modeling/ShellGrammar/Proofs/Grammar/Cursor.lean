import ShellGrammar.Proofs.Grammar.Runs

/-! Where a parser stands.

`Lexer.here` is the scan at which the consumed tokens end. What a parser reads next
depends on nothing else of the source: looking and taking are given by the token that
the rules in force cut off there (`take_cases`), asking for a shape by what stands there
(`acceptWith_here`), and changing the rules or stepping back moves `here` in the one way
one expects. Each of these puts the context back or leaves it alone, which together with
the place it leads to is all there is to know of the state after it (`Reaches`). -/
namespace ShellGrammar

variable {source : Text}

/-! ### The place of a lexer -/

namespace Lexer

/-- Where the consumed tokens end. -/
def here (l : Lexer) : Scan := l.discard.scan

/-- The consumed tokens tile the source up to there. -/
theorem Tiled.tiles_here {l : Lexer} (h : l.Tiled source) :
    Tiles (.ofText source) l.consumed l.here := by
  have htiles := h.discard.tiles
  rwa [← consumed_append_ahead, ahead_discard, List.append_nil, consumed_discard] at htiles

theorem Tiled.here_on {l : Lexer} (h : l.Tiled source) : l.here.On source :=
  h.discard.on

/-- Where the consumed tokens end depends on nothing but them. -/
theorem Tiled.here_eq {l l' : Lexer} (h : l.Tiled source) (h' : l'.Tiled source)
    (hc : l'.consumed = l.consumed) : l'.here = l.here := by
  have hend := h'.tiles_here.end_eq
  rw [hc] at hend
  exact hend.trans h.tiles_here.end_eq.symm

theorem Tiled.here_of_consumed {l l' : Lexer} {t : Token} (h' : l'.Tiled source)
    (hc : l'.consumed = l.consumed ++ [t]) : l'.here = t.after := by
  have hend := h'.tiles_here.end_eq
  rw [hc, List.getLast?_concat] at hend
  exact hend

theorem here_of_ahead {l : Lexer} {t : Token} {rest : List Token} (ha : l.ahead = t :: rest) :
    l.here = t.origin := by
  have hget : l.tokens[l.next]? = some t := by
    rw [getElem?_next, ha]
    rfl
  simp only [here, discard, hget]

theorem here_of_nil {l : Lexer} (ha : l.ahead = []) : l.here = l.scan := by
  have hget : l.tokens[l.next]? = none := by
    rw [getElem?_next, ha]
    rfl
  simp only [here, discard, hget]

end Lexer

/-- A look at the token at the cursor yields what the rules in force cut off there. -/
theorem LexM.peekAny_here {l : Lexer} (h : l.Current source) :
    (∃ t l', peekAny l = .ok t l' ∧ Looked source l t l' ∧ l.mode.rules.tokenAt l.here = .ok t) ∨
    (∃ f, peekAny l = .error (.fault f) l ∧ l.mode.rules.tokenAt l.here = .error f) := by
  cases ha : l.ahead with
  | cons t rest =>
    refine .inl ⟨t, l, peekAny_of_ahead ha, ⟨h.toTiled, rfl, rfl, ⟨rest, ha⟩, id⟩, ?_⟩
    rw [Lexer.here_of_ahead ha]
    exact h.fresh t (by rw [ha]; exact List.mem_cons_self)
  | nil =>
    rw [Lexer.here_of_nil ha]
    obtain ⟨t, l', hok, hl⟩ | ⟨f, herr, hf⟩ := peekAny_cases h.toTiled
    · refine .inl ⟨t, l', hok, hl, ?_⟩
      rw [peekAny_of_nil h.toTiled ha] at hok
      cases ht : l.mode.rules.tokenAt l.scan with
      | ok u =>
        rw [ht] at hok
        cases hok
        rfl
      | error f =>
        rw [ht] at hok
        cases hok
    · exact .inr ⟨f, herr, hf⟩

/-! ### The place of a parser -/

namespace ParseState

/-- Where the consumed tokens end. -/
def here (s : ParseState) : Scan := s.lexer.here

/-- How many characters are left to read. -/
def left (s : ParseState) : Nat := s.here.rest.length

/-- The rules in force. -/
def rules (s : ParseState) : Rules := s.lexer.mode.rules

/-- What the rules in force make of the text where the parser stands. -/
def tokenHere (s : ParseState) : Except LexFault Token := s.rules.tokenAt s.here

end ParseState

/-- From `s`, with the setting as it was, the parser has consumed some tokens. -/
structure Reaches (source : Text) (s : ParseState) (ts : List Token) (s' : ParseState) : Prop where
  current : s'.lexer.Current source
  keeps : Keeps s s'
  consumed : s'.lexer.consumed = s.lexer.consumed ++ ts

namespace Reaches
variable {s s' s'' : ParseState} {t : Token}

theorem refl (h : s.lexer.Current source) : Reaches source s [] s :=
  ⟨h, .refl s, (List.append_nil _).symm⟩

theorem trans {ts us : List Token} (h : Reaches source s ts s') (h' : Reaches source s' us s'') :
    Reaches source s (ts ++ us) s'' :=
  ⟨h'.current, h.keeps.trans h'.keeps, by rw [h'.consumed, h.consumed, List.append_assoc]⟩

theorem looked (hs : s.lexer.Current source) {l : Lexer}
    (h : LexM.Looked source s.lexer t l) : Reaches source s [] { s with lexer := l } :=
  ⟨h.fresh hs, Looked.keeps h, by rw [List.append_nil]; exact h.consumed⟩

theorem here_nil (hs : s.lexer.Current source) (h : Reaches source s [] s') :
    s'.here = s.here := by
  have hconsumed := h.consumed
  rw [List.append_nil] at hconsumed
  exact hs.toTiled.here_eq h.current.toTiled hconsumed

theorem here_one (h : Reaches source s [t] s') : s'.here = t.after :=
  h.current.toTiled.here_of_consumed h.consumed

end Reaches

namespace ParseM

theorem peekAny_cases {s : ParseState} (hs : s.lexer.Current source) :
    (∃ t s', peekAny s = .ok t s' ∧ s.tokenHere = .ok t ∧ Reaches source s [] s') ∨
    (∃ f, peekAny s = .error (.fault (.ofLexFault f)) s ∧ s.tokenHere = .error f) := by
  rw [peekAny, lexing_eq]
  obtain ⟨t, l, hok, hl, ht⟩ | ⟨f, herr, hf⟩ := LexM.peekAny_here hs
  · rw [hok]
    exact .inl ⟨t, _, rfl, ht, Reaches.looked hs hl⟩
  · rw [herr]
    exact .inr ⟨f, rfl, hf⟩

/-! ### Taking a token -/

/-- Whether a reader that looks for some kinds takes a token. -/
def sought (adjacent : Bool) (want : Kind → Bool) (s : ParseState) (t : Token) : Bool :=
  want t.kind && (!adjacent && s.lexer.mode.allowBlank || t.isAdjacent)

/-- Takes the next token if it is of the wanted kinds and can be seen. -/
def take (adjacent : Bool) (want : Kind → Bool) : ParseM (Option Token) := fun s =>
  match peekAny s with
  | .ok t s' =>
    if sought adjacent want s t then .ok (some t) { s' with lexer := s'.lexer.consume }
    else .ok none s'
  | .error e s' => .error e s'

/-- A reader takes the token where the parser stands, or leaves it, or the text there is
at fault. -/
theorem take_cases {s : ParseState} (hs : s.lexer.Current source) (adjacent : Bool)
    (want : Kind → Bool) :
    (∃ t s', s.tokenHere = .ok t ∧ sought adjacent want s t = true ∧
      take adjacent want s = .ok (some t) s' ∧ Reaches source s [t] s') ∨
    (∃ t s', s.tokenHere = .ok t ∧ sought adjacent want s t = false ∧
      take adjacent want s = .ok none s' ∧ Reaches source s [] s') ∨
    (∃ f, s.tokenHere = .error f ∧ take adjacent want s = .error (.fault (.ofLexFault f)) s) := by
  obtain ⟨t, l, hok, hl, ht⟩ | ⟨f, herr, hf⟩ := LexM.peekAny_here hs
  · have hpeek : peekAny s = .ok t { s with lexer := l } := by
      rw [peekAny, lexing_eq, hok]
    obtain ⟨rest, ha⟩ := hl.ahead
    cases hv : sought adjacent want s t with
    | true =>
      refine .inl ⟨t, { s with lexer := l.consume }, ht, hv, ?_, ?_⟩
      · simp only [take, hpeek, hv, if_true]
      · refine ⟨(hl.fresh hs).consume ha, ⟨hl.modes, rfl, rfl⟩, ?_⟩
        show l.consume.consumed = s.lexer.consumed ++ [t]
        rw [Lexer.consumed_consume ha, hl.consumed]
    | false =>
      refine .inr (.inl ⟨t, { s with lexer := l }, ht, hv, ?_, Reaches.looked hs hl⟩)
      simp only [take, hpeek, hv, Bool.false_eq_true, if_false]
  · have hpeek : peekAny s = .error (.fault (.ofLexFault f)) s := by
      rw [peekAny, lexing_eq, herr]
      rfl
    refine .inr (.inr ⟨f, hf, ?_⟩)
    simp only [take, hpeek]

/-- The kinds that a list asks for, where asking for none is asking for any. -/
def among (kinds : List Kind) : Kind → Bool := fun kind => kinds.isEmpty || kinds.contains kind

theorem next_eq_take {s : ParseState} (hs : s.lexer.Current source) (kinds : List Kind) :
    next kinds s = take false (among kinds) s := by
  rw [next, lexing_eq, LexM.next_eq, take, peekAny, lexing_eq]
  obtain ⟨t, l, hok, hl, _⟩ | ⟨f, herr, _⟩ := LexM.peekAny_here hs
  · simp only [hok, hl.mode, sought, Bool.not_false, Bool.true_and]
    by_cases hv : t.isVisible kinds s.lexer.mode.allowBlank = true
    · simp only [Token.isVisible] at hv
      simp only [Token.isVisible, among, hv, if_true]
    · simp only [Token.isVisible] at hv
      simp only [Token.isVisible, among, hv, Bool.false_eq_true, if_false]
  · simp only [herr]

/-- Looking and then taking what was seen, if it is of the wanted kinds, is taking. -/
theorem look_eq_take {β : Type} {s : ParseState} (hs : s.lexer.Current source)
    (adjacent : Bool) (kinds : List Kind) (want : Kind → Bool) {k : Option Token → ParseM β}
    {f : Token → Option Token → ParseM β}
    (hk : ∀ t, k (some t) = if want t.kind then next [] >>= f t else k none) :
    (look adjacent kinds >>= k) s =
      (take adjacent (fun kind => among kinds kind && want kind) >>= fun o =>
        o.elim (k none) fun t => f t (some t)) s := by
  have hlook := look_eq hs.toTiled adjacent kinds
  obtain ⟨t, l, hok, hl, ht⟩ | ⟨f, herr, hf⟩ := LexM.peekAny_here hs
  · have hpeek : peekAny s = .ok t { s with lexer := l } := by
      rw [peekAny, lexing_eq, hok]
    have hsought : sought adjacent (fun kind => among kinds kind && want kind) s t =
        (t.isVisible kinds (!adjacent && s.lexer.mode.allowBlank) && want t.kind) := by
      simp only [sought, Token.isVisible, among, Bool.and_right_comm]
    rw [hok] at hlook
    cases hv : t.isVisible kinds (!adjacent && s.lexer.mode.allowBlank) with
    | false =>
      have htake : take adjacent (fun kind => among kinds kind && want kind) s =
          .ok none { s with lexer := l } := by
        simp only [take, hpeek, hsought, hv, Bool.false_and, Bool.false_eq_true, if_false]
      simp only [hv, Bool.false_eq_true, if_false] at hlook
      rw [bind_of_ok hlook, bind_of_ok htake, Option.elim_none]
    | true =>
      simp only [hv, if_true] at hlook
      rw [bind_of_ok hlook]
      cases hw : want t.kind with
      | false =>
        have htake : take adjacent (fun kind => among kinds kind && want kind) s =
            .ok none { s with lexer := l } := by
          simp only [take, hpeek, hsought, hw, Bool.and_false, Bool.false_eq_true, if_false]
        rw [bind_of_ok htake, hk, hw]
        rfl
      | true =>
        have htake : take adjacent (fun kind => among kinds kind && want kind) s =
            .ok (some t) { s with lexer := l.consume } := by
          simp only [take, hpeek, hsought, hv, hw, Bool.and_self, if_true]
        obtain ⟨hsees, _⟩ := Looked.sees hl hs adjacent hv
        have hcontext : ParseState.context { s with lexer := l } = s.context :=
          (Looked.keeps hl).context
        have hnext := next_of_sees (s := { s with lexer := l }) (by rw [hcontext]; exact hsees)
          hl.ahead
        rw [bind_of_ok htake, hk, hw]
        exact bind_of_ok hnext
  · have htake : take adjacent (fun kind => among kinds kind && want kind) s =
        .error (.fault (.ofLexFault f)) s := by
      have hpeek : peekAny s = .error (.fault (.ofLexFault f)) s := by
        rw [peekAny, lexing_eq, herr]
        rfl
      simp only [take, hpeek]
    rw [herr] at hlook
    rw [bind_of_error hlook, bind_of_error htake]
    rfl

/-- Looking finds what taking takes. -/
theorem look_of_take {s s₁ : ParseState} (hs : s.lexer.Current source) {adjacent : Bool}
    {kinds : List Kind} {o : Option Token} (h : take adjacent (among kinds) s = .ok o s₁) :
    ∃ s₂, look adjacent kinds s = .ok o s₂ ∧ Reaches source s [] s₂ := by
  rw [look_eq hs.toTiled]
  obtain ⟨t, l, hok, hl, ht⟩ | ⟨f, herr, hf⟩ := LexM.peekAny_here hs
  · have hpeek : peekAny s = .ok t { s with lexer := l } := by
      rw [peekAny, lexing_eq, hok]
    rw [hok]
    refine ⟨_, ?_, Reaches.looked hs hl⟩
    have hsought : sought adjacent (among kinds) s t =
        t.isVisible kinds (!adjacent && s.lexer.mode.allowBlank) := rfl
    simp only [take, hpeek, hsought] at h
    by_cases hv : t.isVisible kinds (!adjacent && s.lexer.mode.allowBlank) = true
    · simp only [hv, if_true] at h ⊢
      cases h
      rfl
    · simp only [hv] at h ⊢
      cases h
      rfl
  · have hpeek : peekAny s = .error (.fault (.ofLexFault f)) s := by
      rw [peekAny, lexing_eq, herr]
      rfl
    simp only [take, hpeek] at h
    cases h

theorem look_of_fault {s : ParseState} (hs : s.lexer.Current source) {adjacent : Bool}
    {kinds : List Kind} {f : LexFault} (hf : s.tokenHere = .error f) :
    look adjacent kinds s = .error (.fault (.ofLexFault f)) s := by
  obtain ⟨t, _, _, _, ht⟩ | ⟨g, herr, hg⟩ := LexM.peekAny_here hs
  · exact nomatch ht.symm.trans hf
  · obtain rfl : g = f := Except.error.inj (hg.symm.trans hf)
    rw [look_eq hs.toTiled, herr]
    rfl

/-- Looking moves nothing. -/
theorem look_cases {s : ParseState} (hs : s.lexer.Current source) (adjacent : Bool)
    (kinds : List Kind) :
    (∃ o s', look adjacent kinds s = .ok o s' ∧ Reaches source s [] s') ∨
    (∃ f, look adjacent kinds s = .error (.fault (.ofLexFault f)) s) := by
  obtain ⟨t, _, _, _, htake, _⟩ | ⟨t, _, _, _, htake, _⟩ | ⟨f, hf, _⟩ :=
    take_cases hs adjacent (among kinds)
  · exact .inl ⟨_, look_of_take hs htake⟩
  · exact .inl ⟨_, look_of_take hs htake⟩
  · exact .inr ⟨f, look_of_fault hs hf⟩

/-- Asking for a shape takes what stands where the parser does. -/
theorem acceptWith_cases {s : ParseState} (hs : s.lexer.Current source) (pattern : Pattern)
    (kind : Kind) (allowBlank : Bool) :
    ∃ s', lexing (LexM.acceptWith pattern kind allowBlank) s =
        .ok (s.rules.takeAt pattern kind allowBlank s.here) s' ∧
      Reaches source s (s.rules.takeAt pattern kind allowBlank s.here).toList s' := by
  rw [lexing_eq]
  obtain ⟨hno, hnone⟩ | ⟨t, l, hyes, hsome, htiled, hconsumed, hmodes, ha⟩ :=
    LexM.acceptWith_cases hs.toTiled pattern kind allowBlank
  · have htake : s.rules.takeAt pattern kind allowBlank s.here = none := hnone
    rw [hno, htake]
    refine ⟨_, rfl, hs.toTiled.discard.current (Lexer.ahead_discard _),
      ⟨Lexer.modes_discard _, rfl, rfl⟩, ?_⟩
    exact (Lexer.consumed_discard _).trans (List.append_nil _).symm
  · have htake : s.rules.takeAt pattern kind allowBlank s.here = some t := hsome
    rw [hyes, htake]
    exact ⟨_, rfl, htiled.current ha, ⟨hmodes, rfl, rfl⟩, hconsumed⟩

/-- Stepping back over the one token that was taken since `s` leads back there. -/
theorem back_of_reaches {s s' : ParseState} {t : Token} (ht : s.tokenHere = .ok t)
    (h : Reaches source s [t] s') : ∃ s'', back s' = .ok () s'' ∧ Reaches source s [] s'' := by
  have hlexed : s'.lexer.mode.rules.tokenAt t.origin = .ok t := by
    rw [Lexer.mode, h.keeps.modes, (Rules.tokenAt_fits ht).1]
    exact ht
  obtain ⟨l, hback, hl, hfront, hmodes⟩ := LexM.back_of_consumed h.current h.consumed hlexed
  refine ⟨{ s' with lexer := l }, ?_, hl, h.keeps.trans ⟨hmodes, rfl, rfl⟩, ?_⟩
  · rw [back, lexing_eq, hback]
  · exact hfront.trans (List.append_nil _).symm

end ParseM

end ShellGrammar
