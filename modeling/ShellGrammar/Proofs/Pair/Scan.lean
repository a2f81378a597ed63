import ShellGrammar.Fault
import ShellGrammar.Proofs.Rules.Ahead

/-! Two texts side by side.

A `Pair` compares a parse of one text with a parse of another. Where both stand, what is
left on the right is what is left on the left and then a `tail`, which is nothing or
starts with a newline; positions on the right are further by some bytes and lines
(`Pair.Beside`). Tokens cut off at two such places are twins: they have the same kind and
text, and stand side by side themselves.

Without a tail both sides read alike in every case, faults included (`tokenAt_twin`).
With a tail that is so unless the left side has come to the end of its text
(`tokenAt_newline`). It may have read bare text that goes on in the tail, which leaves it
in a place that is `Lost`: nothing is left that could close what is open, or the next
token cannot be read at all. -/
namespace ShellGrammar

structure Pair where
  /-- What the left parse reads. -/
  left : Text
  /-- What the right parse reads. -/
  right : Text
  /-- What is left on the right when all is read on the left. -/
  tail : Text
  /-- How much further positions on the right are. -/
  bytes : Nat
  lines : Nat
  tail_eq : tail = [] ∨ ∃ more, tail = '\n' :: more

namespace Position

/-- Further by some bytes and lines, in the same column. -/
def shift (bytes lines : Nat) (p : Position) : Position :=
  ⟨p.offset + bytes, p.line + lines, p.col⟩

theorem shift_step (bytes lines : Nat) (p : Position) (c : Char) :
    (p.step c).shift bytes lines = (p.shift bytes lines).step c := by
  by_cases hc : c = '\n'
  · simp only [step, hc, if_true, shift, Nat.add_right_comm]
  · simp only [step, hc, if_false, shift, Nat.add_right_comm]

theorem shift_advance (bytes lines : Nat) (p : Position) (t : Text) :
    (p.advance t).shift bytes lines = (p.shift bytes lines).advance t := by
  induction t generalizing p with
  | nil => rfl
  | cons c t ih => rw [advance_cons, advance_cons, ih, shift_step]

end Position

/-- The same fault further on. -/
def LexFault.shift (bytes lines : Nat) (f : LexFault) : LexFault :=
  { f with start := f.start.shift bytes lines }

/-- The same fault further on. -/
def Fault.shift (bytes lines : Nat) (f : Fault) : Fault :=
  { f with start := f.start.shift bytes lines, stop := f.stop.shift bytes lines }

theorem Fault.shift_ofLexFault (bytes lines : Nat) (f : LexFault) :
    (Fault.ofLexFault f).shift bytes lines = .ofLexFault (f.shift bytes lines) := by
  simp only [shift, ofLexFault, LexFault.stop, LexFault.shift, Position.shift_step]

namespace Pair

/-- A text beside itself. -/
def same (source : Text) : Pair := ⟨source, source, [], 0, 0, .inl rfl⟩

/-- Two places at which both sides have the same text ahead, up to the tail. -/
structure Beside (P : Pair) (a b : Scan) : Prop extends a.Ahead P.tail b where
  pos : b.pos = a.pos.shift P.bytes P.lines

theorem beside_same (source : Text) (a : Scan) : (same source).Beside a a :=
  ⟨⟨(List.append_nil _).symm, rfl⟩, rfl⟩

variable {P : Pair} {a b : Scan}

theorem Beside.forward (h : P.Beside a b) {n : Nat} (hn : n ≤ a.rest.length) :
    P.Beside (a.forward n) (b.forward n) := by
  refine ⟨h.toAhead.forward hn, ?_⟩
  rw [Scan.pos_forward, Scan.pos_forward, h.rest, List.take_append_of_le_length hn, h.pos,
    Position.shift_advance]

/-! ### Tokens -/

/-- Tokens of the same kind and text, side by side. -/
structure Twin (P : Pair) (t t' : Token) : Prop where
  kind : t'.kind = t.kind
  blank : t'.blank = t.blank
  body : t'.body = t.body
  origin : P.Beside t.origin t'.origin

namespace Twin
variable {t t' : Token}

theorem isAdjacent (h : P.Twin t t') : t'.isAdjacent = t.isAdjacent := by
  rw [Token.isAdjacent, h.blank]
  rfl

theorem describe (h : P.Twin t t') : t'.describe = t.describe := by
  simp only [Token.describe, h.kind, h.body]

theorem start (h : P.Twin t t') : t'.start = t.start.shift P.bytes P.lines := by
  rw [Token.start, h.blank, h.origin.pos, Token.start, Position.shift_advance]

theorem stop (h : P.Twin t t') : t'.stop = t.stop.shift P.bytes P.lines := by
  rw [Token.stop, h.start, h.body, Token.stop, Position.shift_advance]

theorem atToken (h : P.Twin t t') (cause : Cause) :
    Fault.atToken cause t' = (Fault.atToken cause t).shift P.bytes P.lines := by
  simp only [Fault.atToken, Fault.shift, h.start, h.stop]

theorem after (h : P.Twin t t') (hfits : t.Fits) : P.Beside t.after t'.after := by
  have hle := hfits.length_le
  rw [Token.text, List.length_append] at hle
  rw [Token.after, Token.after, h.blank, h.body]
  exact h.origin.forward hle

end Twin

theorem Beside.twin_cut (h : P.Beside a b) (kind : Kind) {skip length : Nat}
    (hle : skip + length ≤ a.rest.length) :
    P.Twin (Rules.cut kind skip length a) (Rules.cut kind skip length b) := by
  rw [h.toAhead.cut kind hle]
  exact ⟨rfl, rfl, rfl, h⟩

/-! ### Reading without a tail -/

theorem Beside.skipLength_nil (h : P.Beside a b) (htail : P.tail = []) (rules : Rules) :
    rules.skipLength b = rules.skipLength a := by
  have hrest : b.rest = a.rest := by rw [h.rest, htail, List.append_nil]
  simp only [Rules.skipLength, hrest, h.toAhead.commentMayStart]

/-- A token or a fault there is the token or the fault here. -/
theorem Beside.tokenAt_nil (h : P.Beside a b) (htail : P.tail = []) (rules : Rules) :
    (∃ t t', rules.tokenAt a = .ok t ∧ rules.tokenAt b = .ok t' ∧ P.Twin t t') ∨
    (∃ f, rules.tokenAt a = .error f ∧ rules.tokenAt b = .error (f.shift P.bytes P.lines)) := by
  have hrest : b.rest = a.rest := by rw [h.rest, htail, List.append_nil]
  have hskip := h.skipLength_nil htail rules
  have hle := Rules.skipLength_le rules a
  simp only [Rules.tokenAt, hskip, hrest]
  cases hdrop : a.rest.drop (rules.skipLength a) with
  | nil => exact .inl ⟨_, _, rfl, rfl, h.twin_cut .eos hle⟩
  | cons c r =>
    simp only []
    cases hfit : Rules.firstFit rules.set.rules (c :: r) with
    | none =>
      refine .inr ⟨_, rfl, ?_⟩
      simp only [LexFault.shift, h.pos, Position.shift_advance]
    | some fit =>
      obtain ⟨kind, length⟩ := fit
      refine .inl ⟨_, _, rfl, rfl, h.twin_cut kind ?_⟩
      obtain ⟨r', _, _, hreach⟩ := Rules.firstFit_mem hfit
      have hlength := Pattern.reach_le (Pattern.reach?_eq_some_iff.mp hreach).1
      rw [← hdrop, List.length_drop] at hlength
      omega

theorem Beside.takeAt_nil (h : P.Beside a b) (htail : P.tail = []) (rules : Rules)
    (pattern : Pattern) (kind : Kind) (allowBlank : Bool) :
    (rules.takeAt pattern kind allowBlank a = none ∧
      rules.takeAt pattern kind allowBlank b = none) ∨
    (∃ t t', rules.takeAt pattern kind allowBlank a = some t ∧
      rules.takeAt pattern kind allowBlank b = some t' ∧ P.Twin t t') := by
  have hrest : b.rest = a.rest := by rw [h.rest, htail, List.append_nil]
  simp only [Rules.takeAt, hrest]
  split
  · exact .inl ⟨rfl, rfl⟩
  · cases hreach : pattern.reach? (a.rest.drop (rules.blankLength a.rest)) with
    | none => exact .inl ⟨rfl, rfl⟩
    | some length =>
      refine .inr ⟨_, _, rfl, rfl, h.twin_cut kind ?_⟩
      have hblank := Rules.blankLength_le rules a.rest
      have hlength := Pattern.reach_le (Pattern.reach?_eq_some_iff.mp hreach).1
      rw [List.length_drop] at hlength
      omega

end Pair

/-! ### Reading before a newline -/

namespace Rules
open Pattern
variable {rules : Rules} {place : Scan}

/-- Nothing is left that could close what is open. -/
def Spent (rules : Rules) (place : Scan) : Prop :=
  rules ≠ .command ∧ Text.closesNothing place.rest = true

/-- No token can be read, because a backslash stands there with nothing behind it. -/
def Stuck (rules : Rules) (place : Scan) : Prop :=
  rules = .command ∧ place.rest.drop (rules.blankLength place.rest) = ['\\']

/-- A place from which no parse that stands there ends well. -/
def Lost (rules : Rules) (place : Scan) : Prop := rules.Spent place ∨ rules.Stuck place

theorem Spent.of_suffix {place' : Scan} (h : rules.Spent place) (hs : place'.rest <:+ place.rest) :
    rules.Spent place' :=
  ⟨h.1, Text.closesNothing_of_suffix hs h.2⟩

/-- Outside commands nothing but blank is skipped. -/
theorem skipLength_of_ne_command (h : rules ≠ .command) :
    rules.skipLength place = rules.blankLength place.rest := by
  have hcomments : rules.set.comments = false := by
    cases rules with
    | command => exact absurd rfl h
    | _ => rfl
  rw [skipLength, hcomments, Bool.false_and, if_neg Bool.false_ne_true]

/-- Where nothing can be closed after a name, nothing could before it. -/
theorem Spent.of_ident {t : Token} (ht : rules.tokenAt place = .ok t) (hk : t.kind = .ident)
    (h : rules.Spent t.after) : rules.Spent place := by
  have hname := isVariableName_of_ident ht hk
  obtain ⟨ho, hfits⟩ := tokenAt_fits ht
  have hblank : t.blank = place.rest.take (rules.blankLength place.rest) := by
    rw [← skipLength_of_ne_command h.1]
    obtain ⟨_, rfl⟩ | ⟨_, _, _, rfl⟩ := tokenAt_cases ht
    · rfl
    · rfl
  have hrest := Token.rest_origin hfits
  rw [ho, Token.text, hblank] at hrest
  refine ⟨h.1, ?_⟩
  rw [hrest, Text.closesNothing_append, Text.closesNothing_append,
    Text.closesNothing_of_barren (isBarren_blank _ _), Text.closesNothing_of_name hname, h.2]
  rfl

theorem commentLength_edge {newline : Bool} {t : Text} (h : Edge newline t) :
    commentLength t = 0 := by
  obtain rfl | ⟨rfl, _⟩ := h
  · rfl
  · rfl

/-- Where blank stops at an edge, nothing more is skipped. -/
theorem skipLength_edge {newline : Bool}
    (h : Edge newline (place.rest.drop (rules.blankLength place.rest))) :
    rules.skipLength place = rules.blankLength place.rest := by
  simp only [skipLength, commentLength_edge h]
  split <;> rfl

theorem Stuck.tokenAt (h : rules.Stuck place) : ∃ f, rules.tokenAt place = .error f := by
  obtain ⟨rfl, hslash⟩ := h
  have hskip := skipLength_edge (.inl hslash : Edge false _)
  have hfit : firstFit Rules.command.set.rules ['\\'] = none := rfl
  simp only [Rules.tokenAt, hskip, hslash, hfit]
  exact ⟨_, rfl⟩

theorem lost_of_text (h : Edge rules.textTakesNewline place.rest) : rules.Lost place := by
  cases rules with
  | command =>
    obtain hslash | ⟨_, hfalse⟩ := h
    · refine .inr ⟨rfl, ?_⟩
      rw [hslash]
      rfl
    · cases hfalse
  | _ =>
    refine .inl ⟨by decide, ?_⟩
    obtain hslash | ⟨hnil, _⟩ := h
    · rw [hslash]
      rfl
    · rw [hnil]
      rfl

theorem lost_of_blank
    (h : Edge rules.blankTakesNewline (place.rest.drop (rules.blankLength place.rest))) :
    rules.Lost place := by
  cases rules with
  | command =>
    obtain hslash | ⟨_, hfalse⟩ := h
    · exact .inr ⟨rfl, hslash⟩
    · cases hfalse
  | _ => exact .inl ⟨by decide, Text.closesNothing_of_barren (isBarren_of_edge h)⟩

end Rules

namespace Pair
open Pattern
variable {P : Pair} {a b : Scan} {more : Text} {rules : Rules} {t : Token}

theorem Beside.skipLength_newline (h : P.Beside a b) (htail : P.tail = '\n' :: more)
    (hblank : rules.blankLength b.rest = rules.blankLength a.rest) :
    rules.skipLength b = rules.skipLength a := by
  have hdrop : b.rest.drop (rules.blankLength a.rest) =
      a.rest.drop (rules.blankLength a.rest) ++ '\n' :: more := by
    rw [h.rest, htail, List.drop_append_of_le_length (Rules.blankLength_le _ _)]
  simp only [Rules.skipLength, hblank, h.toAhead.commentMayStart, hdrop, Rules.commentLength_newline]

/-- Where blank stops at an edge, there is no token but the end of the text or one of the
odd characters of an expansion. -/
theorem kind_of_blank_edge
    (h : Edge rules.blankTakesNewline (a.rest.drop (rules.blankLength a.rest)))
    (ht : rules.tokenAt a = .ok t) : (t.kind = .eos ∨ t.kind = .glyph) ∧ rules.Spent a := by
  have hlost := Rules.lost_of_blank h
  have hskip := Rules.skipLength_edge h
  obtain hspent | hstuck := hlost
  · refine ⟨?_, hspent⟩
    simp only [Rules.tokenAt, hskip] at ht
    obtain hslash | ⟨hnil, _⟩ := h
    · rw [hslash] at ht
      by_cases hparam : rules = .param
      · subst hparam
        cases ht
        exact .inr rfl
      · simp only [Rules.firstFit_backslash hparam] at ht
        cases ht
    · rw [hnil] at ht
      cases ht
      exact .inl rfl
  · obtain ⟨f, hf⟩ := hstuck.tokenAt
    rw [hf] at ht
    cases ht

section Newline
variable (h : P.Beside a b) (htail : P.tail = '\n' :: more)
include h htail

/-- Where the text has ended, the newline is a token among commands, and elsewhere there is
nothing but blank. -/
theorem Beside.tokenAt_ended (hblank : rules.blankLength b.rest = rules.blankLength a.rest)
    (hnil : a.rest.drop (rules.skipLength a) = []) :
    (rules = .command ∧ rules.tokenAt b = .ok (Rules.cut .newline a.rest.length 1 b)) ∨
      rules.Spent a := by
  have hle := Rules.skipLength_le rules a
  have hend : rules.skipLength a = a.rest.length := by
    have := List.drop_eq_nil_iff.mp hnil
    omega
  by_cases hcommand : rules = .command
  · refine .inl ⟨hcommand, ?_⟩
    subst hcommand
    rw [Rules.tokenAt, h.skipLength_newline htail hblank, hend, h.rest, htail, List.drop_left]
    rfl
  · refine .inr ⟨hcommand, ?_⟩
    have hwhole : rules.blankLength a.rest = a.rest.length := by
      rw [← hend, Rules.skipLength_of_ne_command hcommand]
    have hbarren := Rules.isBarren_blank rules a.rest
    rw [hwhole, List.take_length] at hbarren
    exact Text.closesNothing_of_barren hbarren

/-- What a rule takes there is the same, or it is bare text that ends at an edge. -/
theorem Beside.tokenAt_fit (hblank : rules.blankLength b.rest = rules.blankLength a.rest)
    {kind : Kind} {length : Nat}
    (hfit : Rules.firstFit rules.set.rules (a.rest.drop (rules.skipLength a)) =
      some (kind, length)) :
    (∃ t', rules.tokenAt b = .ok t' ∧
      P.Twin (Rules.cut kind (rules.skipLength a) length a) t') ∨
    (kind = .str ∧ rules.Lost (a.forward (rules.skipLength a + length)) ∧
      ∃ t', rules.tokenAt b = .ok t' ∧ t'.kind = .str ∧
        t'.blank = a.rest.take (rules.skipLength a) ∧ length < t'.body.length) := by
  obtain ⟨hne, hlength⟩ := Rules.firstFit_bounds hfit
  rw [List.length_drop] at hlength
  have hle := Rules.skipLength_le rules a
  have hdrop : b.rest.drop (rules.skipLength a) =
      a.rest.drop (rules.skipLength a) ++ '\n' :: more := by
    rw [h.rest, htail, List.drop_append_of_le_length hle]
  have htoken : ∀ {kind' : Kind} {length' : Nat},
      Rules.firstFit rules.set.rules (a.rest.drop (rules.skipLength a) ++ '\n' :: more) =
        some (kind', length') →
      rules.tokenAt b = .ok (Rules.cut kind' (rules.skipLength a) length' b) := by
    intro kind' length' hfit'
    obtain ⟨c, r, hcons⟩ := List.exists_cons_of_ne_nil hne
    simp only [Rules.tokenAt, h.skipLength_newline htail hblank, hdrop]
    rw [hcons, List.cons_append] at hfit' ⊢
    simp only [hfit']
  obtain hsame | ⟨rfl, hedge, length', hlt, hlonger⟩ := Rules.firstFit_newline hne hfit more
  · exact .inl ⟨_, htoken hsame, h.twin_cut kind (by omega)⟩
  · refine .inr ⟨rfl, ?_, _, htoken hlonger, rfl, ?_, ?_⟩
    · apply Rules.lost_of_text
      rwa [Scan.rest_forward, ← List.drop_drop]
    · simp only [Rules.cut, h.rest, List.take_append_of_le_length hle]
    · have hlength' := (Rules.firstFit_bounds hlonger).2
      rw [← hdrop] at hlength'
      simp only [Rules.cut, List.length_take]
      omega

/-- With a newline behind the text, the token there is the same, or it is bare text that
ends at an edge, or the text has ended. -/
theorem Beside.tokenAt_newline (ht : rules.tokenAt a = .ok t) :
    (∃ t', rules.tokenAt b = .ok t' ∧ P.Twin t t') ∨
    (t.kind = .str ∧ rules.Lost t.after ∧ ∃ t', rules.tokenAt b = .ok t' ∧ t'.kind = .str ∧
      t'.blank = t.blank ∧ t.body.length < t'.body.length) ∨
    (rules = .command ∧ t.kind = .eos ∧ t.blank = a.rest ∧
      rules.tokenAt b = .ok (Rules.cut .newline a.rest.length 1 b)) ∨
    ((t.kind = .eos ∨ t.kind = .glyph) ∧ rules.Spent a) := by
  have hsame := Rules.blankLength_newline rules a.rest more
  rw [← htail, ← h.rest] at hsame
  rcases hsame.symm with hedge | hblank
  · exact .inr (.inr (.inr (kind_of_blank_edge hedge ht)))
  · obtain ⟨hnil, rfl⟩ | ⟨kind, length, hfit, rfl⟩ := Rules.tokenAt_cases ht
    · obtain ⟨hcommand, hnewline⟩ | hspent := h.tokenAt_ended htail hblank hnil
      · refine .inr (.inr (.inl ⟨hcommand, rfl, ?_, hnewline⟩))
        exact List.take_of_length_le (List.drop_eq_nil_iff.mp hnil)
      · exact .inr (.inr (.inr ⟨.inl rfl, hspent⟩))
    · have hbounds := Rules.length_cut kind hfit
      obtain hsame | ⟨rfl, hlost, t', ht', hkind, hblank', hlt⟩ := h.tokenAt_fit htail hblank hfit
      · exact .inl hsame
      · refine .inr (.inl ⟨rfl, ?_, t', ht', hkind, hblank', ?_⟩)
        · rw [Token.after, hbounds.1, hbounds.2]
          exact hlost
        · rw [hbounds.2]
          exact hlt

/-- With a newline behind the text, the same is found for a shape that takes none, unless
blank stops at an edge. -/
theorem Beside.takeAt_newline (rules : Rules) {pattern : Pattern}
    (havoids : pattern.avoids '\n' = true) (hslash : pattern.mayStart '\\' = false)
    (kind : Kind) (allowBlank : Bool) :
    (rules.takeAt pattern kind allowBlank a = none ∧
      rules.takeAt pattern kind allowBlank b = none) ∨
    (∃ t t', rules.takeAt pattern kind allowBlank a = some t ∧
      rules.takeAt pattern kind allowBlank b = some t' ∧ P.Twin t t') ∨
    (rules.takeAt pattern kind allowBlank a = none ∧ rules.Lost a) := by
  have hsame := Rules.blankLength_newline rules a.rest more
  rw [← htail, ← h.rest] at hsame
  have hle := Rules.blankLength_le rules a.rest
  rcases hsame.symm with hedge | hblank
  · refine .inr (.inr ⟨?_, Rules.lost_of_blank hedge⟩)
    have hnone : pattern.reach? (a.rest.drop (rules.blankLength a.rest)) = none := by
      obtain hback | ⟨hnil, _⟩ := hedge
      · rw [hback]
        exact reach?_eq_none_of_mayStart hslash
      · rw [hnil]
        exact reach?_nil pattern
    simp only [Rules.takeAt, hnone, Option.map_none, ite_self]
  · have hdrop : b.rest.drop (rules.blankLength a.rest) =
        a.rest.drop (rules.blankLength a.rest) ++ '\n' :: more := by
      rw [h.rest, htail, List.drop_append_of_le_length hle]
    have hreach : pattern.reach? (b.rest.drop (rules.blankLength a.rest)) =
        pattern.reach? (a.rest.drop (rules.blankLength a.rest)) := by
      rw [hdrop, reach?, steady_of_avoids havoids _ more id]
      rfl
    simp only [Rules.takeAt, hblank, hreach]
    split
    · exact .inl ⟨rfl, rfl⟩
    · cases hfound : pattern.reach? (a.rest.drop (rules.blankLength a.rest)) with
      | none => exact .inl ⟨rfl, rfl⟩
      | some length =>
        refine .inr (.inl ⟨_, _, rfl, rfl, h.twin_cut kind ?_⟩)
        have hlength := Pattern.reach_le (Pattern.reach?_eq_some_iff.mp hfound).1
        rw [List.length_drop] at hlength
        omega

end Newline

end Pair

end ShellGrammar
