import ShellGrammar.Proofs.Blame
import ShellGrammar.Proofs.Rules.Ahead

/-! Faults point at what they describe.

A fault has a cause and a place. The place is that of the text which the last look of the
parse came upon (`parse_blames`), so it is a piece of the source, cut between characters, and
the position is the line and column where the piece begins. What the cause says of the piece
follows from how the rules then in force cut it off: a character that starts no token, a token
by its text, or the end of the source, where nothing is left (`Cause.Describes`). -/
namespace ShellGrammar
open Grammar ParseM

variable {source : Text} {l : Lexer}

/-- A text between backquotes. -/
def quoted (t : Text) : Text := '`' :: (t ++ ['`'])

/-- What a syntactic fault says was found, for the text that was found between two others. -/
structure FoundAt (mode : Mode) (before body after found : Text) : Prop where
  eos_iff : body = [] ↔ found = "end of input".toList
  /-- An empty piece stands where the source ends. -/
  ended : body = [] → after = []
  named : body ≠ [] →
    found = "newline".toList ∧ body = ['\n'] ∨
    found = quoted body ∨
    found = quoted body ++ " after blank".toList ∧ mode.allowBlank = false ∧
      ∃ front gap, before = front ++ gap ∧ gap ≠ [] ∧
        mode.rules.blankLength (gap ++ (body ++ after)) = gap.length

/-- A cause is right about the text between two others, where it was read in a mode. -/
def Cause.Describes (limit : Nat) (mode : Mode) (before body after : Text) : Cause → Prop
  | .lexical found => body = [found] ∧
      ∀ r ∈ mode.rules.set.rules, r.pattern.reach? (body ++ after) = none
  | .syntactic _ found => FoundAt mode before body after found
  | .tooDeep max => max = limit

/-- A fault lies in a source, between characters, and is right about what stands there. -/
def Fault.Points (source : Text) (limit : Nat) (mode : Mode) (f : Fault) : Prop :=
  f.start.Locates source ∧
    ∃ before body after, source = before ++ (body ++ after) ∧
      f.span = ⟨Text.bytes before, Text.bytes before + Text.bytes body⟩ ∧
      f.cause.Describes limit mode before body after

/-! ### What no rule takes -/

namespace Rules
variable {rules : Rules} {scan : Scan}

/-- Text at fault is a character behind the blank that starts no token. -/
theorem tokenAt_error {f : LexFault} (h : rules.tokenAt scan = .error f) :
    ∃ after, scan.rest.drop (rules.skipLength scan) = f.found :: after ∧
      f.start = scan.pos.advance (scan.rest.take (rules.skipLength scan)) ∧
      ∀ r ∈ rules.set.rules, r.pattern.reach? (f.found :: after) = none := by
  simp only [tokenAt] at h
  split at h
  · cases h
  · rename_i c after hrest
    split at h
    · cases h
    · rename_i hfit
      cases h
      exact ⟨after, hrest, rfl, reach?_of_firstFit hfit⟩

end Rules

/-! ### Places in a source -/

/-- A character where a scan stands, behind some text. -/
theorem Scan.On.split {s : Scan} (h : s.On source) {n : Nat} {body after : Text}
    (hrest : s.rest.drop n = body ++ after) :
    source = (s.before.reverse ++ s.rest.take n) ++ (body ++ after) ∧
      s.pos.advance (s.rest.take n) = Position.start.advance (s.before.reverse ++ s.rest.take n) := by
  refine ⟨?_, ?_⟩
  · rw [← hrest, List.append_assoc, List.take_append_drop]
    exact h.whole.symm
  · rw [Position.advance_append, ← h.placed]

/-- A span that begins behind one text and covers the next. -/
theorem span_advance (before body : Text) :
    (⟨(Position.start.advance before).offset,
      ((Position.start.advance before).advance body).offset⟩ : Span) =
      ⟨Text.bytes before, Text.bytes before + Text.bytes body⟩ := by
  have hoffset : (Position.start.advance before).offset = Text.bytes before := by
    rw [Position.offset_advance]
    exact Nat.zero_add _
  rw [Position.offset_advance (Position.start.advance before) body, hoffset]

/-! ### Lexical faults -/

theorem upcoming_error {f : LexFault} (h : l.upcoming = .error (.fault f)) :
    l.mode.rules.tokenAt l.here = .error f := by
  rw [Lexer.upcoming] at h
  cases ht : l.mode.rules.tokenAt l.here with
  | ok t => rw [ht] at h; cases h
  | error g => rw [ht] at h; cases h; rfl

theorem upcoming_of_map {β : Type} {g : Token → β} {e : Halt LexFault}
    (h : l.upcoming.map g = .error e) : l.upcoming = .error e := by
  cases hu : l.upcoming with
  | ok t => rw [hu] at h; cases h
  | error e' => rw [hu] at h; cases h; rfl

/-- Only a look at text that is at fault is answered with a fault. -/
theorem Move.tokenAt_of_answer {m : Move} {f : LexFault} (h : l.Current source)
    (hanswer : m.answer l = .error (.fault f)) : l.mode.rules.tokenAt l.here = .error f := by
  have hback : m ≠ .back := by
    rintro rfl
    simp only [answer, ask, Lexer.answer, SeqRight.seqRight, EStateM.seqRight, LexM.back] at hanswer
    cases hn : l.next <;> simp only [hn] at hanswer <;> cases hanswer
  rw [m.answer_eq h hback] at hanswer
  cases m with
  | peek _ | next _ | peekAny | peekAdjacent _ => exact upcoming_error (upcoming_of_map hanswer)
  | leave =>
    rw [told] at hanswer
    split at hanswer <;> cases hanswer
  | accept _ _ | acceptWith _ _ _ | back | enter _ _ => cases hanswer

theorem Fault.points_lexical {m : Move} {f : LexFault} {limit : Nat} (h : l.Current source)
    (hanswer : m.answer l = .error (.fault f)) :
    (Fault.ofLexFault f).Points source limit l.mode := by
  obtain ⟨after, hrest, hstart, hno⟩ := Rules.tokenAt_error (m.tokenAt_of_answer h hanswer)
  have hcut : l.here.rest.drop (l.mode.rules.skipLength l.here) = [f.found] ++ after := hrest
  obtain ⟨hsource, hplace⟩ := h.toTiled.here_on.split hcut
  rw [hplace] at hstart
  refine ⟨?_, _, [f.found], after, hsource, ?_, rfl, hno⟩
  · show f.start.Locates source
    rw [hstart, hsource]
    exact Position.locates_advance _ _
  · show (⟨f.start.offset, (f.start.step f.found).offset⟩ : Span) = _
    rw [hstart]
    exact span_advance _ [f.found]

/-! ### Faults at tokens -/

theorem tokenAt_of_peekAny {t : Token} (h : l.Current source)
    (hanswer : Move.peekAny.answer l = .ok (some t)) : l.mode.rules.tokenAt l.here = .ok t := by
  rw [Move.answer_eq h .peekAny (fun hm => by cases hm), Move.told, Lexer.upcoming] at hanswer
  cases ht : l.mode.rules.tokenAt l.here with
  | ok u => rw [ht] at hanswer; cases hanswer; rfl
  | error f => rw [ht] at hanswer; cases hanswer

/-- A token stands in the source behind its blank. -/
theorem Token.split {t : Token} (ho : t.origin.On source) (hf : t.Fits) :
    source = (t.origin.before.reverse ++ t.blank) ++ (t.body ++ t.after.rest) ∧
      t.start = Position.start.advance (t.origin.before.reverse ++ t.blank) := by
  have hrest : t.origin.rest = t.blank ++ (t.body ++ t.after.rest) := by
    rw [Token.rest_origin hf, Token.text, List.append_assoc]
  have hcut : t.origin.rest.drop t.blank.length = t.body ++ t.after.rest := by
    rw [hrest, List.drop_left]
  obtain ⟨hsource, hplace⟩ := ho.split hcut
  rw [hrest, List.take_left] at hsource hplace
  exact ⟨hsource, hplace⟩

theorem Fault.points_token {t : Token} {cause : Cause} {limit : Nat} (h : l.Current source)
    (ht : l.mode.rules.tokenAt l.here = .ok t)
    (hcause : cause.Describes limit l.mode (t.origin.before.reverse ++ t.blank) t.body t.after.rest) :
    (Fault.atToken cause t).Points source limit l.mode := by
  obtain ⟨ho, hf⟩ := Rules.tokenAt_fits ht
  have hon : t.origin.On source := by rw [ho]; exact h.toTiled.here_on
  obtain ⟨hsource, hstart⟩ := Token.split hon hf
  refine ⟨Token.locates_start hon hf, _, t.body, t.after.rest, hsource, ?_, hcause⟩
  show (⟨t.start.offset, (t.start.advance t.body).offset⟩ : Span) = _
  rw [hstart]
  exact span_advance _ t.body

/-! ### What was found -/

section Found
variable {rules : Rules} {t : Token}

theorem Token.body_eq_nil_iff (h : rules.tokenAt t.origin = .ok t) :
    t.body = [] ↔ t.kind = .eos := by
  constructor
  · intro hbody
    obtain ⟨_, heq⟩ | ⟨kind, length, hfit, heq⟩ := Rules.tokenAt_cases h
    · rw [heq]
      rfl
    · have hlength := (Rules.length_cut kind hfit).2
      rw [← heq, hbody, List.length_nil] at hlength
      exact absurd hlength.symm (Nat.ne_of_gt (Rules.firstFit_pos hfit))
  · intro hkind
    exact Rules.body_of_spelling h (by rw [hkind]; rfl)

theorem Token.describe_of_ne {t : Token} (heos : t.kind ≠ .eos) (hnewline : t.kind ≠ .newline) :
    t.describe = quoted t.body := by
  unfold Token.describe quoted
  split
  · rename_i h; exact absurd h heos
  · rename_i h; exact absurd h hnewline
  · rfl

/-- Among parameters a newline is a character like any other. -/
theorem Rules.param_newline : ∀ r ∈ Rules.param.set.rules, r.kind ≠ .newline := by
  decide

theorem Token.newline_of_param (h : Rules.param.tokenAt t.origin = .ok t) : t.kind ≠ .newline := by
  intro hkind
  obtain ⟨heos, _⟩ | ⟨r, hr, hrule, _⟩ := Rules.tokenAt_rule h
  · rw [heos] at hkind
    cases hkind
  · exact Rules.param_newline r hr (hrule.trans hkind)

/-- Among parameters there are no comments, so what is skipped is blank. -/
theorem Token.blank_of_param (h : Rules.param.tokenAt t.origin = .ok t) :
    Rules.param.blankLength (t.blank ++ (t.body ++ t.after.rest)) = t.blank.length := by
  have hblank : t.blank.length = Rules.param.skipLength t.origin := by
    have hle := Rules.skipLength_le .param t.origin
    obtain ⟨_, heq⟩ | ⟨kind, length, _, heq⟩ := Rules.tokenAt_cases h <;>
    · have htake : t.blank = t.origin.rest.take (Rules.param.skipLength t.origin) :=
        congrArg Token.blank heq
      rw [htake, List.length_take, Nat.min_eq_left hle]
  rw [← List.append_assoc, ← Token.text, ← Token.rest_origin (Rules.tokenAt_fits h).2, hblank]
  rfl

/-- What is said to be found where a token is refused is that token. -/
theorem foundAt_refused {mode : Mode} {before : Text} (hplain : mode.Plain)
    (h : mode.rules.tokenAt t.origin = .ok t) :
    FoundAt mode (before ++ t.blank) t.body t.after.rest (refused t mode.allowBlank) := by
  have hquoted : ∀ more : Text, quoted t.body ++ more ≠ "end of input".toList := fun _ => nofun
  by_cases heos : t.kind = .eos
  · have hbody := (Token.body_eq_nil_iff h).mpr heos
    have hfound : refused t mode.allowBlank = "end of input".toList := by
      rw [refused, heos, Token.describe, heos]
      rfl
    exact ⟨⟨fun _ => hfound, fun _ => hbody⟩, fun _ => Rules.rest_after_eos h heos,
      fun hne => absurd hbody hne⟩
  have hbody : t.body ≠ [] := fun hnil => heos ((Token.body_eq_nil_iff h).mp hnil)
  by_cases hopen : t.isAdjacent = true ∨ mode.allowBlank = true
  · have hfound : refused t mode.allowBlank = t.describe := by
      rw [refused, if_pos]
      simpa [or_assoc] using Or.inr hopen
    rw [hfound]
    by_cases hnewline : t.kind = .newline
    · have hnamed : t.describe = "newline".toList := by rw [Token.describe, hnewline]
      rw [hnamed]
      exact ⟨⟨fun hnil => absurd hnil hbody, nofun⟩, fun hnil => absurd hnil hbody,
        fun _ => .inl ⟨rfl, Rules.body_of_spelling h (by rw [hnewline]; rfl)⟩⟩
    · rw [Token.describe_of_ne heos hnewline]
      exact ⟨⟨fun hnil => absurd hnil hbody, nofun⟩, fun hnil => absurd hnil hbody,
        fun _ => .inr (.inl rfl)⟩
  · obtain ⟨hgap, hrefuses⟩ := not_or.mp hopen
    have hparam : mode.rules = .param := hplain.resolve_left hrefuses
    have hfound : refused t mode.allowBlank = t.describe ++ " after blank".toList := by
      rw [refused, if_neg]
      simpa [heos] using And.intro hgap hrefuses
    have hread : Rules.param.tokenAt t.origin = .ok t := hparam ▸ h
    rw [hfound, Token.describe_of_ne heos (Token.newline_of_param hread)]
    refine ⟨⟨fun hnil => absurd hnil hbody, nofun⟩, fun hnil => absurd hnil hbody,
      fun _ => .inr (.inr ⟨rfl, eq_false_of_ne_true hrefuses, before, t.blank, rfl, ?_, ?_⟩)⟩
    · exact fun hnil => hgap (List.isEmpty_iff.mpr hnil)
    · rw [hparam]
      exact Token.blank_of_param hread

end Found

/-- A fault that a look tells points at what the look came upon. -/
theorem Fault.Tells.points {limit : Nat} {m : Move} {f : Fault} (htells : Fault.Tells limit l m f)
    (h : l.Current source) : f.Points source limit l.mode := by
  cases htells with
  | lexical hanswer => exact Fault.points_lexical h hanswer
  | @syntactic expected t hanswer hplain =>
    have ht := tokenAt_of_peekAny h hanswer
    have hread : l.mode.rules.tokenAt t.origin = .ok t := by rwa [(Rules.tokenAt_fits ht).1]
    exact Fault.points_token h ht (foundAt_refused hplain hread)
  | tooDeep hanswer => exact Fault.points_token h (tokenAt_of_peekAny h hanswer) rfl

/-- A parse that stops at a fault has taken a last look at what is ahead, from where it only
left the rule sets it was in. The fault is the answer to that look, or is made of the token
it showed, and points at it under the rules it was taken by. -/
theorem parse_faults {options : Options} {source : Text} {f : Fault}
    (h : parse options source = .error (.fault f)) :
    ∃ count m, (parseMoves options source)[count]? = some m ∧
      (∀ u ∈ (parseMoves options source).drop (count + 1), u = .leave) ∧
      Fault.Tells options.maxDepth (lexerAfter options source count) m f ∧
      f.Points source options.maxDepth (lexerAfter options source count).mode := by
  obtain ⟨front, m, leaves, hmoves, hleaves, htells⟩ := parse_blames h
  have htake : (parseMoves options source).take front.length = front := by
    rw [hmoves, List.take_left]
  have hdrop : (parseMoves options source).drop (front.length + 1) = leaves := by
    rw [hmoves, ← List.drop_drop, List.drop_left]
    rfl
  have hafter : lexerAfter options source front.length = (Lexer.ofText source).run front := by
    rw [lexerAfter, htake]
  rw [← hafter] at htells
  refine ⟨front.length, m, ?_, fun u hu => hleaves u (hdrop ▸ hu), htells,
    htells.points (current_lexerAfter options source front.length)⟩
  rw [hmoves, List.getElem?_append_right (Nat.le_refl _), Nat.sub_self]
  rfl

/-- A brace behind blank, where a parameter has to end. -/
theorem parse_faults_blank :
    ∃ f, parse ⟨1⟩ "$\x7ba \x7d".toList = .error (.fault f) ∧
      f.cause = .syntactic .closingBrace "`\x7d` after blank".toList ∧
      ∃ count m, (parseMoves ⟨1⟩ "$\x7ba \x7d".toList)[count]? = some m ∧
        (∀ u ∈ (parseMoves ⟨1⟩ "$\x7ba \x7d".toList).drop (count + 1), u = .leave) ∧
        Fault.Tells 1 (lexerAfter ⟨1⟩ "$\x7ba \x7d".toList count) m f ∧
        f.Points "$\x7ba \x7d".toList 1 (lexerAfter ⟨1⟩ "$\x7ba \x7d".toList count).mode := by
  have hstop : parse ⟨1⟩ "$\x7ba \x7d".toList =
      .error (.fault ⟨.syntactic .closingBrace "`\x7d` after blank".toList, ⟨4, 1, 5⟩, ⟨5, 1, 6⟩⟩) :=
    parse_of_stop (by decide +kernel)
  exact ⟨_, hstop, rfl, parse_faults hstop⟩

end ShellGrammar
