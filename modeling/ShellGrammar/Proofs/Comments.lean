import ShellGrammar.Proofs.Pair.Scan
import ShellGrammar.Proofs.Rules.Reach
import ShellGrammar.Proofs.Tree.Written

/-! Where comments start.

Among commands a `#` starts a comment if blank stands before it, and also right behind one
of the characters that end a word. That character is all that is looked at. What it was
part of is told by the token it ends: a newline, a terminal, an operator or the opener of
a list, which is meant, or the delimiter that closes a substitution, which is the end of a
piece of a word. `run_comments` says that there are no other cases: a `#` right behind
bare text, a quoted string, a name behind a `$` or the brace of an expansion is text; but
right behind a substitution it is always a comment.

The proof goes along the tokens of a derivation. A token is `Quiet` if no comment that
follows it can be out of place; `Passes` carries that from token to token. -/
namespace ShellGrammar

/-! ### Comments in front of tokens -/

namespace Token

/-- A comment stands in front of the token, with no blank before the `#`. -/
def Commented (t : Token) : Prop := t.blank.head? = some '#'

/-- Past a token with text, the last character of its text is the last one read. -/
theorem head?_before_after {t : Token} (h : t.Fits) {c : Char} (hc : t.body.getLast? = some c) :
    t.after.before.head? = some c := by
  have hbefore := congrArg List.getLast? (before_after h)
  rw [List.getLast?_reverse, text, ← List.append_assoc, List.getLast?_append, hc] at hbefore
  exact hbefore

end Token

namespace Rules

/-- A comment starts right where the reader stands: no blank is before it, there is the
`#`, and what was read last is nothing or ends a word. -/
theorem commented_tokenAt {rules : Rules} {place : Scan} {t : Token}
    (h : rules.tokenAt place = .ok t) (ht : t.Commented) :
    rules = .command ∧ place.rest.head? = some '#' ∧ commentMayStart 0 place = true := by
  have hblank := blank_of_tokenAt h
  rw [Token.Commented, hblank] at ht
  have hrest : place.rest.head? = some '#' := by
    cases hr : place.rest with
    | nil => simp [hr] at ht
    | cons c r =>
      cases hs : rules.skipLength place with
      | zero => simp [hs] at ht
      | succ n => simpa [hr, hs] using ht
  have hzero : rules.blankLength place.rest = 0 := by
    have hbarren := isBarren_blank rules place.rest
    cases hb : rules.blankLength place.rest with
    | zero => rfl
    | succ n =>
      obtain ⟨r, hr⟩ := List.head?_eq_some_iff.mp hrest
      rw [hb, hr, List.take_succ_cons, Text.isBarren, List.all_cons] at hbarren
      cases (Bool.and_eq_true_iff.mp hbarren).1
  have hskip : rules.skipLength place ≠ 0 := by
    intro hs
    simp [hs] at ht
  simp only [skipLength, hzero] at hskip
  by_cases hcommand : (rules.set.comments && commentMayStart 0 place) = true
  · obtain ⟨hc, hmay⟩ := Bool.and_eq_true_iff.mp hcommand
    refine ⟨?_, hrest, hmay⟩
    cases rules with
    | command => rfl
    | _ => cases hc
  · simp [hcommand] at hskip

/-- A line goes up to a newline or to the end of the text. -/
theorem drop_line (r : Text) :
    r.drop (Pattern.covered (Pattern.noneOf ['\n']).reach 0 r) = [] ∨
      ∃ more, r.drop (Pattern.covered (Pattern.noneOf ['\n']).reach 0 r) = '\n' :: more :=
  (Pattern.drop_noneOf '\n' r).imp And.right id

/-- What follows a word's end is skipped as a comment. -/
theorem tokenAt_commented {place : Scan} (hrest : place.rest.head? = some '#')
    (hmay : commentMayStart 0 place = true) :
    ∃ t, command.tokenAt place = .ok t ∧ t.Commented := by
  obtain ⟨r, hr⟩ := List.head?_eq_some_iff.mp hrest
  have hzero : command.blankLength place.rest = 0 := by
    rw [hr]
    rfl
  have hlength : commentLength ('#' :: r) =
      1 + Pattern.covered (Pattern.noneOf ['\n']).reach 0 r := by
    simp [commentLength, comment, Pattern.reach, List.isPrefixOf]
  have hskip : command.skipLength place =
      1 + Pattern.covered (Pattern.noneOf ['\n']).reach 0 r := by
    have hcomments : command.set.comments = true := rfl
    simp only [skipLength, hzero, hcomments, hmay, Bool.and_self, if_true, List.drop_zero]
    rw [hr, hlength, Nat.zero_add]
  have hdrop : place.rest.drop (command.skipLength place) =
      r.drop (Pattern.covered (Pattern.noneOf ['\n']).reach 0 r) := by
    rw [hskip, hr, Nat.add_comm, List.drop_succ_cons]
  have hblank : ∀ kind length,
      (cut kind (command.skipLength place) length place).Commented := by
    intro kind length
    simp [Token.Commented, cut, hskip, hr, Nat.add_comm 1]
  obtain hnil | ⟨more, hnewline⟩ := drop_line r
  · refine ⟨cut .eos (command.skipLength place) 0 place, ?_, hblank _ _⟩
    simp only [tokenAt, hdrop, hnil]
  · refine ⟨cut .newline (command.skipLength place) 1 place, ?_, hblank _ _⟩
    have hfit : firstFit command.set.rules ('\n' :: more) = some (.newline, 1) := rfl
    simp only [tokenAt, hdrop, hnewline, hfit]

end Rules

/-! ### Tokens that end words -/

/-- What a word can start behind: newlines, terminals, operators and the openers of
lists. -/
def wordHeads : List Kind := [
  .newline, .semi, .amp, .andAnd, .orOr, .pipe, .pipeAmp, .dollarParen, .inParen, .outParen,
  .backquote]

/-- What closes a substitution. -/
def substitutionEnds : List Kind := [.rparen, .backquote]

/-- A comment between two tokens that touch is behind the start or the end of a list, or
behind something else that no word goes on behind. -/
def Calm (p t : Token) : Prop :=
  t.origin = p.after → t.Commented → p.kind ∈ wordHeads ++ substitutionEnds

/-- Whatever stands behind the token among commands. -/
def Quiet (p : Token) : Prop :=
  ∀ t, Rules.command.tokenAt t.origin = .ok t → Calm p t

theorem quiet_of_kind {p : Token} (h : p.kind ∈ wordHeads ++ substitutionEnds) : Quiet p :=
  fun _ _ _ _ => h

/-- A token whose last character ends no word. -/
theorem quiet_of_last {p : Token} (hf : p.Fits) (c : Char) (hc : p.body.getLast? = some c)
    (hno : Rules.isBoundary c = false) : Quiet p := by
  intro t ht ho hcomment
  obtain ⟨_, _, hmay⟩ := Rules.commented_tokenAt ht hcomment
  rw [ho, Rules.commentMayStart, Token.head?_before_after hf hc, Option.map_some, hno] at hmay
  cases hmay

/-- A token that a `#` cannot stand behind. -/
theorem quiet_of_rest {p : Token} (h : p.after.rest.head? ≠ some '#') : Quiet p := by
  intro t ht ho hcomment
  obtain ⟨_, hrest, _⟩ := Rules.commented_tokenAt ht hcomment
  rw [ho] at hrest
  exact absurd hrest h

namespace Pattern

/-- Bare text that may hold a `#` stops at none. -/
theorem head?_drop_run {test : Char → Bool} (htest : test '#' = true) {t : Text} {n : Nat}
    (h : (run test).reach t = some n) : (t.drop n).head? ≠ some '#' := by
  have hpiece : ∀ u : Text, reach (.alt (one fun c => test c && c != '\\') escaped) ('#' :: u) =
      some 1 := by
    intro u
    simp [reach, htest]
  -- The first argument counts the characters left of the piece under way.
  have hcovered : ∀ (t : Text) (k : Nat), k ≤ t.length →
      (t.drop (covered (reach (.alt (one fun c => test c && c != '\\') escaped)) k t)).head? ≠
        some '#' := by
    intro t
    induction t with
    | nil => intro k _; simp
    | cons c t ih =>
      intro k hk
      cases k with
      | succ k => exact ih k (Nat.le_of_succ_le_succ hk)
      | zero =>
        unfold covered
        split
        · rename_i j hj
          have hle := reach_le hj
          exact ih j (Nat.le_of_succ_le_succ hle)
        · rename_i hnone
          intro hhead
          rw [List.drop_zero, List.head?_cons, Option.some.injEq] at hhead
          subst hhead
          exact hnone 0 (hpiece t)
  simp only [run, some1, reach, Option.bind_eq_bind, Option.bind_eq_some_iff, Option.pure_def,
    Option.some.injEq] at h
  obtain ⟨a, _, _, rfl, rfl⟩ := h
  rw [← List.drop_drop]
  exact hcovered (t.drop a) 0 (Nat.zero_le _)

end Pattern

namespace Rules

/-- The rules for bare text. -/
theorem filter_str (rules : Rules) :
    rules.set.rules.filter (·.kind = .str) =
      match rules with
      | command => [⟨.run fun c => !Text.isSpace c && !commandStops.contains c, .str⟩, loneDollar]
      | param | arith => []
      | doubleQuote => [textUntil ['"', '$', '`'], loneDollar]
      | wordUntilBrace => [textUntil ['}', '$', '`', '\'', '"'], loneDollar]
      | wordUntilSlash => [textUntil ['/', '}', '$', '`', '\'', '"'], loneDollar] := by
  cases rules <;> rfl

/-- Bare text is a lone `$`, or it may hold a `#`. -/
theorem str_rule {rules : Rules} {r : Rule} (hr : r ∈ rules.set.rules) (hk : r.kind = .str) :
    r = loneDollar ∨ ∃ test : Char → Bool, test '#' = true ∧ r = ⟨.run test, .str⟩ := by
  have hmem : r ∈ rules.set.rules.filter (·.kind = .str) :=
    List.mem_filter.mpr ⟨hr, decide_eq_true hk⟩
  rw [filter_str] at hmem
  cases rules with
  | param | arith => cases hmem
  | _ =>
    simp only [List.mem_cons, List.not_mem_nil, or_false] at hmem
    rcases hmem with rfl | rfl
    · exact .inr ⟨_, rfl, rfl⟩
    · exact .inl rfl

end Rules

/-- No `#` stands right behind bare text, unless it is a lone `$`. -/
theorem quiet_of_str {rules : Rules} {place : Scan} {p : Token}
    (h : rules.tokenAt place = .ok p) (hk : p.kind = .str) : Quiet p := by
  obtain ⟨hplace, hfits⟩ := Rules.tokenAt_fits h
  obtain ⟨_, rfl⟩ | ⟨kind, length, hfit, rfl⟩ := Rules.tokenAt_cases h
  · cases hk
  · have hbounds := Rules.length_cut kind hfit
    obtain ⟨r, hr, hkind, hreach⟩ := Rules.firstFit_mem hfit
    have hreach := (Pattern.reach?_eq_some_iff.mp hreach).1
    obtain rfl | ⟨test, htest, rfl⟩ := Rules.str_rule hr (hkind.trans hk)
    · apply quiet_of_last hfits '$' _ rfl
      have hmatch : (Pattern.lit ['$']).Matches
          (Rules.cut kind (rules.skipLength place) length place).body := ⟨_, _, hreach, rfl⟩
      rw [hmatch.of_lit]
      rfl
    · apply quiet_of_rest
      rw [Token.after, hbounds.1, hbounds.2, Scan.rest_forward, ← List.drop_drop]
      exact Pattern.head?_drop_run htest hreach

theorem not_boundary_of_nameRest {c : Char} (h : Text.isNameRest c = true) :
    Rules.isBoundary c = false := by
  rw [← Bool.not_eq_true, Rules.isBoundary, List.contains_iff_mem]
  intro hmem
  simp only [List.mem_cons, List.not_mem_nil, or_false] at hmem
  rcases hmem with rfl | rfl | rfl | rfl | rfl | rfl | rfl <;> cases h

/-- A name behind a `$` ends in a character that ends no word. -/
theorem Pattern.Matches.last_dollarName {body : Text} (h : Rules.dollarName.Matches body) :
    ∃ c, body.getLast? = some c ∧ Rules.isBoundary c = false := by
  obtain ⟨_, x, rfl, _, hname⟩ := h.of_seq
  rw [List.getLast?_append]
  obtain hname | hother := hname.of_alt
  · have hvariable := hname.of_variableName
    cases x with
    | nil => cases hvariable
    | cons d r =>
      rw [Text.isVariableName, Bool.and_eq_true, List.all_eq_true] at hvariable
      rw [List.getLast?_cons]
      refine ⟨r.getLast?.getD d, rfl, not_boundary_of_nameRest ?_⟩
      cases hr : r.getLast? with
      | none => exact Text.isNameRest_of_start hvariable.1
      | some e => exact hvariable.2 e (List.mem_of_getLast? hr)
  · obtain hdigit | hglyph := hother.of_alt
    · obtain ⟨d, rfl, hd⟩ := hdigit.of_one
      refine ⟨d, rfl, not_boundary_of_nameRest ?_⟩
      rw [Text.isNameRest, Char.isAlphanum, hd, Bool.or_true, Bool.true_or]
    · obtain ⟨d, rfl, hd⟩ := hglyph.of_one
      refine ⟨d, rfl, ?_⟩
      simp only [Rules.specialGlyphs, List.contains_iff_mem, List.mem_cons, List.not_mem_nil,
        or_false] at hd
      rcases hd with rfl | rfl | rfl | rfl | rfl | rfl | rfl <;> rfl

/-- The tokens that commands are made of, the closing brace of an expansion and the end of
the source. -/
def commandKinds : List Kind :=
  [.str, .singleQuote, .doubleQuote, .dollarName, .rbrace, .eos] ++ (wordHeads ++ substitutionEnds)

/-- Behind none of these a comment can be out of place. -/
theorem quiet_of_lexed {rules : Rules} {place : Scan} {p : Token}
    (h : rules.tokenAt place = .ok p) (hk : p.kind ∈ commandKinds) : Quiet p := by
  obtain ⟨_, hfits⟩ := Rules.tokenAt_fits h
  rw [commandKinds, List.mem_append] at hk
  obtain hk | hk := hk
  · simp only [List.mem_cons, List.not_mem_nil, or_false] at hk
    rcases hk with hk | hk | hk | hk | hk | hk
    · exact quiet_of_str h hk
    · apply quiet_of_last hfits '\'' _ rfl
      rw [Rules.body_of_singleQuote h hk, ← List.cons_append, List.getLast?_concat]
    · apply quiet_of_last hfits '"' _ rfl
      rw [Rules.body_of_spelling h (by rw [hk]; rfl)]
      rfl
    · obtain ⟨hkind, _⟩ | ⟨r, hr, hkind, hmatch⟩ := Rules.tokenAt_rule h
      · rw [hkind] at hk
        cases hk
      · rw [Rules.pattern_of_shape hr (by rw [hkind, hk]; rfl)] at hmatch
        obtain ⟨c, hc, hno⟩ := hmatch.last_dollarName
        exact quiet_of_last hfits _ hc hno
    · apply quiet_of_last hfits '}' _ rfl
      rw [Rules.body_of_spelling h (by rw [hk]; rfl)]
      rfl
    · apply quiet_of_rest
      rw [Rules.rest_after_eos h hk]
      nofun
  · exact quiet_of_kind hk

/-! ### From token to token -/

/-- Each of some tokens is calm behind the one before it, the first behind `p`, and the
last of all satisfies `Q`. -/
def Linked (Q : Token → Prop) : Token → List Token → Prop
  | p, [] => Q p
  | p, t :: ts => Calm p t ∧ Linked Q t ts

theorem linked_append {Q : Token → Prop} {p : Token} {ts us : List Token} :
    Linked Q p (ts ++ us) ↔ Linked (fun q => Linked Q q us) p ts := by
  induction ts generalizing p with
  | nil => exact Iff.rfl
  | cons t ts ih => simp only [List.cons_append, Linked, ih]

theorem Linked.mono {Q Q' : Token → Prop} (hQ : ∀ q, Q q → Q' q) :
    ∀ {p : Token} {ts : List Token}, Linked Q p ts → Linked Q' p ts
  | p, [], h => hQ p h
  | _, _ :: _, h => ⟨h.1, h.2.mono hQ⟩

/-- Behind any token that satisfies `P`, the tokens are linked, and the last of them
satisfies `Q`. -/
def Passes (P Q : Token → Prop) (ts : List Token) : Prop := ∀ p, P p → Linked Q p ts

namespace Passes
variable {P Q R : Token → Prop} {ts us : List Token} {t : Token}

theorem nil (h : ∀ p, P p → Q p) : Passes P Q [] := h

theorem append (h : Passes P Q ts) (h' : Passes Q R us) : Passes P R (ts ++ us) :=
  fun p hp => linked_append.mpr ((h p hp).mono h')

theorem one (h : ∀ p, P p → Calm p t ∧ Q t) : Passes P Q [t] := h

theorem cons (h : Passes P Q [t]) (h' : Passes Q R ts) : Passes P R (t :: ts) := h.append h'

theorem mono {P' Q' : Token → Prop} (h : Passes P Q ts) (hP : ∀ p, P' p → P p)
    (hQ : ∀ p, Q p → Q' p) : Passes P' Q' ts :=
  fun p hp => (h p (hP p hp)).mono hQ

end Passes

/-! ### Derivations -/

namespace Context
variable {c : Context} {t : Token}

/-- A token behind which a phrase can be read in a context: among commands it has to be
quiet. -/
def Ready (c : Context) (p : Token) : Prop := c.mode.rules = .command → Quiet p

/-- A token read in a context is calm behind one that is ready for it. -/
theorem Sees.calm {adjacent : Bool} (h : c.Sees adjacent t) {p : Token} (hp : c.Ready p) :
    Calm p t := by
  intro ho hcomment
  obtain ⟨hrules, _⟩ := Rules.commented_tokenAt h.lexed hcomment
  have hlexed := h.lexed
  rw [hrules] at hlexed
  exact hp hrules t hlexed ho hcomment

/-- No comment stands before a token that is taken by its shape. -/
theorem Takes.not_commented {pattern : Pattern} {kind : Kind} {allowBlank : Bool}
    (h : c.Takes pattern kind allowBlank t) : ¬ t.Commented := by
  intro hcomment
  obtain ⟨length, _, heq⟩ := Rules.takeAt_cases h
  have hbarren := Rules.isBarren_blank c.mode.rules t.origin.rest
  have hblank : t.blank = t.origin.rest.take (c.mode.rules.blankLength t.origin.rest) := by
    rw [heq]
    rfl
  rw [← hblank] at hbarren
  obtain ⟨r, hr⟩ := List.head?_eq_some_iff.mp hcomment
  rw [hr, Text.isBarren, List.all_cons, Bool.and_eq_true] at hbarren
  cases hbarren.1

theorem Sees.passes {adjacent : Bool} (h : c.Sees adjacent t) (hk : t.kind ∈ commandKinds) :
    Passes c.Ready Quiet [t] :=
  .one fun _ hp => ⟨h.calm hp, quiet_of_lexed h.lexed hk⟩

theorem Sees.stays {adjacent : Bool} (h : c.Sees adjacent t) (hk : t.kind ∈ commandKinds) :
    Passes c.Ready c.Ready [t] :=
  (h.passes hk).mono (fun _ => id) fun _ hq _ => hq

theorem Finds.stays {kind : Kind} {kinds : List Kind} (h : c.Finds (kind :: kinds) t)
    (hk : ∀ k ∈ kind :: kinds, k ∈ commandKinds) : Passes c.Ready c.Ready [t] :=
  h.reads.stays (hk _ h.mem)

theorem Sees.opens {adjacent : Bool} (h : c.Sees adjacent t) :
    Passes c.Ready (fun _ => True) [t] :=
  .one fun _ hp => ⟨h.calm hp, trivial⟩

theorem Newlines.passes {ts : List Token} (h : c.Newlines ts) : Passes c.Ready c.Ready ts := by
  induction ts with
  | nil => exact .nil fun _ => id
  | cons t ts ih =>
    exact .cons ((h t List.mem_cons_self).stays (by decide))
      (ih fun u hu => h u (List.mem_cons_of_mem t hu))

theorem Takes.passes {pattern : Pattern} {kind : Kind} {allowBlank : Bool}
    (h : c.Takes pattern kind allowBlank t) {P : Token → Prop} (ht : Quiet t) :
    Passes P Quiet [t] :=
  .one fun _ _ => ⟨fun _ hcomment => absurd hcomment h.not_commented, ht⟩

/-- Between tokens that are taken by their shape, or read elsewhere than among commands,
there are no comments. -/
theorem Takes.free {pattern : Pattern} {kind : Kind} {allowBlank : Bool}
    (h : c.Takes pattern kind allowBlank t) : Passes (fun _ => True) (fun _ => True) [t] :=
  .one fun _ _ => ⟨fun _ hcomment => absurd hcomment h.not_commented, trivial⟩

theorem Optional.free {pattern : Pattern} {kind : Kind} {o : Option Token}
    (h : c.Optional pattern kind o) : Passes (fun _ => True) (fun _ => True) o.toList := by
  cases o with
  | none => exact .nil fun _ => id
  | some t => exact (h t rfl).free

theorem ready_of_ne (hc : c.mode.rules ≠ .command) (p : Token) : c.Ready p :=
  fun h => absurd h hc

theorem Sees.free {adjacent : Bool} (h : c.Sees adjacent t) (hc : c.mode.rules ≠ .command) :
    Passes (fun _ => True) (fun _ => True) [t] :=
  h.opens.mono (fun p _ => ready_of_ne hc p) fun _ => id

theorem under_ne {rules : Rules} {allowBlank : Bool} (h : rules ≠ .command) :
    (c.under rules allowBlank).mode.rules ≠ .command := h

/-- The head of an assignment ends no word. -/
theorem Accepts.quiet_assign (h : c.Accepts Grammar.assignHead .assignHead t) : Quiet t := by
  apply quiet_of_last (Rules.takeAt_fits h).2 '=' _ rfl
  obtain ⟨x, _, hbody, _, heq⟩ := (Rules.takeAt_matches h).2.of_seq
  rw [hbody, heq.of_lit, List.getLast?_concat]

/-- The brace of an expansion ends no word. -/
theorem Closes.passes {blankBeforeBrace : Bool} (h : c.Closes blankBeforeBrace t)
    (hc : c.mode.rules ≠ .command) : Passes (fun _ => True) Quiet [t] := by
  cases blankBeforeBrace with
  | false =>
    have hfinds : c.Finds [.rbrace] t := h
    refine (hfinds.reads.passes ?_).mono (fun p _ => ready_of_ne hc p) fun _ => id
    rw [hfinds.kind_eq]
    decide
  | true =>
    have htakes : c.Takes (.lit ['}']) .rbrace true t := h
    refine htakes.passes (quiet_of_last (Rules.takeAt_fits htakes).2 '}' ?_ rfl)
    rw [(Rules.takeAt_matches htakes).2.of_lit]
    rfl

end Context

theorem Heading.free {c : Context} {h : Grammar.Head} {ts : List Token} (hh : Heading c h ts)
    (hc : c.mode.rules ≠ .command) : Passes (fun _ => True) (fun _ => True) ts := by
  cases hh with
  | named hlength href ht => exact (hlength.free.append href.free).append (ht.reads.free hc)
  | bang hlength ht => exact hlength.free.append ht.free
  | sharp ht => exact ht.free

namespace Phrase

/-- A phrase that can stand in a context: forms and arithmetic do not stand among commands. -/
@[simp] def Allowed (c : Context) : Phrase → Prop
  | .payload rules => rules ≠ .command
  | .form .. | .operand | .comma _ | .assignment | .ternary | .binary .. | .power | .unary | .post
  | .primary => c.mode.rules ≠ .command
  | _ => True

/-- What has to hold of the token before a phrase. -/
@[simp] def Starts (c : Context) : Phrase → Token → Prop
  | .nestedList _ => Quiet
  | .doubleQuoted | .parameter | .arithExpansion | .payload _ | .form .. | .operand | .comma _
  | .assignment | .ternary | .binary .. | .power | .unary | .post | .primary => fun _ => True
  | _ => c.Ready

/-- What holds of the last token of a phrase, or of the one before it if it has none. -/
@[simp] def Ends (c : Context) : Phrase → Token → Prop
  | .doubleQuoted | .parameter | .arithExpansion | .nestedList _ => Quiet
  | .payload _ | .form .. | .operand | .comma _ | .assignment | .ternary | .binary .. | .power
  | .unary | .post | .primary => fun _ => True
  | _ => c.Ready

end Phrase

theorem Closer.kind_mem (closer : Closer) : closer.kind ∈ commandKinds := by
  cases closer <;> decide

/-- Along the tokens of a phrase every comment is in its place. -/
theorem Derives.passes {c : Context} {p : Phrase} {as : List Node} {ts : List Token} {n : Nat}
    (h : Derives c p as ts n) (hp : p.Allowed c) : Passes (p.Starts c) (p.Ends c) ts := by
  induction h with
  | manyNil | param => exact .nil fun _ => id
  | @manyCons _ p _ _ _ _ _ _ hpart _ _ ih ih' =>
    cases p <;> first | exact (ih trivial).append (ih' trivial) | cases hpart
  -- Commands
  | @list _ closer _ _ _ _ _ ht ih =>
    exact (ih trivial).append (ht.stays fun k hk => List.mem_singleton.mp hk ▸ closer.kind_mem)
  | entriesNil hus => exact hus.passes
  | entriesLast hus _ _ ih => exact hus.passes.append (ih trivial)
  | entriesCons hus _ _ _ ih ih' => exact hus.passes.append ((ih trivial).append (ih' trivial))
  | entry _ ih | andOrFirst _ ih | pipeline _ ih | pipeFirst _ ih | word _ ih => exact ih trivial
  | entryTerminated _ ht ih => exact (ih trivial).append (ht.stays (by decide))
  | andOrFold _ ht hus _ ih ih' | pipeFold _ ht hus _ ih ih' =>
    exact (ih trivial).append (.cons (ht.stays (by decide)) (hus.passes.append (ih' trivial)))
  | pipelineNegated ht _ _ ih => exact .cons (ht.stays (by decide)) (ih trivial)
  | command _ _ _ ih ih' | wordConcat _ _ ih ih' => exact (ih trivial).append (ih' trivial)
  | assignBare ht => exact (ht.passes ht.quiet_assign).mono (fun _ => id) fun _ hq _ => hq
  | assign ht _ ih =>
    exact .cons (ht.passes ht.quiet_assign)
      ((ih trivial).mono (fun _ hq _ => hq) fun _ hq _ => hq rfl)
  -- Words
  | str ht hk | singleQuoted ht hk | simpleParam ht hk => exact ht.stays (by rw [hk]; decide)
  | pieceQuoted ht _ _ ih | pieceParameter ht _ _ ih | pieceArith ht _ _ ih =>
    exact .cons ht.opens ((ih trivial).mono (fun _ => id) fun _ hq _ => hq)
  | pieceCommand ht hk _ ih | pieceBackquoted ht hk _ _ ih =>
    exact .cons (ht.passes (by rw [hk]; decide)) ((ih trivial).mono (fun _ => id) fun _ hq _ => hq)
  | pieceProcess ht hk _ ih =>
    refine .cons (ht.passes ?_) ((ih trivial).mono (fun _ => id) fun _ hq _ => hq)
    simp only [List.mem_cons, List.not_mem_nil, or_false] at hk
    rcases hk with hk | hk <;> rw [hk] <;> decide
  | payloadEmpty => exact .nil fun _ => id
  | payload _ ih =>
    exact (ih trivial).mono (fun p _ => Context.ready_of_ne (Context.under_ne hp) p) fun _ _ => trivial
  -- Behind an opener
  | doubleQuoted _ ht ih =>
    have hpieces := (ih trivial).mono
      (fun p (_ : True) => Context.ready_of_ne (Context.under_ne (by decide)) p) fun _ => id
    exact hpieces.append (ht.reads.passes (by rw [ht.kind_eq]; decide))
  | parameterLength hh _ ht =>
    exact (hh.free (Context.under_ne (by decide))).append (ht.passes (Context.under_ne (by decide)))
  | parameter hh _ _ ht ih =>
    exact (hh.free (Context.under_ne (by decide))).append
      ((ih (Context.under_ne (by decide))).append (ht.passes (Context.under_ne (by decide))))
  | arithExpansion _ ht ih =>
    exact (ih (Context.under_ne (by decide))).append
      (ht.passes (quiet_of_kind (by rw [ht.kind_eq]; decide)))
  | nestedList _ ih => exact (ih trivial).mono (fun _ hq _ => hq) fun _ hq => hq rfl
  -- Parameters
  | arrayKeys ht | arrayElements ht => exact ht.reads.free hp
  | paramDefault ht _ ih | patternRemoval ht _ ih | caseChange ht _ ih =>
    exact .cons ht.free (ih (by simp))
  | substring ht _ ih => exact .cons ht.free (ih hp)
  | substringLength ht _ hu _ ih ih' =>
    exact Passes.append (.cons ht.free (ih hp)) (.cons hu.free (ih' hp))
  | patternReplacement ht hanchor _ ih =>
    exact Passes.append (.cons ht.free hanchor.free) (ih (by simp))
  | patternReplaced ht hanchor _ hu _ ih ih' =>
    exact Passes.append (.cons ht.free hanchor.free)
      (.append (ih (by simp)) (.cons hu.free (ih' (by simp))))
  | paramTransform ht hu => exact .cons ht.free hu.free
  | namesStarting _ ht _ => exact ht.free
  | arrayElement ht _ hu ih => exact Passes.append (.cons (ht.reads.free hp) (ih hp)) hu.free
  | operand _ ih => exact ih (Context.under_ne (by decide))
  -- Arithmetic
  | commaFirst _ ih | assignment _ ih | ternary _ ih | binaryFirst _ ih | power _ ih | unary _ ih
  | post _ ih => exact ih hp
  | commaFold _ ht _ ih ih' | powerOp _ ht _ ih ih' =>
    exact (ih hp).append (.cons (ht.reads.free hp) (ih' hp))
  | assignmentOp ht hu _ ih => exact .cons (ht.reads.free hp) (.cons (hu.reads.free hp) (ih hp))
  | ternaryOp _ ht _ hu _ ih₁ ih₂ ih₃ =>
    exact Passes.append ((ih₁ hp).append (.cons (ht.reads.free hp) (ih₂ hp)))
      (.cons (hu.reads.free hp) (ih₃ hp))
  | binaryFold _ ht _ _ _ ih ih' => exact (ih hp).append (.cons (ht.free hp) (ih' hp))
  | unaryOp ht _ ih => exact .cons (ht.reads.free hp) (ih hp)
  | postOp _ ht ih => exact (ih hp).append (ht.reads.free hp)
  | number ht _ | var ht _ | varDollar ht _ => exact ht.free hp
  | parentheses ht _ _ hu ih =>
    exact Passes.append (.cons (ht.free hp) (ih hp)) (hu.reads.free hp)
  | primaryParameter ht _ _ ih | primaryArith ht _ _ ih =>
    exact .cons (ht.free hp) ((ih trivial).mono (fun _ => id) fun _ _ => trivial)
  | primaryCommand ht hk _ ih =>
    refine .cons ?_ ((ih trivial).mono (fun _ => id) fun _ _ => trivial)
    exact (ht.passes (by rw [hk]; decide)).mono (fun p _ => Context.ready_of_ne hp p) fun _ => id

/-! ### Scripts -/

theorem Linked.exists_last {Q : Token → Prop} :
    ∀ {p : Token} {ts : List Token}, Linked Q p ts → ∃ q, Q q
  | p, [], h => ⟨p, h⟩
  | _, _ :: _, h => h.2.exists_last

theorem Linked.calm {Q : Token → Prop} {q p t : Token} {front back : List Token}
    (h : Linked Q q (front ++ p :: t :: back)) : Calm p t := by
  obtain ⟨_, hlinked⟩ := (linked_append.mp h).exists_last
  exact hlinked.2.1

theorem Tiles.origin_eq {start stop : Scan} {front back : List Token} {p t : Token}
    (h : Tiles start (front ++ p :: t :: back) stop) : t.origin = p.after := by
  obtain ⟨_, _, _, _, ho, _⟩ := tiles_append.mp h
  exact ho

/-- Where comments start in a script that parses. Right behind another token, a comment
starts only where a word can start or where a substitution ends; and right behind the
character that ends a substitution, every `#` among commands starts one. -/
theorem run_comments {options : Options} {source : Text} {tree : Node} {s : ParseState}
    (h : run options source = .ok tree s) :
    (∀ front p t back, s.lexer.consumed = front ++ p :: t :: back → t.Commented →
      p.kind ∈ wordHeads ∨ p.kind ∈ substitutionEnds) ∧
    ∀ place : Scan, place.before.head? ∈ [some ')', some '`'] → place.rest.head? = some '#' →
      ∃ t, Rules.command.tokenAt place = .ok t ∧ t.Commented := by
  constructor
  · intro front p t back hconsumed hcomment
    obtain ⟨_, _, hcurrent, hderives⟩ := run_derives h
    obtain ⟨_, htiles, _⟩ := tiles_append.mp
      ((Lexer.consumed_append_ahead s.lexer).symm ▸ hcurrent.tiles)
    rw [hconsumed] at htiles hderives
    -- A script may start with a comment, as if a newline stood before it.
    have hstart : Quiet ⟨.newline, .ofText [], [], ['\n']⟩ := quiet_of_kind (by decide)
    have hcalm := (hderives.passes trivial _ fun _ => hstart).calm
    exact List.mem_append.mp (hcalm htiles.origin_eq hcomment)
  · intro place hbefore hrest
    apply Rules.tokenAt_commented hrest
    simp only [List.mem_cons, List.not_mem_nil, or_false] at hbefore
    rcases hbefore with hbefore | hbefore <;> rw [Rules.commentMayStart, hbefore] <;> rfl

/-- The word of `$(a)#b` is `$(a)` alone: the rest of the line is a comment, right behind the
parenthesis. -/
theorem run_comments_substitution :
    ∃ s, run ⟨0⟩ ['$', '(', 'a', ')', '#', 'b'] = .ok (.list [.pipelines (.pipeline false
        (.simpleCommand [] [.commandSubst ['$', '('] (.list [.pipelines (.pipeline false
          (.simpleCommand [] [.str ['a']])) none])])) none]) s ∧
      ∀ front p t back, s.lexer.consumed = front ++ p :: t :: back → t.Commented →
        p.kind ∈ wordHeads ∨ p.kind ∈ substitutionEnds := by
  have hparse : (parse ⟨0⟩ ['$', '(', 'a', ')', '#', 'b']).toOption = some (.list [.pipelines
      (.pipeline false (.simpleCommand [] [.commandSubst ['$', '('] (.list [.pipelines
        (.pipeline false (.simpleCommand [] [.str ['a']])) none])])) none]) := by decide +kernel
  obtain ⟨s, hs⟩ := parse_eq_ok_iff.mp (parse_of_toOption hparse)
  exact ⟨s, hs, (run_comments hs).1⟩

end ShellGrammar
