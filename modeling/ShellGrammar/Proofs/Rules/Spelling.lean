import ShellGrammar.Grammar.Word
import ShellGrammar.Proofs.Lexer.Tiling

/-! How tokens are spelled.

Most kinds of tokens have one spelling, the same in every table that has the kind. A
node that stands for such a token need not keep its text: it can be written back from
the kind. Of the other kinds, quoted strings and names behind a `$` are kept without
the characters that mark them, and assignments without their `=`. -/
namespace ShellGrammar

/-! ### What a pattern takes -/

namespace Pattern

/-- A pattern takes `body` from the front of some text. -/
def Matches (p : Pattern) (body : Text) : Prop :=
  ∃ t n, p.reach t = some n ∧ t.take n = body

theorem Matches.of_lit {l body : Text} (h : (lit l).Matches body) : body = l := by
  obtain ⟨t, n, hreach, rfl⟩ := h
  simp only [reach, Option.ite_none_right_eq_some, Option.some.injEq] at hreach
  obtain ⟨hfront, rfl⟩ := hreach
  exact (List.prefix_iff_eq_take.mp (List.isPrefixOf_iff_prefix.mp hfront)).symm

theorem Matches.of_seq {p q : Pattern} {body : Text} (h : (seq p q).Matches body) :
    ∃ x y, body = x ++ y ∧ p.Matches x ∧ q.Matches y := by
  obtain ⟨t, n, hreach, rfl⟩ := h
  simp only [reach, Option.bind_eq_bind, Option.bind_eq_some_iff, Option.pure_def,
    Option.some.injEq] at hreach
  obtain ⟨a, ha, b, hb, rfl⟩ := hreach
  exact ⟨t.take a, (t.drop a).take b, List.take_add, ⟨t, a, ha, rfl⟩, ⟨t.drop a, b, hb, rfl⟩⟩

theorem Matches.of_alt {p q : Pattern} {body : Text} (h : (alt p q).Matches body) :
    p.Matches body ∨ q.Matches body := by
  obtain ⟨t, n, hreach, rfl⟩ := h
  unfold reach at hreach
  split at hreach
  · rename_i m hm
    exact .inl ⟨t, n, hm.trans hreach, rfl⟩
  · exact .inr ⟨t, n, hreach, rfl⟩

/-- What repeated pieces cover passes a test if all pieces do. -/
theorem all_covered {piece : Text → Option Nat} {test : Char → Bool}
    (h : ∀ t n, piece t = some n → (t.take n).all test = true) :
    ∀ (k : Nat) (t : Text), (t.take k).all test = true →
      (t.take (covered piece k t)).all test = true
  | _, [], _ => by simp
  | k + 1, c :: t, hk => by
    rw [List.take_succ_cons, List.all_cons, Bool.and_eq_true] at hk
    show ((c :: t).take (covered piece k t + 1)).all test = true
    rw [List.take_succ_cons, List.all_cons, hk.1, all_covered h k t hk.2, Bool.and_self]
  | 0, c :: t, _ => by
    unfold covered
    split
    · rename_i k hk
      have hfirst := h _ _ hk
      rw [List.take_succ_cons, List.all_cons, Bool.and_eq_true] at hfirst
      rw [List.take_succ_cons, List.all_cons, hfirst.1, all_covered h k t hfirst.2, Bool.and_self]
    · rfl

theorem Matches.of_one {test : Char → Bool} {body : Text} (h : (one test).Matches body) :
    ∃ c, body = [c] ∧ test c = true := by
  obtain ⟨t, n, hreach, rfl⟩ := h
  cases t with
  | nil => cases hreach
  | cons c t =>
    simp only [reach, Option.ite_none_right_eq_some, Option.some.injEq] at hreach
    obtain ⟨hc, rfl⟩ := hreach
    exact ⟨c, rfl, hc⟩

theorem Matches.of_many {test : Char → Bool} {body : Text} (h : (many (one test)).Matches body) :
    body.all test = true := by
  obtain ⟨t, n, hreach, rfl⟩ := h
  cases hreach
  refine all_covered (fun t n hn => ?_) 0 t rfl
  obtain ⟨c, hbody, hc⟩ := Matches.of_one ⟨t, n, hn, rfl⟩
  rw [hbody, List.all_cons, hc]
  rfl

/-- What the pattern of a name takes is a name. -/
theorem Matches.of_variableName {body : Text} (h : variableName.Matches body) :
    body.isVariableName = true := by
  obtain ⟨x, y, rfl, hstart, hrest⟩ := h.of_seq
  obtain ⟨c, rfl, hc⟩ := hstart.of_one
  rw [List.singleton_append, Text.isVariableName, hc, hrest.of_many, Bool.and_self]

end Pattern

/-! ### Kinds with one spelling -/

/-- The one text that tokens of a kind have, if they all have the same. -/
def Kind.spelling? : Kind → Option Text
  | doubleQuote => some ['"']
  | dollarBrace => some ['$', '{']
  | dollarParen => some ['$', '(']
  | dollarParen2 => some ['$', '(', '(']
  | backquote => some ['`']
  | inParen => some ['<', '(']
  | outParen => some ['>', '(']
  | newline => some ['\n']
  | semi => some [';']
  | amp => some ['&']
  | andAnd => some ['&', '&']
  | orOr => some ['|', '|']
  | pipe => some ['|']
  | pipeAmp => some ['|', '&']
  | lparen => some ['(']
  | rparen => some [')']
  | bracketAt => some ['[', '@', ']']
  | bracketStar => some ['[', '*', ']']
  | lbracket => some ['[']
  | rbracket => some [']']
  | rbrace => some ['}']
  | slash => some ['/']
  | bang => some ['!']
  | comma => some [',']
  | assign => some ['=']
  | mulAssign => some ['*', '=']
  | divAssign => some ['/', '=']
  | modAssign => some ['%', '=']
  | addAssign => some ['+', '=']
  | subAssign => some ['-', '=']
  | shlAssign => some ['<', '<', '=']
  | shrAssign => some ['>', '>', '=']
  | andAssign => some ['&', '=']
  | xorAssign => some ['^', '=']
  | orAssign => some ['|', '=']
  | question => some ['?']
  | colon => some [':']
  | caret => some ['^']
  | eqEq => some ['=', '=']
  | notEq => some ['!', '=']
  | le => some ['<', '=']
  | ge => some ['>', '=']
  | lt => some ['<']
  | gt => some ['>']
  | shl => some ['<', '<']
  | shr => some ['>', '>']
  | plus => some ['+']
  | minus => some ['-']
  | star => some ['*']
  | percent => some ['%']
  | starStar => some ['*', '*']
  | tilde => some ['~']
  | inc => some ['+', '+']
  | dec => some ['-', '-']
  | eos => some []
  | str | singleQuote | dollarName | name | glyph | sharp | op | assignHead | number | ident => none

namespace Rules

/-- The one pattern that rules of a kind have, if they all have the same. -/
def shape? : Kind → Option Pattern
  | .singleQuote => some singleQuoted.pattern
  | .dollarName => some dollarName
  | .ident => some .variableName
  | kind => kind.spelling?.map .lit

/-- Every table gives a kind with one shape that shape. -/
theorem pattern_of_shape {rules : Rules} {r : Rule} (hr : r ∈ rules.set.rules) {shape : Pattern}
    (hs : shape? r.kind = some shape) : r.pattern = shape := by
  revert r
  cases rules <;>
    simp [set, commandRules, paramRules, arithRules, doubleQuoteRules, wordUntilBraceRules,
      wordUntilSlashRules, expansions, singleQuoted, textUntil, loneDollar, shape?, Kind.spelling?]

theorem shape?_of_spelling {kind : Kind} {spelling : Text} (h : kind.spelling? = some spelling) :
    shape? kind = some (.lit spelling) := by
  cases kind <;> cases h <;> rfl

theorem firstFit_mem {rs : List Rule} {t : Text} {kind : Kind} {n : Nat}
    (h : firstFit rs t = some (kind, n)) :
    ∃ r ∈ rs, r.kind = kind ∧ r.pattern.reach? t = some n := by
  induction rs with
  | nil => cases h
  | cons r rs ih =>
    rw [firstFit] at h
    split at h
    · rename_i m hreach
      cases h
      exact ⟨r, List.mem_cons_self, rfl, hreach⟩
    · obtain ⟨r', hr', hfit⟩ := ih h
      exact ⟨r', List.mem_cons_of_mem r hr', hfit⟩

/-- A token is the end of the source, with no text, or what a rule of the table takes. -/
theorem tokenAt_rule {rules : Rules} {scan : Scan} {t : Token} (h : rules.tokenAt scan = .ok t) :
    (t.kind = .eos ∧ t.body = []) ∨
      ∃ r ∈ rules.set.rules, r.kind = t.kind ∧ r.pattern.Matches t.body := by
  obtain ⟨_, rfl⟩ | ⟨kind, length, hfit, rfl⟩ := tokenAt_cases h
  · exact .inl ⟨rfl, rfl⟩
  · obtain ⟨r, hr, hkind, hreach⟩ := firstFit_mem hfit
    exact .inr ⟨r, hr, hkind, _, length, (Pattern.reach?_eq_some_iff.mp hreach).1, rfl⟩

/-- No rule takes the end of the source, since a rule takes at least one character. -/
theorem firstFit_ne_eos {rules : Rules} {t : Text} {kind : Kind} {n : Nat}
    (h : firstFit rules.set.rules t = some (kind, n)) : kind ≠ .eos := by
  rintro rfl
  obtain ⟨r, hr, hkind, hreach⟩ := firstFit_mem h
  rw [pattern_of_shape hr (by rw [hkind]; rfl), Pattern.reach?_eq_some_iff] at hreach
  obtain ⟨hreach, hpos⟩ := hreach
  cases hreach
  cases hpos

/-- Where nothing is left stands the end of the source. -/
theorem tokenAt_nil {scan : Scan} (h : scan.rest = []) (rules : Rules) :
    rules.tokenAt scan = .ok (cut .eos 0 0 scan) := by
  have hskip : rules.skipLength scan = 0 := by
    have := skipLength_le rules scan
    rw [h, List.length_nil] at this
    omega
  simp only [tokenAt, hskip, h, List.drop_zero]

/-- Nothing is left behind the end of the source. -/
theorem rest_after_eos {rules : Rules} {scan : Scan} {t : Token}
    (h : rules.tokenAt scan = .ok t) (hk : t.kind = .eos) : t.after.rest = [] := by
  obtain ⟨hrest, rfl⟩ | ⟨kind, length, hfit, rfl⟩ := tokenAt_cases h
  · have hwhole := Token.rest_origin (fits_cut .eos (rules.skipLength scan) 0 scan)
    have htext : (cut .eos (rules.skipLength scan) 0 scan).text = scan.rest := by
      rw [Token.text, cut, List.take_zero, List.append_nil,
        List.take_of_length_le (List.drop_eq_nil_iff.mp hrest)]
    rw [htext] at hwhole
    exact List.append_right_eq_self.mp hwhole.symm
  · exact absurd hk (firstFit_ne_eos hfit)

theorem body_of_spelling {rules : Rules} {scan : Scan} {t : Token}
    (h : rules.tokenAt scan = .ok t) {spelling : Text} (hs : t.kind.spelling? = some spelling) :
    t.body = spelling := by
  obtain ⟨hkind, hbody⟩ | ⟨r, hr, hkind, hmatch⟩ := tokenAt_rule h
  · rw [hkind] at hs
    rw [hbody]
    exact Option.some.inj hs
  · rw [← hkind] at hs
    rw [pattern_of_shape hr (shape?_of_spelling hs)] at hmatch
    exact hmatch.of_lit

/-- A single-quoted string stands between its quotes. -/
theorem body_of_singleQuote {rules : Rules} {scan : Scan} {t : Token}
    (h : rules.tokenAt scan = .ok t) (hk : t.kind = .singleQuote) :
    t.body = '\'' :: (Grammar.between t.body ++ ['\'']) := by
  obtain ⟨hkind, _⟩ | ⟨r, hr, hkind, hmatch⟩ := tokenAt_rule h
  · rw [hkind] at hk
    cases hk
  · rw [pattern_of_shape hr (by rw [hkind, hk]; rfl)] at hmatch
    obtain ⟨_, _, hbody, hopen, hrest⟩ := hmatch.of_seq
    obtain ⟨x, _, rfl, _, hclose⟩ := hrest.of_seq
    rw [hbody, hopen.of_lit, hclose.of_lit]
    simp [Grammar.between]

/-- A name behind a `$` has the `$` in front. -/
theorem body_of_dollarName {rules : Rules} {scan : Scan} {t : Token}
    (h : rules.tokenAt scan = .ok t) (hk : t.kind = .dollarName) :
    t.body = '$' :: Grammar.withoutDollar t.body := by
  obtain ⟨hkind, _⟩ | ⟨r, hr, hkind, hmatch⟩ := tokenAt_rule h
  · rw [hkind] at hk
    cases hk
  · rw [pattern_of_shape hr (by rw [hkind, hk]; rfl)] at hmatch
    obtain ⟨_, x, hbody, hopen, _⟩ := hmatch.of_seq
    rw [hbody, hopen.of_lit]
    rfl

theorem isVariableName_of_ident {rules : Rules} {scan : Scan} {t : Token}
    (h : rules.tokenAt scan = .ok t) (hk : t.kind = .ident) : t.body.isVariableName = true := by
  obtain ⟨hkind, _⟩ | ⟨r, hr, hkind, hmatch⟩ := tokenAt_rule h
  · rw [hkind] at hk
    cases hk
  · rw [pattern_of_shape hr (by rw [hkind, hk]; rfl)] at hmatch
    exact hmatch.of_variableName

/-- A token of a given shape has the kind asked for, and its shape. -/
theorem takeAt_matches {rules : Rules} {pattern : Pattern} {kind : Kind} {allowBlank : Bool}
    {scan : Scan} {t : Token} (h : rules.takeAt pattern kind allowBlank scan = some t) :
    t.kind = kind ∧ pattern.Matches t.body := by
  obtain ⟨length, hreach, rfl⟩ := takeAt_cases h
  exact ⟨rfl, _, length, (Pattern.reach?_eq_some_iff.mp hreach).1, rfl⟩

end Rules

end ShellGrammar
