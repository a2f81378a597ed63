import ShellGrammar.Proofs.Embedded
import ShellGrammar.Proofs.Rules.Longest
import ShellGrammar.Proofs.Rules.Reblank

/-! Where a lexer stops.

A table lists what can be read, and a lexer stops where nothing of it fits. `Rules.Refuses` says
which texts these are, one context at a time and without the tables: most characters start some
token, so there are only a few. `refuses_iff` compares it with the tables. Reading one token then
comes to one of three things (`produce_exact`): the end of the source, a fault at the first
character that is left, or a token with text of its own. -/
namespace ShellGrammar

namespace Text

/-- A single quote that opens a string and nothing that closes it. -/
def IsUnclosed (t : Text) : Prop := ∃ more, t = '\'' :: more ∧ '\'' ∉ more

/-- A `<` or a `>` that opens no substitution. -/
def IsRedirection (t : Text) : Prop :=
  ∃ c more, t = c :: more ∧ (c = '<' ∨ c = '>') ∧ more.head? ≠ some '('

/-- White space that neither separates words nor ends a line. -/
def IsStraySpace (t : Text) : Prop :=
  ∃ c more, t = c :: more ∧ isSpace c = true ∧ c ∉ [' ', '\t', '\n']

/-- The characters that are an operator of arithmetic or start one. -/
def arithMarks : Text :=
  ['<', '>', '*', '+', '-', '=', '!', '&', '|', '/', '%', '^', '?', ':', ',', '~', '(', ')', ']',
    '}']

/-- What an expression can go on with: a name, a number, an operator or a parenthesis, or a `$`
with something behind it that it opens or names. -/
def IsArithmetic (t : Text) : Prop :=
  ∃ c more, t = c :: more ∧
    (c.isAlpha = true ∨ c.isDigit = true ∨ c = '_' ∨ c ∈ arithMarks ∨
      c = '$' ∧ ∃ d, more.head? = some d ∧ (d = '(' ∨ d = '{' ∨ d.isAlpha = true ∨
        d.isDigit = true ∨ d = '_' ∨ d ∈ ['-', '*', '@', '#', '?', '$', '!']))

end Text

namespace Rules

/-- The texts that start with no token of a context. -/
def Refuses : Rules → Text → Prop
  | param, _ => False
  | doubleQuote, t => t = ['\\']
  | wordUntilBrace, t | wordUntilSlash, t => t = ['\\'] ∨ t.IsUnclosed
  | command, t => t = ['\\'] ∨ t.IsUnclosed ∨ t.IsRedirection ∨ t.IsStraySpace
  | arith, t => t ≠ [] ∧ ¬ t.IsArithmetic

end Rules

open Rules

namespace Rules
open Pattern
variable {rules : Rules} {c d : Char} {t u more : Text}

/-! ### What fits -/

/-- Where a text starts with something that a rule of the table describes, some rule fits. -/
theorem firstFit_of_denotes {r : Rule} (hr : r ∈ rules.set.rules) (hu : r.pattern.Denotes u)
    (hne : u ≠ []) (hfront : u <+: t) : firstFit rules.set.rules t ≠ none := by
  intro hnone
  obtain ⟨n, hn, hle⟩ := greedy_of_mem hr hu hfront
  have hpos : 0 < n := Nat.lt_of_lt_of_le (List.length_pos_iff.mpr hne) hle
  have hmissed := reach?_of_firstFit hnone r hr
  rw [reach?_eq_some_iff.mpr ⟨hn, hpos⟩] at hmissed
  cases hmissed

theorem prefix_of_head (c : Char) (more : Text) : [c] <+: c :: more := ⟨more, rfl⟩

/-- Whether a rule takes one given character and nothing else. -/
def takesChar (c : Char) (r : Rule) : Bool :=
  match r.pattern with
  | .lit [d] => d == c
  | _ => false

/-- A character that is a token of its own is one whatever follows, or starts a longer one. -/
theorem firstFit_of_char (h : rules.set.rules.any (takesChar c) = true) :
    firstFit rules.set.rules (c :: more) ≠ none := by
  obtain ⟨r, hr, hc⟩ := List.any_eq_true.mp h
  have hpattern : r.pattern = .lit [c] := by
    unfold takesChar at hc
    split at hc
    · rename_i d hd
      rw [hd, beq_iff_eq.mp hc]
    · cases hc
  exact firstFit_of_denotes hr (hpattern ▸ .lit [c]) (List.cons_ne_nil c []) (prefix_of_head c more)

/-- Where nothing that a rule takes starts like the text, none fits. -/
theorem firstFit_of_start {rs : List Rule} (h : ∀ r ∈ rs, r.pattern.mayStart c = false) :
    firstFit rs (c :: more) = none := by
  rw [firstFit_filter, List.filter_eq_nil_iff.mpr fun r hr => Bool.not_eq_true _ ▸ h r hr]
  rfl

/-! ### Tables with bare text -/

section Run
variable (hrun : (⟨.run rules.text, .str⟩ : Rule) ∈ rules.set.rules)
include hrun

/-- Bare text starts with a character that it can hold. -/
theorem firstFit_of_text (hc : rules.text c = true) (hslash : c ≠ '\\') :
    firstFit rules.set.rules (c :: more) ≠ none := by
  have htest : (rules.text c && c != '\\') = true := by simp [hc, hslash]
  exact firstFit_of_denotes hrun (.seq (.first (.one htest)) .stop) (List.cons_ne_nil c [])
    (prefix_of_head c more)

/-- A backslash escapes what follows it. -/
theorem firstFit_of_escaped : firstFit rules.set.rules ('\\' :: d :: more) ≠ none :=
  firstFit_of_denotes hrun (.seq (.second (.seq (.lit _) (.one rfl))) .stop)
    (List.cons_ne_nil _ _) ⟨more, rfl⟩

/-- Where bare text could start, only a lone backslash is refused. -/
theorem text_of_firstFit (h : firstFit rules.set.rules (c :: more) = none) :
    c :: more = ['\\'] ∨ rules.text c = false := by
  by_cases hslash : c = '\\'
  · subst hslash
    cases more with
    | nil => exact .inl rfl
    | cons d more => exact absurd h (firstFit_of_escaped hrun)
  · refine .inr (Bool.eq_false_iff.mpr fun hc => ?_)
    exact firstFit_of_text hrun hc hslash h

end Run

/-- A quoted string is one token if it is closed. -/
theorem firstFit_quote (hmem : singleQuoted ∈ rules.set.rules) :
    firstFit rules.set.rules ('\'' :: more) = none ↔ '\'' ∉ more := by
  rw [firstFit_filter, filter_quote rules hmem, ← reach_singleQuoted_none]
  constructor
  · intro h
    have hmissed := reach?_of_firstFit h singleQuoted List.mem_cons_self
    refine Option.eq_none_iff_forall_ne_some.mpr fun n hn => ?_
    have hpos : n ≠ 0 := by
      rintro rfl
      cases nullable_of_reach hn
    rw [reach?_eq_some_iff.mpr ⟨hn, Nat.pos_of_ne_zero hpos⟩] at hmissed
    cases hmissed
  · intro h
    simp only [firstFit, reach?, h, Option.filter_none]

/-! ### Each table -/

theorem mem_of_text {stops : Text} (h : (!stops.contains c) = false) : c ∈ stops := by
  simpa using h

theorem firstFit_param : firstFit param.set.rules (c :: more) ≠ none := by
  have hany : (⟨.any, .glyph⟩ : Rule) ∈ param.set.rules := by simp [set, paramRules]
  exact firstFit_of_denotes hany (.one rfl) (List.cons_ne_nil c []) (prefix_of_head c more)

theorem firstFit_doubleQuote :
    firstFit doubleQuote.set.rules (c :: more) = none ↔ c :: more = ['\\'] := by
  have hrun : (⟨.run doubleQuote.text, .str⟩ : Rule) ∈ doubleQuote.set.rules := by
    simp [set, doubleQuoteRules, textUntil, text]
  have hchars : ∀ c ∈ ['"', '$', '`'], doubleQuote.set.rules.any (takesChar c) = true :=
    List.all_eq_true.mp (by decide)
  constructor
  · intro h
    refine (text_of_firstFit hrun h).resolve_right fun hc => ?_
    exact firstFit_of_char (hchars c (mem_of_text hc)) h
  · intro h
    rw [h]
    exact firstFit_backslash (by decide)

/-- In the words of expansions, what bare text cannot hold is a token of its own or a quote. -/
theorem firstFit_word (stops : Text) (hparam : rules ≠ .param)
    (hrun : (⟨.run rules.text, .str⟩ : Rule) ∈ rules.set.rules)
    (hquote : singleQuoted ∈ rules.set.rules)
    (htext : rules.text = fun c => !stops.contains c)
    (hchars : (stops.erase '\'').all (fun c => rules.set.rules.any (takesChar c)) = true) :
    firstFit rules.set.rules (c :: more) = none ↔
      c :: more = ['\\'] ∨ Text.IsUnclosed (c :: more) := by
  constructor
  · intro h
    obtain hslash | hc := text_of_firstFit hrun h
    · exact .inl hslash
    rw [htext] at hc
    by_cases hq : c = '\''
    · subst hq
      exact .inr ⟨more, rfl, (firstFit_quote hquote).mp h⟩
    · have hmem : c ∈ stops.erase '\'' := (List.mem_erase_of_ne hq).mpr (mem_of_text hc)
      exact absurd h (firstFit_of_char (List.all_eq_true.mp hchars c hmem))
  · rintro (h | ⟨_, h, hopen⟩)
    · rw [h]
      exact firstFit_backslash hparam
    · obtain ⟨rfl, rfl⟩ := List.cons.inj h
      exact (firstFit_quote hquote).mpr hopen

/-- What a rule starts with, for the rules that always start with the same character. -/
theorem start_cases (p : Char → Bool) {rs : List Rule} (others : List Rule)
    (hopening : ∀ r ∈ rs, r.pattern.opening?.all p = true)
    (hothers : rs.filter (·.pattern.opening?.isNone) = others) {r : Rule} (hr : r ∈ rs)
    (h : r.pattern.mayStart c = true) : p c = true ∨ r ∈ others := by
  cases hd : r.pattern.opening? with
  | none => exact .inr (hothers ▸ List.mem_filter.mpr ⟨hr, by rw [hd]; rfl⟩)
  | some d =>
    refine .inl ?_
    have hp := hopening r hr
    rw [hd] at hp
    exact eq_of_opening hd h ▸ hp

theorem mayStart_run {test : Char → Bool} (h : (Pattern.run test).mayStart c = true) :
    test c = true ∨ c = '\\' := by
  have hnull : (alt (one fun c => test c && c != '\\') escaped).nullable = false := rfl
  have hescaped : escaped.mayStart c = true → c = '\\' := eq_of_opening rfl
  rw [Pattern.run, Pattern.some1, mayStart, hnull, Bool.false_and, Bool.or_false, mayStart,
    mayStart, Bool.or_eq_true, Bool.and_eq_true] at h
  exact h.imp And.left hescaped

/-- Among commands only a newline is white space that starts something. -/
theorem space_of_mayStart {r : Rule} (hr : r ∈ command.set.rules) (h : r.pattern.mayStart c = true)
    (hspace : Text.isSpace c = true) : c = '\n' := by
  have hopening : ∀ r ∈ command.set.rules,
      r.pattern.opening?.all (fun d => d == '\n' || !Text.isSpace d) = true := by decide
  obtain hp | hrun := start_cases _ [⟨.run command.text, .str⟩] hopening rfl hr h
  · simpa [hspace] using hp
  · rw [List.mem_singleton.mp hrun] at h
    obtain htext | rfl := mayStart_run h
    · simp [text, hspace] at htext
    · cases hspace

/-- A `<` or a `>` opens a substitution or nothing. -/
theorem firstFit_redirection (hc : c = '<' ∨ c = '>') :
    firstFit command.set.rules (c :: more) = none ↔ more.head? ≠ some '(' := by
  have hfilter : ∃ kind,
      command.set.rules.filter (·.pattern.mayStart c) = [⟨.lit [c, '('], kind⟩] := by
    rcases hc with rfl | rfl
    · exact ⟨_, rfl⟩
    · exact ⟨_, rfl⟩
  obtain ⟨kind, hfilter⟩ := hfilter
  rw [firstFit_filter, hfilter]
  cases more with
  | nil => simp [firstFit, reach?, reach, List.isPrefixOf]
  | cons d more =>
    by_cases hd : '(' = d
    · subst hd
      simp [firstFit, reach?, reach, List.isPrefixOf, Option.filter]
    · simp [firstFit, reach?, reach, List.isPrefixOf, hd, Ne.symm hd]

theorem firstFit_command (hblank : c ∉ [' ', '\t']) :
    firstFit command.set.rules (c :: more) = none ↔ command.Refuses (c :: more) := by
  have hrun : (⟨.run command.text, .str⟩ : Rule) ∈ command.set.rules := by
    simp [set, commandRules, text]
  have hquote : singleQuoted ∈ command.set.rules := by simp [set, commandRules]
  have hchars : ∀ c ∈ '\n' :: commandStops, (['\'', '<', '>'].contains c ||
      command.set.rules.any (takesChar c)) = true :=
    List.all_eq_true.mp (by decide)
  constructor
  · intro h
    obtain hslash | hc := text_of_firstFit hrun h
    · exact .inl hslash
    by_cases hq : c = '\''
    · subst hq
      exact .inr (.inl ⟨more, rfl, (firstFit_quote hquote).mp h⟩)
    by_cases hd : c = '<' ∨ c = '>'
    · exact .inr (.inr (.inl ⟨c, more, rfl, hd, (firstFit_redirection hd).mp h⟩))
    have hother : c ∉ '\n' :: commandStops := fun hmem =>
      firstFit_of_char ((Bool.or_eq_true _ _ ▸ hchars c hmem).resolve_left (by simp_all)) h
    refine .inr (.inr (.inr ⟨c, more, rfl, ?_, ?_⟩))
    · have : Text.isSpace c = true ∨ c ∈ commandStops := by
        simpa [text, Classical.or_iff_not_imp_left] using hc
      exact this.resolve_right fun hmem => hother (List.mem_cons_of_mem _ hmem)
    · simp_all
  · rintro (h | ⟨_, h, hopen⟩ | ⟨d, _, h, hd, hparen⟩ | ⟨d, _, h, hspace, hd⟩)
    · rw [h]
      exact firstFit_backslash (by decide)
    · obtain ⟨rfl, rfl⟩ := List.cons.inj h
      exact (firstFit_quote hquote).mpr hopen
    · obtain ⟨rfl, rfl⟩ := List.cons.inj h
      exact (firstFit_redirection hd).mpr hparen
    · obtain ⟨rfl, rfl⟩ := List.cons.inj h
      refine firstFit_of_start fun r hr => Bool.eq_false_iff.mpr fun hstart => hd ?_
      simp [space_of_mayStart hr hstart hspace]

/-! ### Arithmetic -/

theorem isNameStart_iff : Text.isNameStart c = true ↔ c.isAlpha = true ∨ c = '_' := by
  simp [Text.isNameStart]

/-- A name, a number, an operator or an expansion is taken where it starts. -/
theorem firstFit_of_arithmetic (h : Text.IsArithmetic t) : firstFit arith.set.rules t ≠ none := by
  have hname : (⟨.variableName, .ident⟩ : Rule) ∈ arith.set.rules := by simp [set, arithRules]
  have hnumber : (⟨numberLiteral, .number⟩ : Rule) ∈ arith.set.rules := by simp [set, arithRules]
  have hdollar : (⟨dollarName, .dollarName⟩ : Rule) ∈ arith.set.rules := by
    simp [set, arithRules, expansions]
  have hparen : (⟨.lit ['$', '('], .dollarParen⟩ : Rule) ∈ arith.set.rules := by
    simp [set, arithRules, expansions]
  have hbrace : (⟨.lit ['$', '{'], .dollarBrace⟩ : Rule) ∈ arith.set.rules := by
    simp [set, arithRules, expansions]
  have hchars : ∀ c ∈ Text.arithMarks, arith.set.rules.any (takesChar c) = true :=
    List.all_eq_true.mp (by decide)
  have hstart : ∀ {c more}, Text.isNameStart c = true →
      firstFit arith.set.rules (c :: more) ≠ none :=
    fun hc => firstFit_of_denotes hname (.seq (.one hc) .stop) (List.cons_ne_nil _ [])
      (prefix_of_head _ _)
  obtain ⟨c, more, rfl, hc⟩ := h
  rcases hc with hc | hc | rfl | hc | ⟨rfl, d, hd, hcase⟩
  · exact hstart (isNameStart_iff.mpr (.inl hc))
  · exact firstFit_of_denotes hnumber (.second (.second (.seq (.one hc) .stop)))
      (List.cons_ne_nil c []) (prefix_of_head c more)
  · exact hstart rfl
  · exact firstFit_of_char (hchars c hc)
  · obtain ⟨more, rfl⟩ : ∃ rest, more = d :: rest := by
      cases more with
      | nil => cases hd
      | cons e rest => exact ⟨rest, by rw [Option.some.inj hd]⟩
    have hnamed : (alt .variableName (.alt .digit (.oneOf specialGlyphs))).Denotes [d] →
        firstFit arith.set.rules ('$' :: d :: more) ≠ none := fun hu =>
      firstFit_of_denotes hdollar (.seq (.lit _) hu) (List.cons_ne_nil _ _) ⟨more, rfl⟩
    rcases hcase with rfl | rfl | hd | hd | rfl | hd
    · exact firstFit_of_denotes hparen (.lit _) (List.cons_ne_nil _ _) ⟨more, rfl⟩
    · exact firstFit_of_denotes hbrace (.lit _) (List.cons_ne_nil _ _) ⟨more, rfl⟩
    · exact hnamed (.first (.seq (.one (isNameStart_iff.mpr (.inl hd))) .stop))
    · exact hnamed (.second (.first (.one hd)))
    · exact hnamed (.first (.seq (.one rfl) .stop))
    · exact hnamed (.second (.second (.one (List.contains_iff_mem.mpr hd))))

theorem eq_of_denotes_lit {l : Text} (h : (Pattern.lit l).Denotes u) : u = l := by
  cases h
  rfl

/-- A `$` with a name, a digit or a glyph behind it. -/
theorem cons_of_dollarName (h : dollarName.Denotes u) :
    ∃ d v, u = '$' :: d :: v ∧
      (Text.isNameStart d = true ∨ d.isDigit = true ∨ d ∈ specialGlyphs) := by
  unfold dollarName at h
  cases h with
  | seq hsign hname =>
    cases hsign
    cases hname with
    | first hname =>
      cases hname with
      | seq hstart hrest =>
        cases hstart with
        | one hd => exact ⟨_, _, rfl, .inl hd⟩
    | second hshort =>
      cases hshort with
      | first hdigit =>
        cases hdigit with
        | one hd => exact ⟨_, _, rfl, .inr (.inl hd)⟩
      | second hglyph =>
        cases hglyph with
        | one hd => exact ⟨_, _, rfl, .inr (.inr (List.contains_iff_mem.mp hd))⟩

/-- Behind a `$` stands what it opens or names, or nothing is taken. -/
theorem head?_of_expansion {r : Rule} (hr : r ∈ expansions) (hu : r.pattern.Denotes u)
    (hfront : u <+: '$' :: more) :
    ∃ d, more.head? = some d ∧ (d = '(' ∨ d = '{' ∨ d.isAlpha = true ∨ d.isDigit = true ∨
      d = '_' ∨ d ∈ specialGlyphs) := by
  have hhead : ∀ {d v}, u = '$' :: d :: v → more.head? = some d := fun huv => by
    obtain ⟨rest, hrest⟩ := (List.cons_prefix_cons.mp (huv ▸ hfront)).2
    rw [← hrest]
    rfl
  simp only [expansions, List.mem_cons, List.not_mem_nil, or_false] at hr
  rcases hr with rfl | rfl | rfl | rfl
  · exact ⟨'(', hhead (eq_of_denotes_lit hu), .inl rfl⟩
  · exact ⟨'(', hhead (eq_of_denotes_lit hu), .inl rfl⟩
  · exact ⟨'{', hhead (eq_of_denotes_lit hu), .inr (.inl rfl)⟩
  · obtain ⟨d, v, rfl, hd⟩ := cons_of_dollarName hu
    refine ⟨d, hhead rfl, ?_⟩
    rcases hd with hname | hdigit | hglyph
    · obtain hletter | rfl := isNameStart_iff.mp hname
      · exact .inr (.inr (.inl hletter))
      · exact .inr (.inr (.inr (.inr (.inl rfl))))
    · exact .inr (.inr (.inr (.inl hdigit)))
    · exact .inr (.inr (.inr (.inr (.inr hglyph))))

/-- What a rule of arithmetic takes is one of these. -/
theorem arithmetic_of_firstFit (h : firstFit arith.set.rules (c :: more) ≠ none) :
    Text.IsArithmetic (c :: more) := by
  have hopening : ∀ r ∈ arith.set.rules,
      r.pattern.opening?.all (fun d => d == '$' || Text.arithMarks.contains d) = true := by decide
  obtain ⟨⟨kind, n⟩, hfit⟩ := Option.ne_none_iff_exists'.mp h
  obtain ⟨r, hr, rfl, hreach⟩ := firstFit_mem hfit
  have hstart : r.pattern.mayStart c = true := by
    refine Bool.not_eq_false _ ▸ fun hno => ?_
    rw [reach?_eq_none_of_mayStart hno] at hreach
    cases hreach
  refine ⟨c, more, rfl, ?_⟩
  by_cases hdollar : c = '$'
  · subst hdollar
    have hexpansion : r ∈ expansions :=
      (show arith.set.rules.filter (·.pattern.mayStart '$') = expansions from rfl) ▸
        List.mem_filter.mpr ⟨hr, hstart⟩
    exact .inr (.inr (.inr (.inr ⟨rfl, head?_of_expansion hexpansion
      (denotes_of_reach (reach?_eq_some_iff.mp hreach).1) (List.take_prefix n _)⟩)))
  · obtain hp | hother := start_cases _ [⟨numberLiteral, .number⟩, ⟨.variableName, .ident⟩]
      hopening rfl hr hstart
    · refine .inr (.inr (.inr (.inl ?_)))
      simpa [hdollar] using hp
    · simp only [List.mem_cons, List.not_mem_nil, or_false] at hother
      rcases hother with rfl | rfl
      · exact .inr (.inl (isDigit_of_number hstart))
      · have hname : Text.isNameStart c = true := by
          simpa [variableName, mayStart, nullable] using hstart
        obtain hletter | rfl := isNameStart_iff.mp hname
        · exact .inl hletter
        · exact .inr (.inr (.inl rfl))

theorem firstFit_arith_iff :
    firstFit arith.set.rules (c :: more) = none ↔ arith.Refuses (c :: more) := by
  constructor
  · intro h
    exact ⟨List.cons_ne_nil c more, fun harith => firstFit_of_arithmetic harith h⟩
  · rintro ⟨-, hnot⟩
    exact Classical.not_not.mp fun h => hnot (arithmetic_of_firstFit h)

/-! ### All tables -/

/-- Of the texts behind the blank, the tables refuse what is refused. -/
theorem refuses_iff (hne : t ≠ []) (hblank : rules.blankLength t = 0) :
    firstFit rules.set.rules t = none ↔ rules.Refuses t := by
  obtain ⟨c, more, rfl⟩ := List.exists_cons_of_ne_nil hne
  cases rules with
  | command =>
    refine firstFit_command fun hc => ?_
    simp only [List.mem_cons, List.not_mem_nil, or_false] at hc
    rw [blankLength_eq_covered command rfl] at hblank
    rcases hc with rfl | rfl
    · cases hblank
    · cases hblank
  | param => exact ⟨fun h => firstFit_param h, False.elim⟩
  | arith => exact firstFit_arith_iff
  | doubleQuote => exact firstFit_doubleQuote
  | wordUntilBrace =>
    refine firstFit_word ['}', '$', '`', '\'', '"'] (by decide) ?_ ?_ rfl (by decide)
    · simp [set, wordUntilBraceRules, textUntil, text]
    · simp [set, wordUntilBraceRules]
  | wordUntilSlash =>
    refine firstFit_word ['/', '}', '$', '`', '\'', '"'] (by decide) ?_ ?_ rfl (by decide)
    · simp [set, wordUntilSlashRules, textUntil, text]
    · simp [set, wordUntilSlashRules]

/-- Behind what is skipped stands no blank. -/
theorem blankLength_behind (rules : Rules) (scan : Scan) :
    rules.blankLength (scan.rest.drop (rules.skipLength scan)) = 0 := by
  by_cases hskip : rules.skipLength scan = 0
  · have hle : rules.blankLength scan.rest ≤ rules.skipLength scan := by
      rw [skipLength]
      split <;> omega
    rw [hskip, List.drop_zero]
    omega
  · exact (skipped_all hskip).1

theorem not_refuses_nil (rules : Rules) : ¬ rules.Refuses [] := by
  cases rules <;> simp [Refuses, Text.IsUnclosed, Text.IsRedirection, Text.IsStraySpace]

/-- At a place the source has ended, or something is refused, or a token stands there. -/
theorem tokenAt_outcomes (rules : Rules) (scan : Scan) :
    (scan.rest.drop (rules.skipLength scan) = [] ∧
      rules.tokenAt scan = .ok (cut .eos (rules.skipLength scan) 0 scan)) ∨
    (∃ c more, scan.rest.drop (rules.skipLength scan) = c :: more ∧ rules.Refuses (c :: more) ∧
      rules.tokenAt scan = .error ⟨c, scan.pos.advance (scan.rest.take (rules.skipLength scan))⟩) ∨
    ∃ kind length, ¬ rules.Refuses (scan.rest.drop (rules.skipLength scan)) ∧ kind ≠ .eos ∧
      0 < length ∧ length ≤ (scan.rest.drop (rules.skipLength scan)).length ∧
      rules.tokenAt scan = .ok (cut kind (rules.skipLength scan) length scan) := by
  have hblank := blankLength_behind rules scan
  cases hleft : scan.rest.drop (rules.skipLength scan) with
  | nil => exact .inl ⟨rfl, by simp only [tokenAt, hleft]⟩
  | cons c more =>
    have hiff := refuses_iff (List.cons_ne_nil c more) (hleft ▸ hblank)
    cases hfit : firstFit rules.set.rules (c :: more) with
    | none => exact .inr (.inl ⟨c, more, rfl, hiff.mp hfit, by simp only [tokenAt, hleft, hfit]⟩)
    | some fit =>
      have hnot : ¬ rules.Refuses (c :: more) := fun h => by
        rw [hiff.mpr h] at hfit
        cases hfit
      exact .inr (.inr ⟨fit.1, fit.2, hnot, firstFit_ne_eos hfit, firstFit_pos hfit,
        (firstFit_bounds hfit).2, by simp only [tokenAt, hleft, hfit]⟩)

end Rules

open Rules LexM

/-- **A lexer stops exactly where nothing can be read.** Wherever it stands in a source, what is
left behind the blank is refused by the rules in force exactly if reading a token is a fault. The
fault is at the first character that is left, and the lexer is as it was. Where nothing is left
the token is the end of the source, and in all other cases it has text of its own. -/
theorem produce_exact {source : Text} {l : Lexer} (h : l.scan.On source) :
    let skip := l.mode.rules.skipLength l.scan
    let left := l.scan.rest.drop skip
    (l.mode.rules.Refuses left ↔ ∃ f l', produce l = .error (.fault f) l') ∧
    (∀ e l', produce l = .error e l' → l' = l ∧ ∃ c more, left = c :: more ∧
      e = .fault ⟨c, l.scan.pos.advance (l.scan.rest.take skip)⟩) ∧
    (left = [] → produce l = .ok () (l.buffer (cut .eos skip 0 l.scan))) ∧
    (left ≠ [] → ¬ l.mode.rules.Refuses left → ∃ kind length, kind ≠ .eos ∧ 0 < length ∧
      length ≤ left.length ∧ produce l = .ok () (l.buffer (cut kind skip length l.scan))) := by
  intro skip left
  have hproduce := produce_eq h
  rcases tokenAt_outcomes l.mode.rules l.scan with
    ⟨hnil, htoken⟩ | ⟨c, more, hcons, hrefuses, htoken⟩ |
      ⟨kind, length, hnot, hkind, hpos, hle, htoken⟩
  · have hrun : produce l = .ok () (l.buffer (cut .eos skip 0 l.scan)) := by rw [hproduce, htoken]
    refine ⟨iff_of_false ?_ ?_, ?_, fun _ => hrun, fun hne => absurd hnil hne⟩
    · rw [show left = [] from hnil]
      exact not_refuses_nil _
    · rintro ⟨f, l', hfault⟩
      cases hrun.symm.trans hfault
    · intro e l' herror
      cases hrun.symm.trans herror
  · have hrun : produce l =
        .error (.fault ⟨c, l.scan.pos.advance (l.scan.rest.take skip)⟩) l := by
      rw [hproduce, htoken]
    have hleft : left = c :: more := hcons
    refine ⟨iff_of_true ?_ ⟨_, _, hrun⟩, ?_, fun hnil => ?_, fun _ hnot => absurd ?_ hnot⟩
    · rwa [hleft]
    · intro e l' herror
      cases hrun.symm.trans herror
      exact ⟨rfl, c, more, hleft, rfl⟩
    · cases hleft.symm.trans hnil
    · rwa [hleft]
  · have hrun : produce l = .ok () (l.buffer (cut kind skip length l.scan)) := by
      rw [hproduce, htoken]
    refine ⟨iff_of_false hnot ?_, ?_, fun hnil => ?_, fun _ _ =>
      ⟨kind, length, hkind, hpos, hle, hrun⟩⟩
    · rintro ⟨f, l', hfault⟩
      cases hrun.symm.trans hfault
    · intro e l' herror
      cases hrun.symm.trans herror
    · rw [show l.scan.rest.drop _ = [] from hnil, List.length_nil] at hle
      omega

/-- Behind the blank of ` 'a` stands a quote that nothing closes. -/
theorem produce_exact_unclosed :
    (Lexer.ofText [' ', '\'', 'a']).scan.On [' ', '\'', 'a'] ∧
      Rules.command.Refuses ['\'', 'a'] ∧
      ∃ f l', produce (.ofText [' ', '\'', 'a']) = .error (.fault f) l' ∧
        l' = .ofText [' ', '\'', 'a'] ∧ f.found = '\'' := by
  have hexact := produce_exact (l := .ofText [' ', '\'', 'a']) (Scan.on_ofText [' ', '\'', 'a'])
  have hrefuses : Rules.command.Refuses ['\'', 'a'] := .inr (.inl ⟨['a'], rfl, by decide⟩)
  obtain ⟨f, l', hrun⟩ := hexact.1.mp hrefuses
  obtain ⟨rfl, c, more, hleft, hfault⟩ := hexact.2.1 _ _ hrun
  cases hfault
  exact ⟨Scan.on_ofText _, hrefuses, _, _, hrun, rfl, (List.cons.inj hleft).1.symm⟩

end ShellGrammar
