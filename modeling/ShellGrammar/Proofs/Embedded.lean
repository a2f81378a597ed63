import ShellGrammar.Proofs.Reader.Single
import ShellGrammar.Proofs.Reader.Tail

/-! Expansions in other places.

An expansion reads the same wherever it stands. Its opener is the same token under every
rule set that has words or expressions (`firstFit_expansion`), and what follows the opener
is read under rules of its own up to what closes it, whatever stands behind
(`Parses.tail_of_closing`). So a text that is one expansion is the same expansion in a
string, in the word of another expansion and in an arithmetic expression
(`parse_embedded`). -/
namespace ShellGrammar
open Grammar ParseM

/-! ### Openers -/

namespace Rules
variable {rules rules' : Rules} {place : Scan} {kind : Kind} {n : Nat} {ch : Char} {r : Text}

theorem firstFit_append (rs rs' : List Rule) (t : Text) :
    firstFit (rs ++ rs') t = (firstFit rs t).or (firstFit rs' t) := by
  induction rs with
  | nil => rfl
  | cons r rs ih =>
    simp only [List.cons_append, firstFit]
    cases r.pattern.reach? t with
    | none => exact ih
    | some n => rfl

/-- Only the rules that can take the first character matter. -/
theorem firstFit_filter (rs : List Rule) :
    firstFit rs (ch :: r) = firstFit (rs.filter (·.pattern.mayStart ch)) (ch :: r) := by
  induction rs with
  | nil => rfl
  | cons rule rs ih =>
    rw [List.filter_cons]
    cases hstart : rule.pattern.mayStart ch with
    | true => simp only [if_true, firstFit, ih]
    | false =>
      rw [firstFit, Pattern.reach?_eq_none_of_mayStart hstart, if_neg Bool.false_ne_true]
      exact ih

/-- A `$` opens or names an expansion, or is bare text, the same in all tables but one. -/
theorem filter_dollar (h : rules ≠ .param) :
    ∃ others : List Rule, (∀ rule ∈ others, rule.kind = .str) ∧
      rules.set.rules.filter (·.pattern.mayStart '$') = expansions ++ others := by
  cases rules with
  | param => exact absurd rfl h
  | arith => exact ⟨[], nofun, rfl⟩
  | _ => exact ⟨[loneDollar], by simp [loneDollar], rfl⟩

/-- The opener of an expansion is the same token in all tables but one. -/
theorem firstFit_expansion (h : rules ≠ .param) (h' : rules' ≠ .param)
    (hfit : firstFit rules.set.rules ('$' :: r) = some (kind, n)) (hkind : kind ≠ .str) :
    firstFit rules'.set.rules ('$' :: r) = some (kind, n) := by
  obtain ⟨others, hstr, hfilter⟩ := filter_dollar h
  obtain ⟨others', _, hfilter'⟩ := filter_dollar h'
  rw [firstFit_filter, hfilter, firstFit_append] at hfit
  rw [firstFit_filter, hfilter', firstFit_append]
  cases hexpansion : firstFit expansions ('$' :: r) with
  | some fit =>
    rw [hexpansion] at hfit
    exact hfit
  | none =>
    rw [hexpansion, Option.none_or] at hfit
    obtain ⟨rule, hmem, hrule, _⟩ := firstFit_mem hfit
    exact absurd (hrule.symm.trans (hstr rule hmem)) hkind

/-- A `$(` with no second parenthesis opens a list. -/
theorem firstFit_dollarParen (h : r.head? ≠ some '(') :
    firstFit command.set.rules ('$' :: '(' :: r) = some (.dollarParen, 2) := by
  have hno : List.isPrefixOf ['$', '(', '('] ('$' :: '(' :: r) = false := by
    cases r with
    | nil => rfl
    | cons d r =>
      have hd : '(' ≠ d := fun heq => h (congrArg some heq.symm)
      simp [List.isPrefixOf, hd]
  have hfirst : (Pattern.lit ['$', '(', '(']).reach? ('$' :: '(' :: r) = none := by
    rw [Pattern.reach?, Pattern.reach, hno]
    rfl
  rw [firstFit_filter]
  show firstFit (expansions ++ [loneDollar]) ('$' :: '(' :: r) = _
  rw [expansions, List.cons_append, firstFit, hfirst]
  rfl

/-- A token at a place where nothing is skipped. -/
theorem tokenAt_cons (hplace : place.rest = ch :: r) (hblank : rules.blankLength (ch :: r) = 0)
    (hch : ch ≠ '#') (hfit : firstFit rules.set.rules (ch :: r) = some (kind, n)) :
    rules.tokenAt place = .ok (cut kind 0 n place) := by
  have hcomment : commentLength (ch :: r) = 0 := by
    simp [commentLength, comment, Pattern.reach, List.isPrefixOf, Ne.symm hch]
  have hskip : rules.skipLength place = 0 := by
    simp only [skipLength, hplace, hblank, List.drop_zero, hcomment]
    split <;> rfl
  simp only [tokenAt, hskip, hplace, List.drop_zero, hfit]

theorem after_cut (hn : n ≤ place.rest.length) : (cut kind 0 n place).after = place.forward n := by
  simp only [Token.after, cut, List.take_zero, List.drop_zero, List.length_nil, Nat.zero_add,
    List.length_take_of_le hn]

end Rules

open Rules

/-! ### The expansion elsewhere -/

/-- The openers of expansions. -/
def expansionStart : List Kind := [.dollarBrace, .dollarParen2, .dollarParen]

variable {c : Context} {x : Char} {more : Text}

/-- A text that is one expansion, and where its opener stands. -/
structure IsExpansion (X : Text) (N : Node) : Prop where
  dollar : ∃ r, X = '$' :: r
  reads : ∃ t e, Context.script.token? (.ofText X) = some t ∧ t.kind ∈ expansionStart ∧
    Leads .script (Reader.pieceRest t.lexeme) t.after [N] e ∧ e.rest = []

/-- A text that starts with an opener has its token there. -/
theorem opener_token {X : Text} (hX : ['$', '{'] <+: X ∨ ['$', '('] <+: X) :
    ∃ t, Context.script.token? (.ofText X) = some t ∧ t.kind ∈ expansionStart := by
  have hfit : ∃ r kind n, X = '$' :: r ∧ kind ∈ expansionStart ∧
      firstFit Rules.command.set.rules ('$' :: r) = some (kind, n) := by
    obtain ⟨r, rfl⟩ | ⟨r, rfl⟩ := hX
    · exact ⟨'{' :: r, .dollarBrace, 2, rfl, by decide, rfl⟩
    · cases r with
      | nil => exact ⟨['('], .dollarParen, 2, rfl, by decide, rfl⟩
      | cons d r =>
        by_cases hd : d = '('
        · subst hd
          exact ⟨'(' :: '(' :: r, .dollarParen2, 3, rfl, by decide, rfl⟩
        · refine ⟨'(' :: d :: r, .dollarParen, 2, rfl, by decide, firstFit_dollarParen ?_⟩
          simpa using hd
  obtain ⟨r, kind, n, rfl, hkind, hfit⟩ := hfit
  exact ⟨_, Context.token?_eq_some.mpr (tokenAt_cons rfl rfl (by decide) hfit), hkind⟩

/-- A script of one expansion with no blank behind it. -/
theorem isExpansion_of_script {X : Text} {N : Node} {es : List Node} {last : Token}
    (hX : ['$', '{'] <+: X ∨ ['$', '('] <+: X) (hes : .list es = Node.single N)
    (hN : ∀ ps, N ≠ .concat ps) (h : Script X es last) (hblank : last.blank = []) :
    IsExpansion X N := by
  obtain ⟨t, ht, hkind⟩ := opener_token hX
  have hpiece : Parses .script (.piece false) (.ofText X) [N] last.origin := by
    refine h.piece_of_single hes hN fun u hu hnewline => ?_
    obtain rfl : t = u := Option.some.inj (ht.symm.trans hu)
    rw [hnewline] at hkind
    exact absurd hkind (by decide)
  have hdollar : ∃ r, X = '$' :: r := by
    obtain ⟨r, rfl⟩ | ⟨r, rfl⟩ := hX
    · exact ⟨_, rfl⟩
    · exact ⟨_, rfl⟩
  have hend : last.origin.rest = [] := by
    rw [tokenAt_front h.lexed, hblank, body_of_spelling h.lexed (by rw [h.ends]; rfl),
      rest_after_eos h.lexed h.ends]
    rfl
  obtain ⟨hnil, _⟩ | ⟨n, u, hn, hu, _, hrest⟩ := hpiece.piece_cases
  · cases hnil
  · cases hn
    obtain rfl : t = u := Option.some.inj (ht.symm.trans hu)
    exact ⟨hdollar, t, last.origin, ht, hkind, hrest, hend⟩

/-- The expansion is read wherever the same text stands. -/
theorem IsExpansion.reads_at {X : Text} {N : Node} (h : IsExpansion X N) (hx : Closes x more)
    (hparam : c.mode.rules ≠ .param) (hback : c.inBackquote = false) {place : Scan}
    (hplace : place.rest = X ++ x :: more) :
    ∃ t place', c.token? place = some t ∧ t.blank = [] ∧ t.kind ∈ expansionStart ∧
      Leads c (Reader.pieceRest t.lexeme) t.after [N] place' ∧ place'.rest = x :: more := by
  obtain ⟨⟨r, rfl⟩, t, e, ht, hkind, hrest, hend⟩ := h
  have hstr : t.kind ≠ .str ∧ t.kind ≠ .eos := by
    constructor <;> intro hk <;> rw [hk] at hkind <;> exact absurd hkind (by decide)
  have ht := Context.token?_eq_some.mp ht
  have hcommand : Context.script.mode.rules = .command := rfl
  rw [hcommand] at ht
  obtain ⟨_, rfl⟩ | ⟨kind, n, hfit, rfl⟩ := tokenAt_cases ht
  · exact absurd rfl hstr.2
  have hskip : Rules.command.skipLength (.ofText ('$' :: r)) = 0 := rfl
  rw [hskip] at hfit hrest
  rw [hskip] at hkind hstr
  have hlength : n ≤ ('$' :: r).length := (firstFit_bounds hfit).2
  have hpos : 0 < n := by
    obtain ⟨_, _, _, hreach⟩ := firstFit_mem hfit
    exact (Pattern.reach?_eq_some_iff.mp hreach).2
  have hlonger : firstFit Rules.command.set.rules ('$' :: (r ++ x :: more)) = some (kind, n) := by
    obtain hsame | ⟨hk, _⟩ := firstFit_behind (closers_bounds hx.closer) (List.cons_ne_nil '$' r) hfit more
    · exact hsame
    · exact absurd hk hstr.1
  have hblank : c.mode.rules.blankLength ('$' :: (r ++ x :: more)) = 0 := by
    cases c.mode.rules <;> rfl
  have htoken := tokenAt_cons hplace hblank (by decide)
    (firstFit_expansion (by decide) hparam hlonger hstr.1)
  have hahead : ((Scan.ofText ('$' :: r)).forward n).Ahead (x :: more) (place.forward n) :=
    Scan.ahead_forward hplace hpos hlength
  have hlonger' : n ≤ place.rest.length := by
    rw [hplace, List.length_append]
    omega
  rw [after_cut hlength] at hrest
  obtain ⟨place', hthere, hahead'⟩ := leads_pieceRest_tail hx.inert hback hrest hahead
  refine ⟨_, place', Context.token?_eq_some.mpr htoken, rfl, hkind, ?_, ?_⟩
  · rw [after_cut hlonger']
    have hlexeme : (Rules.cut kind 0 n place).lexeme =
        (Rules.cut kind 0 n (.ofText ('$' :: r))).lexeme := by
      simp only [Token.lexeme, Rules.cut, List.drop_zero, hplace, Scan.ofText,
        List.take_append_of_le_length hlength]
    rw [hlexeme]
    exact hthere
  · rw [hahead'.rest, hend, List.nil_append]

/-- A shape is not there where something stands that it cannot start with. -/
theorem leads_accept_start {shape : Shape} {place : Scan} {ch : Char} {r : Text}
    (hplace : place.rest = ch :: r) (hblank : c.mode.rules.blankLength (ch :: r) = 0)
    (hstart : shape.pattern.mayStart ch = false) :
    Leads c (Reader.accept shape) place none place := by
  refine leads_accept_none.mpr ⟨?_, rfl⟩
  simp only [Rules.takeAt, hplace, hblank, List.drop_zero,
    Pattern.reach?_eq_none_of_mayStart hstart, Option.map_none, ite_self]

/-- A token in front of which nothing is skipped. -/
theorem token?_cut (c : Context) (kind : Kind) {n : Nat} {place : Scan} {ch : Char} {r : Text}
    (hplace : place.rest = ch :: r) (hblank : c.mode.rules.blankLength (ch :: r) = 0)
    (hch : ch ≠ '#') (hfit : firstFit c.mode.rules.set.rules (ch :: r) = some (kind, n)) :
    c.token? place = some ⟨kind, place, [], (ch :: r).take n⟩ ∧
      Token.after ⟨kind, place, [], (ch :: r).take n⟩ = place.forward n := by
  have htoken := Context.token?_eq_some.mpr (tokenAt_cons hplace hblank hch hfit)
  have hcut : Rules.cut kind 0 n place = ⟨kind, place, [], (ch :: r).take n⟩ := by
    simp only [Rules.cut, List.take_zero, List.drop_zero, hplace]
  rw [hcut] at htoken
  refine ⟨htoken, ?_⟩
  rw [← hcut, after_cut]
  rw [hplace]
  exact (firstFit_bounds hfit).2

theorem wants_of_adjacent {t : Token} (hblank : t.blank = []) (adjacent : Bool)
    (want : Kind → Bool) : c.wants adjacent want t = want t.kind := by
  rw [Context.wants, Token.isAdjacent, hblank, List.isEmpty_nil, Bool.or_true, Bool.and_true]

variable {X : Text} {N : Node}

theorem among_expansionStart {kind : Kind} (h : kind ∈ expansionStart) (inBackquote : Bool) :
    among (pieceStart inBackquote) kind = true := by
  simp only [expansionStart, List.mem_cons, List.not_mem_nil, or_false] at h
  rcases h with rfl | rfl | rfl <;> cases inBackquote <;> rfl

/-- The expansion is a piece, and nothing but what it is can be read where it stands. -/
theorem IsExpansion.piece_at (h : IsExpansion X N) (hx : Closes x more)
    (hparam : c.mode.rules ≠ .param) (hback : c.inBackquote = false) {place : Scan}
    (hplace : place.rest = X ++ x :: more) :
    ∃ t place', c.token? place = some t ∧ t.blank = [] ∧ t.kind ∈ expansionStart ∧
      Parses c (.piece false) place [N] place' ∧ place'.rest = x :: more := by
  obtain ⟨t, place', ht, hblank, hkind, hrest, hend⟩ := h.reads_at hx hparam hback hplace
  refine ⟨t, place', ht, hblank, hkind, Parses.piece_of_token ht ?_ hrest, hend⟩
  rw [wants_of_adjacent hblank]
  exact among_expansionStart hkind _

/-- Where an expansion stands, nothing else is wanted. -/
theorem not_wanted {t : Token} (hblank : t.blank = []) (hkind : t.kind ∈ expansionStart)
    {adjacent : Bool} {want : Kind → Bool} (hwant : ∀ k ∈ expansionStart, want k = false) :
    c.wants adjacent want t = false := by
  rw [wants_of_adjacent hblank]
  exact hwant t.kind hkind

/-! ### Between double quotes -/

theorem IsExpansion.quoted_at (h : IsExpansion X N) (hrules : c.mode.rules = .doubleQuote)
    (hback : c.inBackquote = false) {place : Scan} (hplace : place.rest = X ++ ['"']) :
    ∃ place', Parses c .quoted place [N] place' ∧ place'.rest = [] := by
  obtain ⟨t, place₁, ht, hblank, hkind, hpiece, hend⟩ :=
    h.piece_at ⟨by decide, by decide⟩ (by rw [hrules]; decide) hback hplace
  obtain ⟨hquote, hafter⟩ :=
    token?_cut c .doubleQuote (n := 1) hend (by rw [hrules]; rfl) (by decide) (by rw [hrules]; rfl)
  have hlast : Parses c .quoted place₁ [] (place₁.forward 1) := by
    refine parses_iff.mpr (leads_bind.mpr ⟨some _, _, leads_next_some.mpr ⟨_, hquote, ?_, rfl, rfl⟩, ?_⟩)
    · rw [wants_of_adjacent rfl]
      rfl
    · exact ⟨rfl, hafter.symm⟩
  refine ⟨place₁.forward 1, ?_, by rw [Scan.rest_forward, hend]; rfl⟩
  refine parses_iff.mpr (leads_bind.mpr ⟨none, place, ?_, ?_⟩)
  · exact leads_next_none.mpr ⟨t, ht, not_wanted hblank hkind (by decide), rfl⟩
  · refine leads_bind.mpr ⟨some N, place₁, leads_first?.mpr ⟨_, hpiece, rfl⟩, ?_⟩
    exact leads_bind.mpr ⟨[], _, leads_all.mpr hlast, rfl, rfl⟩

theorem IsExpansion.in_quotes (h : IsExpansion X N) :
    ∃ es last, .list es = Node.single (.doubleQuoted [N]) ∧
      Script ('"' :: (X ++ ['"'])) es last := by
  obtain ⟨ht, hafter⟩ := token?_cut .script .doubleQuote (n := 1)
    (show (Scan.ofText ('"' :: (X ++ ['"']))).rest = _ from rfl) rfl (by decide) rfl
  obtain ⟨place', hquoted, hend⟩ :=
    h.quoted_at (c := Context.script.shift (.under .doubleQuote true)) rfl rfl
      (show ((Scan.ofText ('"' :: (X ++ ['"']))).forward 1).rest = _ from rfl)
  refine Script.of_piece (Parses.piece_of_token ht rfl ?_) hend (by decide) rfl fun t ht' => ?_
  · exact leads_bind.mpr ⟨[N], place', leads_all.mpr (by rw [hafter]; exact hquoted), rfl, rfl⟩
  · obtain rfl := Option.some.inj (ht.symm.trans ht')
    exact nofun

/-! ### In the word of another expansion -/

/-- In a word up to a brace the expansion is all of the word. -/
theorem IsExpansion.word_at (h : IsExpansion X N) (hrules : c.mode.rules = .wordUntilBrace)
    (hback : c.inBackquote = false) {place : Scan} (hplace : place.rest = X ++ ['}']) :
    ∃ place', Parses c .word place [N] place' ∧ place'.rest = ['}'] := by
  obtain ⟨_, place', _, _, _, hpiece, hend⟩ :=
    h.piece_at ⟨by decide, by decide⟩ (by rw [hrules]; decide) hback hplace
  obtain ⟨hbrace, _⟩ :=
    token?_cut c .rbrace (n := 1) hend (by rw [hrules]; rfl) (by decide) (by rw [hrules]; rfl)
  refine ⟨place', hpiece.word_of_piece (.piece_done hbrace ?_), hend⟩
  rw [wants_of_adjacent rfl]
  cases c.inBackquote <;> rfl

/-- A name of one character with no mark in front of it. -/
theorem leads_head {place : Scan} {v : Char} {r : Text} (hrules : c.mode.rules = .param)
    (hplace : place.rest = v :: r) (hblank : Rules.param.blankLength (v :: r) = 0)
    (hmarks : v ∉ ['#', '!']) (hfit : firstFit Rules.param.set.rules (v :: r) = some (.name, 1)) :
    Leads c Reader.head place ⟨false, false, [v]⟩ (place.forward 1) ∧ (place.forward 1).rest = r := by
  have hno : ∀ shape ∈ [Shape.sharp, Shape.bang],
      Leads c (Reader.accept shape) place none place := by
    intro shape hshape
    refine leads_accept_start (by rw [hplace]) (by rw [hrules]; exact hblank) ?_
    simp only [List.mem_cons, List.not_mem_nil, or_false, not_or] at hshape hmarks
    rcases hshape with rfl | rfl
    · simp [Shape.pattern, Pattern.mayStart, Ne.symm hmarks.1]
    · simp [Shape.pattern, Pattern.mayStart, Ne.symm hmarks.2]
  have hsharp : v ≠ '#' := by
    rintro rfl
    exact hmarks List.mem_cons_self
  rw [← hrules] at hblank hfit
  obtain ⟨hname, hafter⟩ := token?_cut c .name hplace hblank hsharp hfit
  refine ⟨?_, by rw [Scan.rest_forward, hplace]; rfl⟩
  refine leads_bind.mpr ⟨none, place, hno _ (by decide), ?_⟩
  refine leads_bind.mpr ⟨none, place, hno _ (by decide), ?_⟩
  refine leads_bind.mpr ⟨some ⟨.name, [v]⟩, place.forward 1, ?_, rfl, rfl⟩
  exact leads_next_some.mpr ⟨_, hname, by rw [wants_of_adjacent rfl]; rfl, rfl, hafter.symm⟩

theorem IsExpansion.braced_at (h : IsExpansion X N) (hrules : c.mode.rules = .param)
    (hback : c.inBackquote = false) {place : Scan}
    (hplace : place.rest = 'v' :: ':' :: '-' :: (X ++ ['}'])) :
    ∃ place', Parses c .braced place [.paramDefault false ['v'] [':', '-'] N] place' ∧
      place'.rest = [] := by
  obtain ⟨hhead, hplace₁⟩ := leads_head hrules hplace rfl (by decide) rfl
  obtain ⟨hcolon, _⟩ := token?_cut c .glyph (n := 1) hplace₁ (by rw [hrules]; rfl)
    (by decide) (by rw [hrules]; rfl)
  have helements : Leads c (Reader.elementsForm false ['v']) (place.forward 1) none
      (place.forward 1) := by
    refine leads_bind.mpr ⟨none, _, leads_next_none.mpr ⟨_, hcolon, ?_, rfl⟩, rfl, rfl⟩
    rw [wants_of_adjacent rfl]
    rfl
  have hop : c.mode.rules.takeAt Shape.default.pattern Shape.default.kind c.mode.allowBlank
      (place.forward 1) = some (cut .op 0 2 (place.forward 1)) := by
    simp only [Rules.takeAt, hrules, hplace₁]
    rfl
  have hafterOp : (cut .op 0 2 (place.forward 1)).after = (place.forward 1).forward 2 := by
    refine after_cut ?_
    rw [hplace₁]
    exact Nat.le_add_left 2 _
  have hopBody : (cut .op 0 2 (place.forward 1)).body = [':', '-'] := by
    simp only [Rules.cut, List.drop_zero, hplace₁]
    rfl
  obtain ⟨place₂, hword, hend⟩ := h.word_at (c := c.shift (.under .wordUntilBrace true)) rfl hback
    (show (cut .op 0 2 (place.forward 1)).after.rest = _ by
      rw [hafterOp, Scan.rest_forward, hplace₁]; rfl)
  have hform : Leads c (Reader.defaultForm false ['v']) (place.forward 1)
      (some ⟨.paramDefault false ['v'] [':', '-'] N, false⟩) place₂ := by
    refine leads_bind.mpr ⟨some [':', '-'], _, leads_accept_some.mpr ⟨_, hop, hopBody.symm, rfl⟩, ?_⟩
    refine leads_bind.mpr ⟨N, place₂, ?_, rfl, rfl⟩
    exact leads_bind.mpr ⟨some N, place₂, leads_first?.mpr ⟨_, hword, rfl⟩, rfl, rfl⟩
  have hbody : Leads c Reader.parameterBody place
      ⟨.paramDefault false ['v'] [':', '-'] N, false⟩ place₂ := by
    refine leads_bind.mpr ⟨_, _, hhead, leads_bind.mpr ⟨some _, place₂, ?_, rfl, rfl⟩⟩
    refine leads_bind.mpr ⟨none, _, helements, ?_⟩
    exact leads_bind.mpr ⟨_, place₂, hform, rfl, rfl⟩
  obtain ⟨hbrace, hafterBrace⟩ := token?_cut c .rbrace (n := 1) hend
    (by rw [hrules]; rfl) (by decide) (by rw [hrules]; rfl)
  refine ⟨place₂.forward 1, ?_, by rw [Scan.rest_forward, hend]; rfl⟩
  refine parses_iff.mpr (leads_bind.mpr ⟨_, place₂, hbody, ?_⟩)
  refine leads_bind.mpr ⟨_, _, leads_expect.mpr (leads_next_some.mpr ⟨_, hbrace, ?_, rfl, rfl⟩), ?_⟩
  · rw [wants_of_adjacent rfl]
    rfl
  · exact ⟨rfl, hafterBrace.symm⟩

theorem IsExpansion.in_braces (h : IsExpansion X N) :
    ∃ es last, .list es = Node.single (.paramDefault false ['v'] [':', '-'] N) ∧
      Script ('$' :: '{' :: 'v' :: ':' :: '-' :: (X ++ ['}'])) es last := by
  obtain ⟨ht, hafter⟩ := token?_cut .script .dollarBrace (n := 2)
    (show (Scan.ofText ('$' :: '{' :: 'v' :: ':' :: '-' :: (X ++ ['}']))).rest = _ from rfl) rfl (by decide) rfl
  obtain ⟨place', hbraced, hend⟩ :=
    h.braced_at (c := Context.script.shift (.under .param false)) rfl rfl
      (show ((Scan.ofText ('$' :: '{' :: 'v' :: ':' :: '-' :: (X ++ ['}']))).forward 2).rest = _
        from rfl)
  refine Script.of_piece (Parses.piece_of_token ht rfl ?_) hend (by decide) rfl fun t ht' => ?_
  · exact leads_all.mpr (by rw [hafter]; exact hbraced)
  · obtain rfl := Option.some.inj (ht.symm.trans ht')
    exact nofun

/-! ### In an arithmetic expression -/

/-- A primary with no operator around it is all there is of an expression. -/
theorem Parses.expression_of_primary {place place' : Scan} {t t' : Token}
    (h : Parses c .primary place [N] place') (ht : c.token? place = some t)
    (hfront : c.wants false (among frontOps) t = false)
    (hname : c.wants false (among [.ident]) t = false) (hend : c.token? place' = some t')
    (hkind : t'.kind ∈ [.rparen, .colon]) : Parses c (.chain .comma) place [N] place' := by
  have hno : ∀ want : Kind → Bool, want .rparen = false → want .colon = false →
      c.wants false want t' = false := by
    intro want hparen hcolon
    have hwant : want t'.kind = false := by
      simp only [List.mem_cons, List.not_mem_nil, or_false] at hkind
      rcases hkind with hk | hk <;> rw [hk] <;> assumption
    rw [Context.wants, hwant, Bool.false_and]
  have hpost : Parses c .post place [N] place' :=
    parses_iff.mpr (leads_bind.mpr ⟨N, place', leads_one.mpr h, leads_bind.mpr
      ⟨none, place', leads_next_none.mpr ⟨_, hend, hno _ rfl rfl, rfl⟩, rfl, rfl⟩⟩)
  have hunary : Parses c .unary place [N] place' :=
    parses_iff.mpr (leads_bind.mpr ⟨none, place, leads_next_none.mpr ⟨t, ht, hfront, rfl⟩,
      leads_all.mpr hpost⟩)
  have hpower : Parses c .power place [N] place' :=
    parses_iff.mpr (leads_bind.mpr ⟨N, place', leads_one.mpr hunary, leads_bind.mpr
      ⟨none, place', leads_next_none.mpr ⟨_, hend, hno _ rfl rfl, rfl⟩, rfl, rfl⟩⟩)
  have hbinary : Parses c (.chain (.binary 0)) place [N] place' :=
    Parses.chain_of_first hpower hend (hno _ rfl rfl)
  have hternary : Parses c .ternary place [N] place' :=
    parses_iff.mpr (leads_bind.mpr ⟨N, place', leads_one.mpr hbinary, leads_bind.mpr
      ⟨none, place', leads_next_none.mpr ⟨_, hend, hno _ rfl rfl, rfl⟩, rfl, rfl⟩⟩)
  have htarget : Query.target.answer c place = some (none, place) :=
    Query.target_iff.mpr ⟨t, ht, .inl ⟨hname, rfl, rfl⟩⟩
  have hassignment : Parses c .assignment place [N] place' :=
    parses_iff.mpr (leads_bind.mpr ⟨none, place, leads_query.mpr htarget, leads_all.mpr hternary⟩)
  exact Parses.chain_of_first hassignment hend (hno _ rfl rfl)

/-- An expansion is a primary. -/
theorem IsExpansion.expression_at (h : IsExpansion X N) (hrules : c.mode.rules = .arith)
    (hback : c.inBackquote = false) {place : Scan} (hplace : place.rest = X ++ [')', ')']) :
    ∃ place', Parses c (.chain .comma) place [N] place' ∧ place'.rest = [')', ')'] := by
  obtain ⟨t, place', ht, hblank, hkind, hrest, hend⟩ :=
    h.reads_at ⟨by decide, by decide⟩ (by rw [hrules]; decide) hback hplace
  have hno : ∀ {want : Kind → Bool}, (∀ k ∈ expansionStart, want k = false) →
      c.wants false want t = false := fun hwant => not_wanted hblank hkind hwant
  obtain ⟨hparen, _⟩ := token?_cut c .rparen (n := 1) hend (by rw [hrules]; rfl)
    (by decide) (by rw [hrules]; rfl)
  have hprimary : Parses c .primary place [N] place' := by
    refine parses_iff.mpr (leads_bind.mpr ⟨t.lexeme, t.after, ?_, ?_⟩)
    · refine leads_expect.mpr (leads_next_some.mpr ⟨t, ht, ?_, rfl, rfl⟩)
      rw [wants_of_adjacent hblank]
      simp only [expansionStart, List.mem_cons, List.not_mem_nil, or_false] at hkind
      rcases hkind with hk | hk | hk <;> rw [hk] <;> rfl
    · have hsame : Reader.primaryRest t.lexeme = Reader.pieceRest t.lexeme := by
        simp only [expansionStart, List.mem_cons, List.not_mem_nil, or_false] at hkind
        simp only [Reader.primaryRest, Reader.pieceRest, Token.lexeme]
        rcases hkind with hk | hk | hk <;> simp only [hk]
      rw [hsame]
      exact hrest
  exact ⟨place', hprimary.expression_of_primary ht (hno (by decide)) (hno (by decide)) hparen
    List.mem_cons_self, hend⟩

theorem IsExpansion.arithClosed_at (h : IsExpansion X N) (hrules : c.mode.rules = .arith)
    (hback : c.inBackquote = false) {place : Scan} (hplace : place.rest = X ++ [')', ')']) :
    ∃ place', Parses c .arithClosed place [.arithExpansion N] place' ∧ place'.rest = [] := by
  obtain ⟨place₁, hexpression, hend⟩ := h.expression_at hrules hback hplace
  have hclose : (c.mode.rules.takeAt (.lit Closing.arith.text) Closing.arith.kind
      (false || c.mode.allowBlank) place₁) = some (cut .rparen 0 2 place₁) := by
    simp only [Rules.takeAt, hrules, hend]
    rfl
  have hafter : (cut .rparen 0 2 place₁).after = place₁.forward 2 := by
    refine after_cut ?_
    rw [hend]
    exact Nat.le_refl 2
  refine ⟨place₁.forward 2, ?_, by rw [Scan.rest_forward, hend]; rfl⟩
  refine parses_iff.mpr (leads_bind.mpr ⟨N, place₁, leads_one.mpr hexpression, ?_⟩)
  refine leads_bind.mpr ⟨(), _, leads_query.mpr (Query.close_iff.mpr ⟨_, hclose, rfl⟩), ?_⟩
  exact ⟨rfl, hafter.symm⟩

theorem IsExpansion.in_arith (h : IsExpansion X N) :
    ∃ es last, .list es = Node.single (.arithExpansion N) ∧
      Script ('$' :: '(' :: '(' :: (X ++ [')', ')'])) es last := by
  obtain ⟨ht, hafter⟩ := token?_cut .script .dollarParen2 (n := 3)
    (show (Scan.ofText ('$' :: '(' :: '(' :: (X ++ [')', ')']))).rest = _ from rfl) rfl (by decide) rfl
  obtain ⟨place', hclosed, hend⟩ :=
    h.arithClosed_at (c := Context.script.shift (.under .arith true)) rfl rfl
      (show ((Scan.ofText ('$' :: '(' :: '(' :: (X ++ [')', ')']))).forward 3).rest = _ from rfl)
  refine Script.of_piece (Parses.piece_of_token ht rfl ?_) hend (by decide) rfl fun t ht' => ?_
  · exact leads_all.mpr (by rw [hafter]; exact hclosed)
  · obtain rfl := Option.some.inj (ht.symm.trans ht')
    exact nofun

/-! ### Scripts -/

/-- An expansion means the same wherever it stands. A text that is one expansion, with no
blank behind it, is that expansion between double quotes, in the word of another expansion
and in an arithmetic expression. -/
theorem parse_embedded {X : Text} {N : Node} (hX : ['$', '{'] <+: X ∨ ['$', '('] <+: X)
    (hN : ∀ ps, N ≠ .concat ps) (h : parseEnd ⟨0⟩ X = some (.single N, [])) :
    parse ⟨0⟩ ("\"".toList ++ X ++ "\"".toList) = .ok (.single (.doubleQuoted [N])) ∧
    parse ⟨0⟩ ("$\x7bv:-".toList ++ X ++ "\x7d".toList) =
      .ok (.single (.paramDefault false "v".toList ":-".toList N)) ∧
    parse ⟨0⟩ ("$((".toList ++ X ++ "))".toList) = .ok (.single (.arithExpansion N)) := by
  obtain ⟨es, last, hes, hscript, hlast⟩ := Script.of_parseEnd h
  have hexpansion := isExpansion_of_script hX hes.symm hN hscript hlast
  obtain ⟨es₁, last₁, hes₁, hquotes⟩ := hexpansion.in_quotes
  obtain ⟨es₂, last₂, hes₂, hbraces⟩ := hexpansion.in_braces
  obtain ⟨es₃, last₃, hes₃, harith⟩ := hexpansion.in_arith
  refine ⟨hquotes.parse_eq.trans (congrArg _ hes₁), hbraces.parse_eq.trans (congrArg _ hes₂),
    harith.parse_eq.trans (congrArg _ hes₃)⟩

/-- `${a:-$(b; c)}` in each of the three places. -/
theorem parse_embedded_default :
    ∃ N, parseEnd ⟨0⟩ "$\x7ba:-$(b; c)\x7d".toList = some (.single N, []) ∧
      parse ⟨0⟩ ("\"".toList ++ "$\x7ba:-$(b; c)\x7d".toList ++ "\"".toList) =
        .ok (.single (.doubleQuoted [N])) ∧
      parse ⟨0⟩ ("$\x7bv:-".toList ++ "$\x7ba:-$(b; c)\x7d".toList ++ "\x7d".toList) =
        .ok (.single (.paramDefault false "v".toList ":-".toList N)) ∧
      parse ⟨0⟩ ("$((".toList ++ "$\x7ba:-$(b; c)\x7d".toList ++ "))".toList) =
        .ok (.single (.arithExpansion N)) := by
  have hend : parseEnd ⟨0⟩ "$\x7ba:-$(b; c)\x7d".toList = some (.single (.paramDefault false ['a']
      [':', '-'] (.commandSubst ['$', '('] (.list [
        .pipelines (.pipeline false (.simpleCommand [] [.str ['b']])) (some [';']),
        .pipelines (.pipeline false (.simpleCommand [] [.str ['c']])) none]))), []) := by
    decide +kernel
  exact ⟨_, hend, parse_embedded (.inl ⟨_, rfl⟩) nofun hend⟩

end ShellGrammar
