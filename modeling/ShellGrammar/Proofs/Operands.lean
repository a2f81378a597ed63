import ShellGrammar.Proofs.Embedded
import ShellGrammar.Proofs.Reader.Arithmetic

/-! Arithmetic expressions inside other expansions.

An expression between `$((` and `))` is the same expression as a subscript, as the offset
of a substring and as its length. What differs is the blank in front of the closer: behind
`${` it is skipped by the rules of the expansion around it, to which a newline is no blank.
So the expression is accepted there exactly if the blank it ends with holds no newline, or
only escaped ones (`parse_operands`). -/
namespace ShellGrammar
open Grammar ParseM Rules

/-! ### The blank behind an expression -/

namespace Text

/-- The spaces, tabs, newlines and backslashes that a text ends with. -/
def trailing (t : Text) : Text := (t.reverse.takeWhile fun ch => isBarren [ch]).reverse

/-- Whether a text is blank for the rules of an expansion, which take a newline only behind a
backslash. -/
def isInline (t : Text) : Bool := Rules.param.blankLength t == t.length

theorem trailing_append {front w : Text} {ch : Char} (hch : isBarren [ch] = false)
    (hw : w.isBarren = true) : trailing (front ++ ch :: w) = w := by
  have hpass : ∀ d ∈ w.reverse, isBarren [d] = true := by
    intro d hd
    have hd := List.all_eq_true.mp hw d (List.mem_reverse.mp hd)
    rw [isBarren, List.all_cons, hd]
    rfl
  rw [trailing, List.reverse_append, List.reverse_cons, List.append_assoc,
    List.takeWhile_append_of_pos hpass]
  simp [hch]

end Text

namespace Rules
variable {w more : Text} {y z : Char} {place : Scan}

theorem reach?_lit_single (ch : Char) (r : Text) :
    (Pattern.lit [z]).reach? (ch :: r) = if z = ch then some 1 else none := by
  by_cases hsame : z = ch <;> simp [Pattern.reach?, Pattern.reach, hsame, Option.filter]

/-- Behind an expression a character is found for the rules of an expansion exactly if all of
the blank in front of it is blank to them. -/
theorem takeAt_behind (hy : y ∈ [':', ']', '}']) (hz : z ∈ [':', ']', '}'])
    (hw : w.isBarren = true) (hplace : place.rest = w ++ y :: more) (kind : Kind) :
    param.takeAt (.lit [z]) kind true place =
      if z = y ∧ w.isInline = true then some (cut kind w.length 1 place) else none := by
  have havoids : (blankOf [' ', '\t']).avoids y = true := by
    simp only [List.mem_cons, List.not_mem_nil, or_false] at hy
    rcases hy with rfl | rfl | rfl <;> rfl
  have hblank : param.blankLength place.rest = param.blankLength w := by
    rw [hplace]
    show ((blankOf [' ', '\t']).reach (w ++ y :: more)).getD 0 = _
    rw [Pattern.steady_of_avoids havoids w more id]
    rfl
  have hle := blankLength_le param w
  have hdrop : place.rest.drop (param.blankLength w) = w.drop (param.blankLength w) ++ y :: more := by
    rw [hplace, List.drop_append_of_le_length hle]
  simp only [takeAt, hblank, hdrop, Bool.not_true, Bool.and_false, Bool.false_eq_true, if_false]
  by_cases hinline : w.isInline = true
  · have hlength : param.blankLength w = w.length := beq_iff_eq.mp hinline
    rw [hlength, List.drop_length, List.nil_append, reach?_lit_single]
    by_cases hsame : z = y
    · rw [if_pos hsame, if_pos ⟨hsame, hinline⟩, Option.map_some]
    · rw [if_neg hsame, if_neg fun h => hsame h.1, Option.map_none]
  · -- What is not blank to them is blank all the same, and not the character.
    have hlength : param.blankLength w ≠ w.length := fun h => hinline (beq_iff_eq.mpr h)
    obtain ⟨ch, r, hcons⟩ := List.exists_cons_of_ne_nil
      (fun hnil => hlength (Nat.le_antisymm hle (List.drop_eq_nil_iff.mp hnil)) :
        w.drop (param.blankLength w) ≠ [])
    have hbarren : [' ', '\t', '\n', '\\'].contains ch = true :=
      List.all_eq_true.mp hw ch (List.mem_of_mem_drop (hcons ▸ List.mem_cons_self))
    have hne : z ≠ ch := by
      rintro rfl
      simp only [List.mem_cons, List.not_mem_nil, or_false] at hz
      rcases hz with rfl | rfl | rfl <;> cases hbarren
    rw [hcons, List.cons_append, reach?_lit_single, if_neg hne, if_neg fun h => hinline h.2,
      Option.map_none]

theorem after_behind {kind : Kind} (hplace : place.rest = w ++ y :: more) :
    (cut kind w.length 1 place).after.rest = more := by
  have hlength : w.length + 1 ≤ place.rest.length := by
    rw [hplace, List.length_append, List.length_cons]
    omega
  have hbody : ((place.rest.drop w.length).take 1).length = 1 := by
    rw [hplace, List.drop_left]
    rfl
  rw [Token.after]
  simp only [cut, List.length_take_of_le (Nat.le_of_succ_le hlength), hbody, Scan.rest_forward]
  rw [← List.drop_drop, hplace, List.drop_left]
  rfl

end Rules

/-! ### Expressions -/

variable {E w : Text} {B : Node} {c : Context} {place place' : Scan}

/-- Where expressions are read. -/
def Context.arithmetic : Context := Context.script.shift (.under .arith true)

/-- A text that is an expression with a value and the blank behind it. -/
structure IsExpression (E : Text) (B : Node) (w : Text) : Prop where
  reads : ∃ a a₁ : Scan, a.rest = E ++ [')', ')'] ∧
    Parses .arithmetic (.chain .comma) a [B] a₁ ∧ a₁.rest = w ++ [')', ')']
  blank : w.isBarren = true

namespace IsExpression

theorem trailing_eq (h : IsExpression E B w) : E.trailing = w := by
  obtain ⟨⟨a, a₁, ha, hparses, hend⟩, hblank⟩ := h
  obtain ⟨front, ch, hrest, hch⟩ := hparses.endsSolid rfl rfl
  have hE : E = front ++ ch :: w := by
    rw [ha, hend, ← List.cons_append, ← List.append_assoc] at hrest
    exact List.append_cancel_right hrest
  rw [hE, Text.trailing_append hch hblank]

/-- The first token of an expression. -/
theorem start (h : IsExpression E B w) :
    ∃ a t, a.rest = E ++ [')', ')'] ∧ arith.tokenAt a = .ok t ∧
      t.kind ∈ frontOps ++ primaryStart := by
  obtain ⟨⟨a, a₁, ha, hparses, _⟩, _⟩ := h
  obtain ⟨t, ht, hkind⟩ := hparses.operand_start rfl
  exact ⟨a, t, ha, Context.token?_eq_some.mp ht, hkind⟩

/-- An expression is read wherever it is written, perhaps behind a space. -/
theorem reads_at (h : IsExpression E B w) {x : Char} {more gap : Text} {kind : Kind}
    (hx : EndsArith x kind) (hkind : kind ∈ [.rbracket, .rbrace])
    (hinert : Text.isInert (x :: more) = true) (hgap : gap = [] ∨ gap = [' '])
    (hplace : place.rest = gap ++ (E ++ x :: more)) :
    ∃ place', Parses .arithmetic (.chain .comma) place [B] place' ∧
      place'.rest = w ++ x :: more := by
  obtain ⟨⟨a, a₁, ha, hparses, hend⟩, _⟩ := h
  have hstart : ∀ t, Context.arithmetic.token? a = some t → t.kind ≠ .rparen := by
    intro t ht hparen
    obtain ⟨u, hu, hkind⟩ := hparses.operand_start rfl
    obtain rfl := Option.some.inj (ht.symm.trans hu)
    rw [hparen] at hkind
    exact absurd hkind (by decide)
  have hfronts := Context.fronts_of_rest .paren hx rfl ha hplace hgap hstart
  obtain ⟨place', hthere, m, hm, hplace'⟩ := hparses.exchange_fronts .paren hx hkind rfl hinert rfl
    rfl rfl ⟨w, hend.symm⟩ hfronts
  refine ⟨place', hthere, ?_⟩
  have hsame : m.rest = w := by
    have hrest := hm.rest
    rw [hend] at hrest
    exact (List.append_cancel_right hrest).symm
  rw [hplace'.rest, hsame]

end IsExpression

/-! ### Forms -/

/-- Where a parameter and what is done with it are read. -/
def Context.parameter : Context := Context.script.shift (.under .param false)

theorem leads_firstOf_skip {α : Type} {m : Reader (Option α)} {ms : List (Reader (Option α))}
    {o : Option α} (h : Leads c m place none place) :
    Leads c (Reader.firstOf (m :: ms)) place o place' ↔ Leads c (Reader.firstOf ms) place o place' := by
  constructor
  · intro hall
    obtain ⟨o', place₁, hm, hrest⟩ := leads_bind.mp hall
    obtain ⟨rfl, rfl⟩ := h.unique hm
    exact hrest
  · intro hrest
    exact leads_bind.mpr ⟨none, place, h, hrest⟩

theorem leads_firstOf_some {α : Type} {m : Reader (Option α)} {ms : List (Reader (Option α))}
    {a : α} (h : Leads c m place (some a) place') :
    Leads c (Reader.firstOf (m :: ms)) place (some a) place' :=
  leads_bind.mpr ⟨some a, place', h, rfl, rfl⟩

/-- A shape of one character that is there. -/
theorem mark_single {shape : Shape} {ch : Char} {r : Text} (hplace : place.rest = ch :: r)
    (hblank : c.mode.rules.blankLength (ch :: r) = 0) (hshape : shape.pattern = .lit [ch])
    (pastBlank : Bool) :
    (Query.mark shape pastBlank).answer c place = some (some [ch], place.forward 1) := by
  have hcut : Token.after (cut shape.kind 0 1 place) = place.forward 1 := by
    refine after_cut ?_
    rw [hplace]
    exact Nat.le_add_left 1 _
  refine Query.mark_some.mpr ⟨cut shape.kind 0 1 place, ?_, ?_, hcut.symm⟩
  · simp only [Rules.takeAt, hplace, hblank, hshape, List.drop_zero, reach?_lit_single]
    rfl
  · simp only [cut, hplace]
    rfl

section Bracket
variable {d : Char} {r : Text}

theorem firstFit_bracket (hd : d ∉ ['@', '*']) :
    firstFit Rules.param.set.rules ('[' :: d :: r) = some (.lbracket, 1) := by
  simp only [List.mem_cons, List.not_mem_nil, or_false, not_or] at hd
  have hnone : ∀ z : Char, d ≠ z → (Pattern.lit ['[', z, ']']).reach? ('[' :: d :: r) = none := by
    intro z hz
    simp [Pattern.reach?, Pattern.reach, List.isPrefixOf, Ne.symm hz]
  rw [firstFit_filter]
  show firstFit [⟨.lit ['[', '@', ']'], .bracketAt⟩, ⟨.lit ['[', '*', ']'], .bracketStar⟩,
    ⟨.lit ['['], .lbracket⟩, ⟨.any, .glyph⟩] ('[' :: d :: r) = _
  simp only [firstFit, hnone _ hd.1, hnone _ hd.2, reach?_lit_single, if_true]

/-- Behind a bracket that is no `[@]` or `[*]` there is a subscript. -/
theorem leads_forms_bracket {name : Text} (hd : d ∉ ['@', '*']) (hplace : place.rest = '[' :: d :: r)
    {o : Option Form} :
    Leads .parameter (Reader.firstOf (Reader.forms false name)) place o place' ↔
      Leads .parameter (Reader.firstOf [Reader.elementForm false name]) place o place' := by
  obtain ⟨ht, _⟩ := token?_cut .parameter .lbracket hplace rfl (by decide) (firstFit_bracket hd)
  have hno : ∀ shape : Shape, shape.pattern.mayStart '[' = false →
      Leads .parameter (Reader.accept shape) place none place :=
    fun shape hshape => leads_accept_start hplace rfl hshape
  rw [Reader.forms, leads_firstOf_skip, leads_firstOf_skip, leads_firstOf_skip, leads_firstOf_skip,
    leads_firstOf_skip, leads_firstOf_skip, leads_firstOf_skip, leads_firstOf_skip]
  · exact leads_bind.mpr ⟨none, place, hno .star rfl, rfl, rfl⟩
  · exact leads_bind.mpr ⟨none, place, hno .atSign rfl, rfl, rfl⟩
  · exact leads_bind.mpr ⟨none, place, hno .slash rfl, rfl, rfl⟩
  · exact leads_bind.mpr ⟨none, place, hno .caseChange rfl, rfl, rfl⟩
  · exact leads_bind.mpr ⟨none, place, hno .removal rfl, rfl, rfl⟩
  · exact leads_bind.mpr ⟨none, place, hno .colon rfl, rfl, rfl⟩
  · exact leads_bind.mpr ⟨none, place, hno .default rfl, rfl, rfl⟩
  · exact leads_bind.mpr ⟨none, place, leads_next_none.mpr ⟨_, ht, wants_of_adjacent rfl _ _, rfl⟩,
      rfl, rfl⟩

end Bracket

namespace IsExpression

/-- No expression starts with what would make `[@]` or `[*]` of the subscript. -/
theorem head_ne (h : IsExpression E B w) :
    ∃ d r, E ++ [']', '}'] = d :: r ∧ d ∉ ['@', '*'] := by
  obtain ⟨a, t, ha, ht, hkind⟩ := h.start
  cases E with
  | nil => exact ⟨']', ['}'], rfl, by decide⟩
  | cons d r =>
    refine ⟨d, r ++ [']', '}'], rfl, fun hd => ?_⟩
    have hstarts : arith.blankLength (d :: (r ++ [')', ')'])) = 0 ∧
        (arith.set.rules.filter (·.pattern.mayStart d)).all
          (fun rule => !(frontOps ++ primaryStart).contains rule.kind) = true := by
      simp only [List.mem_cons, List.not_mem_nil, or_false] at hd
      rcases hd with rfl | rfl
      · exact ⟨rfl, rfl⟩
      · exact ⟨rfl, rfl⟩
    have hskip : arith.skipLength a = 0 := by
      rw [skipLength_arith, ha]
      exact hstarts.1
    obtain ⟨hnil, _⟩ | ⟨k, n, hfit, rfl⟩ := tokenAt_cases ht
    · rw [hskip, ha] at hnil
      cases hnil
    · rw [hskip, ha, List.drop_zero, List.cons_append, firstFit_filter] at hfit
      obtain ⟨rule, hrule, rfl, _⟩ := firstFit_mem hfit
      have hno := List.all_eq_true.mp hstarts.2 rule hrule
      have hkind : rule.kind ∈ frontOps ++ primaryStart := hkind
      rw [List.contains_iff_mem.mpr hkind] at hno
      cases hno

/-- As a subscript an expression is accepted if the blank behind it holds no bare newline. -/
theorem element_iff (h : IsExpression E B w)
    (hplace : place.rest = 'a' :: '[' :: (E ++ [']', '}'])) :
    (w.isInline = true → ∃ place', Parses .parameter .braced place
      [.arrayElement false ['a'] B] place' ∧ place'.rest = []) ∧
    ∀ ns place', Parses .parameter .braced place ns place' → w.isInline = true := by
  obtain ⟨d, r, hE, hd⟩ := h.head_ne
  obtain ⟨hhead, hplace₁⟩ :=
    leads_head (c := .parameter) rfl hplace rfl (by decide) rfl
  rw [hE] at hplace₁
  obtain ⟨ht, hafter⟩ := token?_cut .parameter .lbracket hplace₁ rfl (by decide)
    (firstFit_bracket hd)
  have hnext : Leads .parameter (Reader.next [.lbracket]) (place.forward 1) (some ⟨.lbracket, ['[']⟩)
      ((place.forward 1).forward 1) :=
    leads_next_some.mpr ⟨_, ht, wants_of_adjacent rfl _ _, rfl, hafter.symm⟩
  have hplace₂ : ((place.forward 1).forward 1).rest = [] ++ (E ++ ']' :: ['}']) := by
    rw [Scan.rest_forward, hplace₁, ← hE]
    rfl
  obtain ⟨place₃, hoperand, hplace₃⟩ :=
    h.reads_at .bracket (by decide) rfl (.inl rfl) hplace₂
  have hoperand : Leads .parameter Reader.arithOperand ((place.forward 1).forward 1) B place₃ :=
    leads_one.mpr hoperand
  have hfound := takeAt_behind (by decide) (z := ']') (by decide) h.blank hplace₃ .rbracket
  constructor
  · intro hinline
    rw [if_pos ⟨rfl, hinline⟩] at hfound
    have hclose : (Query.close .bracket true).answer .parameter place₃ =
        some ((), (cut .rbracket w.length 1 place₃).after) :=
      Query.close_iff.mpr ⟨_, hfound, rfl⟩
    have hplace₄ : (cut .rbracket w.length 1 place₃).after.rest = ['}'] := after_behind hplace₃
    generalize (cut .rbracket w.length 1 place₃).after = place₄ at hclose hplace₄
    have helement : Leads .parameter (Reader.elementForm false ['a']) (place.forward 1)
        (some ⟨.arrayElement false ['a'] B, false⟩) place₄ := by
      refine leads_bind.mpr ⟨_, _, hnext, leads_bind.mpr ⟨B, place₃, hoperand, ?_⟩⟩
      exact leads_bind.mpr ⟨(), place₄, leads_query.mpr hclose, rfl, rfl⟩
    have hbody : Leads .parameter Reader.parameterBody place
        ⟨.arrayElement false ['a'] B, false⟩ place₄ := by
      refine leads_bind.mpr ⟨_, _, hhead, leads_bind.mpr ⟨some _, place₄, ?_, rfl, rfl⟩⟩
      exact (leads_forms_bracket hd hplace₁).mpr (leads_firstOf_some helement)
    obtain ⟨hbrace, hafter'⟩ := token?_cut .parameter .rbrace (n := 1) hplace₄ rfl (by decide) rfl
    refine ⟨place₄.forward 1, ?_, by rw [Scan.rest_forward, hplace₄]; rfl⟩
    refine parses_iff.mpr (leads_bind.mpr ⟨_, place₄, hbody, ?_⟩)
    refine leads_bind.mpr ⟨_, _, leads_expect.mpr (leads_next_some.mpr
      ⟨_, hbrace, wants_of_adjacent rfl _ _, rfl, rfl⟩), ?_⟩
    exact ⟨rfl, hafter'.symm⟩
  · intro ns place' hparses
    obtain ⟨form, place₄, hbody, _⟩ := leads_bind.mp (parses_iff.mp hparses)
    obtain ⟨head, place₅, hhead', hrest⟩ := leads_bind.mp hbody
    obtain ⟨rfl, rfl⟩ := hhead.unique hhead'
    obtain ⟨o, place₆, hforms, _⟩ := leads_bind.mp hrest
    obtain ⟨o', place₇, helement, _⟩ := leads_bind.mp ((leads_forms_bracket hd hplace₁).mp hforms)
    obtain ⟨l, place₈, hnext', hrest'⟩ := leads_bind.mp helement
    obtain ⟨rfl, rfl⟩ := hnext.unique hnext'
    obtain ⟨B', place₉, hoperand', hrest''⟩ := leads_bind.mp hrest'
    obtain ⟨rfl, rfl⟩ := hoperand.unique hoperand'
    obtain ⟨u, place₁₀, hclose, _⟩ := leads_bind.mp hrest''
    obtain ⟨t, ht, _⟩ := Query.close_iff.mp (leads_query.mp hclose)
    cases hinline : w.isInline with
    | true => rfl
    | false =>
      rw [if_neg fun hand => Bool.false_ne_true (hinline ▸ hand.2)] at hfound
      exact absurd (ht.symm.trans hfound) nofun

end IsExpression

/-! ### Substrings -/

/-- What may have blank in front of its brace is closed if there is no bare newline in it. -/
theorem braced_behind {node : Node} {place₁ : Scan}
    (hbody : Leads .parameter Reader.parameterBody place ⟨node, true⟩ place₁)
    (hw : w.isBarren = true) (hplace₁ : place₁.rest = w ++ ['}']) :
    (w.isInline = true → ∃ place', Parses .parameter .braced place [node] place' ∧
      place'.rest = []) ∧
    ∀ ns place', Parses .parameter .braced place ns place' → w.isInline = true := by
  have hfound := takeAt_behind (by decide) (show '}' ∈ [':', ']', '}'] by decide) hw hplace₁ .rbrace
  constructor
  · intro hinline
    rw [if_pos ⟨rfl, hinline⟩] at hfound
    refine ⟨(cut .rbrace w.length 1 place₁).after, ?_, after_behind hplace₁⟩
    refine parses_iff.mpr (leads_bind.mpr ⟨_, place₁, hbody, ?_⟩)
    exact leads_bind.mpr ⟨(), _, leads_query.mpr (Query.close_iff.mpr ⟨_, hfound, rfl⟩), rfl, rfl⟩
  · intro ns place' hparses
    obtain ⟨form, place₂, hbody', hrest⟩ := leads_bind.mp (parses_iff.mp hparses)
    obtain ⟨rfl, rfl⟩ := hbody.unique hbody'
    obtain ⟨u, place₃, hclose, _⟩ := leads_bind.mp hrest
    obtain ⟨t, ht, _⟩ := Query.close_iff.mp (leads_query.mp hclose)
    cases hinline : w.isInline with
    | true => rfl
    | false =>
      rw [if_neg fun hand => Bool.false_ne_true (hinline ▸ hand.2)] at hfound
      exact absurd (ht.symm.trans hfound) nofun

/-- Behind a colon that starts no operator there is a substring. -/
theorem substring_body {d : Char} {r : Text} {form : Form} (hd : d ∉ ['-', '=', '?', '+'])
    (hplace : place.rest = 'a' :: ':' :: d :: r)
    (hform : Leads .parameter (Reader.substringForm false ['a']) (place.forward 1) (some form) place') :
    Leads .parameter Reader.parameterBody place form place' := by
  obtain ⟨hhead, hplace₁⟩ := leads_head (c := .parameter) rfl hplace rfl (by decide) rfl
  obtain ⟨ht, _⟩ := token?_cut .parameter .glyph (n := 1) hplace₁ rfl (by decide) rfl
  have helements : Leads .parameter (Reader.elementsForm false ['a']) (place.forward 1) none
      (place.forward 1) :=
    leads_bind.mpr ⟨none, _, leads_next_none.mpr ⟨_, ht, wants_of_adjacent rfl _ _, rfl⟩, rfl, rfl⟩
  have hdefault : Leads .parameter (Reader.defaultForm false ['a']) (place.forward 1) none
      (place.forward 1) := by
    refine leads_bind.mpr ⟨none, _, leads_accept_none.mpr ⟨?_, rfl⟩, rfl, rfl⟩
    have hreach : Shape.default.pattern.reach? (':' :: d :: r) = none := by
      have hno : List.contains ['-', '=', '?', '+'] d = false := by
        rw [← Bool.not_eq_true, List.contains_iff_mem]
        exact hd
      have hone : (Pattern.oneOf ['-', '=', '?', '+']).reach (d :: r) = none := by
        rw [Pattern.oneOf, Pattern.reach, hno, if_neg Bool.false_ne_true]
      show (((Pattern.oneOf ['-', '=', '?', '+']).reach (d :: r)).bind fun m => some (1 + m)).filter
        (0 < ·) = none
      rw [hone]
      rfl
    have hblank : Context.parameter.mode.rules.blankLength (':' :: d :: r) = 0 := rfl
    simp only [Rules.takeAt, hplace₁, hblank, List.drop_zero, hreach, Option.map_none, ite_self]
  refine leads_bind.mpr ⟨_, _, hhead, leads_bind.mpr ⟨some form, place', ?_, rfl, rfl⟩⟩
  exact (leads_firstOf_skip helements).mpr
    ((leads_firstOf_skip hdefault).mpr (leads_firstOf_some hform))

namespace IsExpression

/-- As the offset of a substring an expression is accepted if the blank behind it holds no
bare newline. -/
theorem offset_iff (h : IsExpression E B w)
    (hplace : place.rest = 'a' :: ':' :: ' ' :: (E ++ ['}'])) :
    (w.isInline = true → ∃ place', Parses .parameter .braced place
      [.substring false ['a'] B .empty] place' ∧ place'.rest = []) ∧
    ∀ ns place', Parses .parameter .braced place ns place' → w.isInline = true := by
  have hplace₁ : (place.forward 1).rest = ':' :: ' ' :: (E ++ ['}']) := by
    rw [Scan.rest_forward, hplace]
    rfl
  have hcolon : Leads .parameter (Reader.accept .colon) (place.forward 1) (some [':'])
      ((place.forward 1).forward 1) := leads_query.mpr (mark_single hplace₁ rfl rfl false)
  have hplace₂ : ((place.forward 1).forward 1).rest = [' '] ++ (E ++ '}' :: []) := by
    rw [Scan.rest_forward, hplace₁]
    rfl
  obtain ⟨place₃, hoperand, hplace₃⟩ :=
    h.reads_at .brace (by decide) rfl (.inr rfl) hplace₂
  have hlength : Leads .parameter (Reader.acceptPastBlank .colon) place₃ none place₃ := by
    refine leads_query.mpr (Query.mark_none.mpr ⟨?_, rfl⟩)
    have hfound := takeAt_behind (by decide) (show ':' ∈ [':', ']', '}'] by decide) h.blank hplace₃
      .colon
    rwa [if_neg fun hand => absurd hand.1 (by decide)] at hfound
  refine braced_behind (substring_body (by decide) hplace ?_) h.blank hplace₃
  refine leads_bind.mpr ⟨_, _, hcolon, leads_bind.mpr ⟨B, place₃, leads_one.mpr hoperand, ?_⟩⟩
  exact leads_bind.mpr ⟨none, place₃, hlength, rfl, rfl⟩

/-- The number zero in front of a colon. -/
theorem zero_at {r : Text} (hplace : place.rest = '0' :: ':' :: r) :
    Parses .arithmetic (.chain .comma) place [.number ['0']] (place.forward 1) ∧
      (place.forward 1).rest = ':' :: r := by
  have hplace₁ : (place.forward 1).rest = ':' :: r := by
    rw [Scan.rest_forward, hplace]
    rfl
  obtain ⟨ht, hafter⟩ := token?_cut .arithmetic .number (n := 1) hplace rfl (by decide) rfl
  obtain ⟨hcolon, _⟩ := token?_cut .arithmetic .colon (n := 1) hplace₁ rfl (by decide) rfl
  have hprimary : Parses .arithmetic .primary place [.number ['0']] (place.forward 1) := by
    refine parses_iff.mpr (leads_bind.mpr ⟨⟨.number, ['0']⟩, _, ?_, rfl, rfl⟩)
    exact leads_expect.mpr (leads_next_some.mpr
      ⟨_, ht, wants_of_adjacent rfl _ _, rfl, hafter.symm⟩)
  exact ⟨hprimary.expression_of_primary ht (wants_of_adjacent rfl _ _) (wants_of_adjacent rfl _ _)
    hcolon (.tail _ (.head _)), hplace₁⟩

/-- As the length of a substring an expression is accepted if the blank behind it holds no
bare newline. -/
theorem length_iff (h : IsExpression E B w)
    (hplace : place.rest = 'a' :: ':' :: '0' :: ':' :: (E ++ ['}'])) :
    (w.isInline = true → ∃ place', Parses .parameter .braced place
      [.substring false ['a'] (.number ['0']) B] place' ∧ place'.rest = []) ∧
    ∀ ns place', Parses .parameter .braced place ns place' → w.isInline = true := by
  have hplace₁ : (place.forward 1).rest = ':' :: '0' :: ':' :: (E ++ ['}']) := by
    rw [Scan.rest_forward, hplace]
    rfl
  have hcolon : Leads .parameter (Reader.accept .colon) (place.forward 1) (some [':'])
      ((place.forward 1).forward 1) := leads_query.mpr (mark_single hplace₁ rfl rfl false)
  have hplace₂ : ((place.forward 1).forward 1).rest = '0' :: ':' :: (E ++ ['}']) := by
    rw [Scan.rest_forward, hplace₁]
    rfl
  obtain ⟨hzero, hplace₃⟩ := zero_at hplace₂
  have hcolon' : Leads .parameter (Reader.acceptPastBlank .colon)
      (((place.forward 1).forward 1).forward 1) (some [':'])
      ((((place.forward 1).forward 1).forward 1).forward 1) :=
    leads_query.mpr (mark_single hplace₃ rfl rfl true)
  have hplace₄ : ((((place.forward 1).forward 1).forward 1).forward 1).rest =
      [] ++ (E ++ '}' :: []) := by
    rw [Scan.rest_forward, hplace₃]
    rfl
  obtain ⟨place₅, hoperand, hplace₅⟩ :=
    h.reads_at .brace (by decide) rfl (.inl rfl) hplace₄
  refine braced_behind (substring_body (by decide) hplace ?_) h.blank hplace₅
  refine leads_bind.mpr ⟨_, _, hcolon, leads_bind.mpr ⟨_, _, leads_one.mpr hzero, ?_⟩⟩
  refine leads_bind.mpr ⟨_, _, hcolon', ?_⟩
  exact leads_bind.mpr ⟨B, place₅, leads_one.mpr hoperand, rfl, rfl⟩

end IsExpression

/-! ### Scripts -/

variable {source : Text}

/-- The expression of a script that is one arithmetic expansion. -/
theorem isExpression_of_script {es : List Node} {last : Token}
    (hes : .list es = Node.single (.arithExpansion B))
    (h : Script ('$' :: '(' :: '(' :: (E ++ [')', ')'])) es last) (hblank : last.blank = []) :
    ∃ w, IsExpression E B w := by
  have hexpansion := isExpansion_of_script (.inr ⟨_, rfl⟩) hes nofun h hblank
  obtain ⟨t, e, ht, _, hrest, hend⟩ := hexpansion.reads
  obtain ⟨ht', hafter⟩ := token?_cut .script .dollarParen2 (n := 3)
    (show (Scan.ofText ('$' :: '(' :: '(' :: (E ++ [')', ')']))).rest = _ from rfl) rfl (by decide) rfl
  obtain rfl := Option.some.inj (ht'.symm.trans ht)
  have hclosed : Parses .arithmetic .arithClosed
      ((Scan.ofText ('$' :: '(' :: '(' :: (E ++ [')', ')']))).forward 3) [.arithExpansion B] e := by
    rw [← hafter]
    exact leads_all.mp hrest
  obtain ⟨body, a₁, hbody, hclosing⟩ := leads_bind.mp (parses_iff.mp hclosed)
  have hexpression := leads_one.mp hbody
  obtain ⟨u, a₂, hclose, hlast⟩ := leads_bind.mp hclosing
  obtain ⟨heq, rfl⟩ := leads_pure.mp hlast
  cases heq
  obtain ⟨v, hv, rfl⟩ := Query.close_iff.mp (leads_query.mp hclose)
  obtain ⟨_, _, hcut⟩ := takeAt_cases hv
  obtain ⟨_, hmatches⟩ := takeAt_matches hv
  obtain ⟨rfl, hfits⟩ := takeAt_fits hv
  refine ⟨v.blank, ⟨(Scan.ofText ('$' :: '(' :: '(' :: (E ++ [')', ')']))).forward 3, v.origin, rfl,
    hexpression, ?_⟩, ?_⟩
  · rw [Token.rest_origin hfits, Token.text, hmatches.of_lit, hend, List.append_nil]
    rfl
  · rw [hcut]
    exact isBarren_blank .arith v.origin.rest

/-- A script of one expansion behind `${` parses if the expansion does. -/
theorem braced_script {r : Text} {N : Node}
    (hparam : ∀ {place : Scan}, place.rest = r →
      (w.isInline = true → ∃ place', Parses .parameter .braced place [N] place' ∧ place'.rest = []) ∧
      ∀ ns place', Parses .parameter .braced place ns place' → w.isInline = true) :
    (w.isInline = true → parse ⟨0⟩ ('$' :: '{' :: r) = .ok (.single N)) ∧
      ((∃ tree, parse ⟨0⟩ ('$' :: '{' :: r) = .ok tree) → w.isInline = true) := by
  obtain ⟨ht, hafter⟩ := token?_cut .script .dollarBrace (n := 2)
    (show (Scan.ofText ('$' :: '{' :: r)).rest = _ from rfl) rfl (by decide) rfl
  obtain ⟨hyes, hno⟩ := hparam (show ((Scan.ofText ('$' :: '{' :: r)).forward 2).rest = r from rfl)
  constructor
  · intro hinline
    obtain ⟨place', hbraced, hend⟩ := hyes hinline
    have hpiece : Parses .script (.piece false) (.ofText ('$' :: '{' :: r)) [N] place' :=
      Parses.piece_of_token ht rfl (leads_all.mpr (by rw [hafter]; exact hbraced))
    obtain ⟨es, last, hes, hscript⟩ := Script.of_piece hpiece hend (by decide) rfl fun u hu => by
      obtain rfl := Option.some.inj (ht.symm.trans hu)
      exact nofun
    exact hscript.parse_eq.trans (congrArg _ hes)
  · rintro ⟨tree, hparse⟩
    obtain ⟨s, hrun⟩ := parse_eq_ok_iff.mp hparse
    obtain ⟨es, last, _, _, hscript, _⟩ := Script.of_run hrun
    obtain ⟨n, place, hpiece⟩ := hscript.piece_start
      (Rules.takeAt_assignHead (by decide) rfl true) ht nofun nofun nofun
    obtain ⟨hnil, _⟩ | ⟨_, u, _, hu, _, hrest⟩ := hpiece.piece_cases
    · cases hnil
    · obtain rfl := Option.some.inj (ht.symm.trans hu)
      rw [hafter] at hrest
      exact hno _ _ (leads_all.mp hrest)

/-- All places for arithmetic expressions read the same of an expression. What is one between
`$((` and `))` is the same as a subscript, as the offset of a substring and as its length,
where it is accepted at all: that is, if the blank it ends with holds no newline that is not
escaped. -/
theorem parse_operands {E : Text} {B : Node}
    (h : parseEnd ⟨0⟩ ("$((".toList ++ E ++ "))".toList) = some (.single (.arithExpansion B), [])) :
    ((∃ tree, parse ⟨0⟩ ("$\x7ba[".toList ++ E ++ "]\x7d".toList) = .ok tree) ↔
        E.trailing.isInline = true) ∧
      ((∃ tree, parse ⟨0⟩ ("$\x7ba: ".toList ++ E ++ "\x7d".toList) = .ok tree) ↔
        E.trailing.isInline = true) ∧
      ((∃ tree, parse ⟨0⟩ ("$\x7ba:0:".toList ++ E ++ "\x7d".toList) = .ok tree) ↔
        E.trailing.isInline = true) ∧
      (E.trailing.isInline = true →
        parse ⟨0⟩ ("$\x7ba[".toList ++ E ++ "]\x7d".toList) =
            .ok (.single (.arrayElement false "a".toList B)) ∧
          parse ⟨0⟩ ("$\x7ba: ".toList ++ E ++ "\x7d".toList) =
            .ok (.single (.substring false "a".toList B .empty)) ∧
          parse ⟨0⟩ ("$\x7ba:0:".toList ++ E ++ "\x7d".toList) =
            .ok (.single (.substring false "a".toList (.number "0".toList) B))) := by
  obtain ⟨es, last, hes, hscript, hlast⟩ := Script.of_parseEnd h
  have hsource : "$((".toList ++ E ++ "))".toList = '$' :: '(' :: '(' :: (E ++ [')', ')']) := rfl
  rw [hsource] at hscript
  obtain ⟨w, hE⟩ := isExpression_of_script hes.symm hscript hlast
  obtain ⟨helement, helement'⟩ := braced_script fun hplace => hE.element_iff hplace
  obtain ⟨hoffset, hoffset'⟩ := braced_script fun hplace => hE.offset_iff hplace
  obtain ⟨hlength, hlength'⟩ := braced_script fun hplace => hE.length_iff hplace
  rw [hE.trailing_eq]
  exact ⟨⟨helement', fun hinline => ⟨_, helement hinline⟩⟩,
    ⟨hoffset', fun hinline => ⟨_, hoffset hinline⟩⟩,
    ⟨hlength', fun hinline => ⟨_, hlength hinline⟩⟩,
    fun hinline => ⟨helement hinline, hoffset hinline, hlength hinline⟩⟩

/-- A sum is read in each of the three places, and in none of them if a newline is behind it. -/
theorem parse_operands_sum :
    ∃ B, parseEnd ⟨0⟩ ("$((".toList ++ "b +\n 1 ".toList ++ "))".toList) =
        some (.single (.arithExpansion B), []) ∧
      parse ⟨0⟩ ("$\x7ba[".toList ++ "b +\n 1 ".toList ++ "]\x7d".toList) =
        .ok (.single (.arrayElement false "a".toList B)) ∧
      parse ⟨0⟩ ("$\x7ba: ".toList ++ "b +\n 1 ".toList ++ "\x7d".toList) =
        .ok (.single (.substring false "a".toList B .empty)) ∧
      parse ⟨0⟩ ("$\x7ba:0:".toList ++ "b +\n 1 ".toList ++ "\x7d".toList) =
        .ok (.single (.substring false "a".toList (.number "0".toList) B)) ∧
      parseEnd ⟨0⟩ ("$((".toList ++ "b + 1\n".toList ++ "))".toList) =
        some (.single (.arithExpansion B), []) ∧
      ¬ ∃ tree, parse ⟨0⟩ ("$\x7ba[".toList ++ "b + 1\n".toList ++ "]\x7d".toList) = .ok tree := by
  have hinline : parseEnd ⟨0⟩ ("$((".toList ++ "b +\n 1 ".toList ++ "))".toList) =
      some (.single (.arithExpansion (.binOp ['+'] (.var ['b'] false) (.number ['1']))), []) := by
    decide +kernel
  have hnewline : parseEnd ⟨0⟩ ("$((".toList ++ "b + 1\n".toList ++ "))".toList) =
      some (.single (.arithExpansion (.binOp ['+'] (.var ['b'] false) (.number ['1']))), []) := by
    decide +kernel
  obtain ⟨helement, hoffset, hlength⟩ := (parse_operands hinline).2.2.2 (by decide)
  exact ⟨_, hinline, helement, hoffset, hlength, hnewline,
    fun h => absurd ((parse_operands hnewline).1.mp h) (by decide)⟩

end ShellGrammar
