import ShellGrammar.Proofs.Lexer.Tokens
import ShellGrammar.Proofs.Rules.Refused
import Mathlib.Data.List.TFAE

/-! What the name of a variable is.

There are five places that know: the test for a name, the shape of an assignment's head, and the
tables of arithmetic, of parameters and of commands. Their patterns are parts of larger ones, stand
among other rules, take as much as they can and may skip blank. Still all of them agree on every
text (`variableName_tfae`), once the numbers and glyphs are set aside that can stand for a parameter
as well. -/
namespace ShellGrammar
open Grammar

variable {rules : Rules} {allowBlank : Bool} {kind : Kind} {t x : Text}

namespace Rules

/-- A text is read as one token, with no blank in front of it or behind. -/
def LexesAs (rules : Rules) (allowBlank : Bool) (kind : Kind) (t : Text) : Prop :=
  ∃ u e, tokenize rules allowBlank t = .ok ([u, e], .eos) ∧ u.kind = kind ∧ u.body = t ∧
    u.blank = [] ∧ e.kind = .eos ∧ e.blank = []

/-- A text is one token if the first rule that fits takes all of it. -/
theorem lexesAs_iff (hkind : kind ≠ .eos) :
    rules.LexesAs allowBlank kind t ↔
      rules.skipLength (.ofText t) = 0 ∧ firstFit rules.set.rules t = some (kind, t.length) := by
  constructor
  · rintro ⟨u, e, htokens, rfl, hbody, hblank, -, -⟩
    rw [tokenize_eq_ok_iff, tokensFrom] at htokens
    have hu : rules.tokenAt (.ofText t) = .ok u := by
      cases ht : rules.tokenAt (.ofText t) with
      | error f => rw [ht] at htokens; cases htokens
      | ok v =>
        rw [ht] at htokens
        dsimp only at htokens
        split at htokens
        · split at htokens
          · cases htokens
          · obtain ⟨⟨ts, ending⟩, -, hr⟩ := Option.map_eq_some_iff.mp htokens
            cases hr
            rfl
        · cases htokens
    obtain ⟨-, rfl⟩ | ⟨kind, length, hfit, rfl⟩ := tokenAt_cases hu
    · exact absurd rfl hkind
    have hwhole : (t.drop (rules.skipLength (.ofText t))).take length = t := hbody
    have hfit : firstFit rules.set.rules (t.drop (rules.skipLength (.ofText t))) = some (kind, length) := hfit
    have hskip : rules.skipLength (.ofText t) = 0 := by
      have hnil : t.take (rules.skipLength (.ofText t)) = [] := hblank
      refine (List.take_eq_nil_iff.mp hnil).resolve_right fun hnone => (firstFit_bounds hfit).1 ?_
      rw [hnone, List.drop_nil]
    rw [hskip, List.drop_zero] at hwhole hfit
    have hle := (firstFit_bounds hfit).2
    have hge := congrArg List.length hwhole
    rw [List.length_take_of_le hle] at hge
    exact ⟨hskip, hge ▸ hfit⟩
  · rintro ⟨hskip, hfit⟩
    obtain ⟨n, hn⟩ := Nat.exists_eq_succ_of_ne_zero (mt List.eq_nil_of_length_eq_zero (firstFit_bounds hfit).1)
    let u := cut kind 0 t.length (.ofText t)
    have hu : rules.tokenAt (.ofText t) = .ok u := by
      have hdrop : firstFit rules.set.rules (t.drop (rules.skipLength (.ofText t))) = some (kind, t.length) := by
        rw [hskip]
        exact hfit
      have hcut := tokenAt_of_fit hdrop
      rwa [hskip] at hcut
    have hblank : u.blank = [] := (List.take_zero : t.take 0 = [])
    have hbody : u.body = t := List.take_length
    have hrest : u.after.rest = [] := by
      rw [Token.after, Scan.rest_forward, hblank, hbody, List.length_nil, Nat.zero_add]
      exact List.drop_length
    have hvisible : ∀ v : Token, v.blank = [] → v.isVisible [] allowBlank = true := by
      intro v hv
      simp [Token.isVisible, Token.isAdjacent, hv]
    have hend : (cut .eos 0 0 u.after).blank = [] := (List.take_zero : u.after.rest.take 0 = [])
    refine ⟨u, cut .eos 0 0 u.after, ?_, rfl, hbody, hblank, rfl, hend⟩
    rw [tokenize_eq_ok_iff, hn, tokensFrom, hu]
    simp only [tokensFrom, tokenAt_nil hrest, hvisible u hblank, hvisible _ hend, if_true]
    simp [hkind, u, cut]

/-- In front of a text that starts with neither blank nor a `#` there is nothing to skip. -/
theorem skipLength_of_start {c : Char} (hc : c ∉ [' ', '\t', '\n', '\\', '#']) (more : Text) :
    rules.skipLength (.ofText (c :: more)) = 0 := by
  have hblank : rules.blankLength (c :: more) = 0 :=
    blankLength_cons_of_not_mem (fun h => hc (by simp_all)) more
  have hcomment : commentLength (c :: more) = 0 := by
    have hsharp : '#' ≠ c := fun h => hc (by simp [← h])
    simp [commentLength, comment, Pattern.reach, List.isPrefixOf, hsharp]
  have hrest : (Scan.ofText (c :: more)).rest = c :: more := rfl
  simp only [skipLength, hrest, hblank, List.drop_zero, hcomment]
  split <;> rfl

theorem skipLength_of_name (hx : x.isVariableName = true) : rules.skipLength (.ofText x) = 0 := by
  obtain ⟨c, more, rfl, hstart⟩ := Text.exists_cons_of_name hx
  refine skipLength_of_start (fun hmem => ?_) more
  revert hstart
  simp only [List.mem_cons, List.not_mem_nil, or_false] at hmem
  rcases hmem with rfl | rfl | rfl | rfl | rfl <;> decide

/-! ### Names that fit -/

section Name
variable (hx : x.isVariableName = true)
include hx

theorem reach_name : Pattern.variableName.reach x = some x.length := by
  have hreach : Pattern.variableName.reach (x ++ []) = some x.length :=
    Pattern.reach_variableName hx fun ch hch => by cases hch
  rwa [List.append_nil] at hreach

/-- Whatever starts like no name takes nothing from one. -/
theorem reach_of_apart {p : Pattern} (hp : p.Apart .variableName) (hnull : p.nullable = false) :
    p.reach x = none := by
  refine Option.eq_none_iff_forall_ne_some.mpr fun n hn => ?_
  cases n with
  | zero => exact Bool.eq_false_iff.mp hnull (Pattern.nullable_of_reach hn)
  | succ n =>
    have hdenotes := Pattern.denotes_of_reach (reach_name hx)
    refine hp.reach_ne hdenotes (fun hnil => ?_) (List.take_prefix _ _) n hn
    rw [List.take_length] at hnil
    rw [hnil] at hx
    cases hx

theorem reach?_name {p : Pattern} (h : p.reach x = some x.length) : p.reach? x = some x.length := by
  refine Pattern.reach?_eq_some_iff.mpr ⟨h, List.length_pos_iff.mpr ?_⟩
  rintro rfl
  cases hx

theorem firstFit_arith_name : firstFit arith.set.rules x = some (.ident, x.length) := by
  have hnumber : numberLiteral.reach? x = none := by
    rw [Pattern.reach?, reach_of_apart hx apart_number_name rfl]
    rfl
  show firstFit (⟨numberLiteral, .number⟩ :: ⟨.variableName, .ident⟩ :: _) x = _
  simp only [firstFit, hnumber, reach?_name hx (reach_name hx)]

theorem firstFit_param_name : firstFit param.set.rules x = some (.name, x.length) := by
  have hdigits : (Pattern.some1 .digit).reach x = none := reach_of_apart hx apart_digits_name rfl
  have hreach : (Pattern.alt (.some1 .digit) (.alt .variableName (.oneOf specialGlyphs))).reach x =
      some x.length := by
    simp only [Pattern.reach, hdigits, reach_name hx]
  show firstFit (⟨.alt (.some1 .digit) (.alt .variableName (.oneOf specialGlyphs)), .name⟩ :: _) x = _
  simp only [firstFit, reach?_name hx hreach]

theorem firstFit_dollar_name :
    firstFit command.set.rules ('$' :: x) = some (.dollarName, ('$' :: x).length) := by
  have hfilter : command.set.rules.filter (·.pattern.mayStart '$') = expansions ++ [loneDollar] := rfl
  have hreach : dollarName.reach ('$' :: x) = some ('$' :: x).length := by
    have hname : (Pattern.alt .variableName (.alt .digit (.oneOf specialGlyphs))).reach x =
        some x.length := by
      simp only [Pattern.reach, reach_name hx]
    rw [List.length_cons, Nat.add_comm]
    exact Pattern.reach_seq rfl hname
  have hlit : ∀ c more, Text.isNameStart c = false → (Pattern.lit ('$' :: c :: more)).reach? ('$' :: x) = none := by
    intro c more hc
    cases x with
    | nil => rfl
    | cons d x =>
      have hne : c ≠ d := by
        rintro rfl
        rw [(Bool.and_eq_true_iff.mp hx).1] at hc
        cases hc
      simp [Pattern.reach?, Pattern.reach, List.isPrefixOf, hne]
  rw [firstFit_filter, hfilter]
  simp only [expansions, List.cons_append, firstFit, hlit '(' _ rfl, hlit '{' _ rfl,
    Pattern.reach?_eq_some_iff.mpr ⟨hreach, Nat.succ_pos _⟩]

end Name

/-! ### What fits is a name -/

theorem matches_of_fit {pattern : Pattern} {kind : Kind} (h : firstFit rules.set.rules t = some (kind, t.length))
    (hpattern : ∀ r ∈ rules.set.rules, r.kind = kind → r.pattern = pattern) : pattern.Matches t := by
  obtain ⟨r, hr, hkind, hreach⟩ := firstFit_mem h
  rw [hpattern r hr hkind] at hreach
  exact ⟨t, t.length, (Pattern.reach?_eq_some_iff.mp hreach).1, List.take_length⟩

theorem name_of_arith (h : firstFit arith.set.rules x = some (.ident, x.length)) :
    x.isVariableName = true :=
  (matches_of_fit h fun _ hr hkind => pattern_of_shape hr (by rw [hkind]; rfl)).of_variableName

/-- A parameter in braces is named by a number, a name or a glyph. -/
theorem name_of_param (h : firstFit param.set.rules x = some (.name, x.length)) :
    x.all Char.isDigit = true ∨ x.isVariableName = true ∨ ∃ g ∈ specialGlyphs, x = [g] := by
  have hpattern : ∀ r ∈ param.set.rules, r.kind = .name →
      r.pattern = .alt (.some1 .digit) (.alt .variableName (.oneOf specialGlyphs)) := by
    simp [set, paramRules]
  obtain hdigits | hname | hglyph := (matches_of_fit h hpattern).of_alt.imp_right Pattern.Matches.of_alt
  · obtain ⟨first, more, rfl, hfirst, hmore⟩ := hdigits.of_seq
    obtain ⟨d, rfl, hd⟩ := hfirst.of_one
    exact .inl (by rw [List.singleton_append, List.all_cons, hd, hmore.of_many, Bool.and_self])
  · exact .inr (.inl hname.of_variableName)
  · obtain ⟨g, rfl, hg⟩ := hglyph.of_one
    exact .inr (.inr ⟨g, List.contains_iff_mem.mp hg, rfl⟩)

/-- A parameter behind a `$` is named by a digit, a name or a glyph. -/
theorem name_of_dollar (h : firstFit command.set.rules ('$' :: x) = some (.dollarName, ('$' :: x).length)) :
    (∃ d, d.isDigit = true ∧ x = [d]) ∨ x.isVariableName = true ∨ ∃ g ∈ specialGlyphs, x = [g] := by
  have hmatches := matches_of_fit h fun _ hr hkind => pattern_of_shape hr (by rw [hkind]; rfl)
  obtain ⟨dollar, name, hsplit, hdollar, hname⟩ := hmatches.of_seq
  rw [hdollar.of_lit] at hsplit
  obtain rfl := (List.cons.inj hsplit).2
  obtain hname | hdigit | hglyph := hname.of_alt.imp_right Pattern.Matches.of_alt
  · exact .inr (.inl hname.of_variableName)
  · obtain ⟨d, rfl, hd⟩ := hdigit.of_one
    exact .inl ⟨d, hd, rfl⟩
  · obtain ⟨g, rfl, hg⟩ := hglyph.of_one
    exact .inr (.inr ⟨g, List.contains_iff_mem.mp hg, rfl⟩)

end Rules

/-! ### Recognizers of names -/

/-- A name is no number and no glyph. -/
theorem Text.apart_of_name (hx : x.isVariableName = true) :
    x.all Char.isDigit = false ∧ ∀ g ∈ Rules.specialGlyphs, x ≠ [g] := by
  cases x with
  | nil => cases hx
  | cons c more =>
    have hstart := (Bool.and_eq_true_iff.mp hx).1
    constructor
    · have hdigit : c.isDigit = false := Bool.eq_false_iff.mpr fun hd => by
        rw [Rules.isNameStart_of_digit hd] at hstart
        cases hstart
      rw [List.all_cons, hdigit, Bool.false_and]
    · have hglyphs : Rules.specialGlyphs.all (fun g => !Text.isNameStart g) = true := by decide
      rintro g hg heq
      have hno := List.all_eq_true.mp hglyphs g hg
      rw [← (List.cons.inj heq).1, hstart] at hno
      cases hno

/-- The head of an assignment is a name with an equals sign behind it. -/
theorem assignHead_iff : assignHead.reach? (x ++ ['=']) = some (x ++ ['=']).length ↔
    x.isVariableName = true := by
  constructor
  · intro h
    have hmatches : assignHead.Matches (x ++ ['=']) :=
      ⟨_, _, (Pattern.reach?_eq_some_iff.mp h).1, List.take_length⟩
    obtain ⟨name, sign, hsplit, hname, hsign⟩ := hmatches.of_seq
    rw [hsign.of_lit] at hsplit
    rw [(List.append_inj_left' hsplit rfl)]
    exact hname.of_variableName
  · intro hx
    have hname : Pattern.variableName.reach (x ++ ['=']) = some x.length :=
      Pattern.reach_variableName hx fun ch hch => by
        cases hch
        rfl
    have hsign : (Pattern.lit ['=']).reach ((x ++ ['=']).drop x.length) = some 1 := by
      rw [List.drop_left]
      rfl
    refine Pattern.reach?_eq_some_iff.mpr ⟨?_, by simp⟩
    rw [List.length_append]
    exact Pattern.reach_seq hname hsign

open Rules in
/-- **One language of names.** The test for a name, the head of an assignment, and the tables of
arithmetic, of parameters and of commands accept the same texts, the numbers and glyphs apart that
name parameters too. -/
theorem variableName_tfae (allowBlank : Bool) (x : Text) : List.TFAE [
    x.isVariableName = true,
    assignHead.reach? (x ++ ['=']) = some (x ++ ['=']).length,
    arith.LexesAs allowBlank .ident x,
    param.LexesAs allowBlank .name x ∧ x.all Char.isDigit = false ∧ ∀ g ∈ specialGlyphs, x ≠ [g],
    command.LexesAs allowBlank .dollarName ('$' :: x) ∧
      (∀ d : Char, d.isDigit = true → x ≠ [d]) ∧ ∀ g ∈ specialGlyphs, x ≠ [g]] := by
  have harith : arith.LexesAs allowBlank .ident x ↔ x.isVariableName = true := by
    rw [lexesAs_iff (by decide)]
    exact ⟨fun h => name_of_arith h.2, fun hx => ⟨skipLength_of_name hx, firstFit_arith_name hx⟩⟩
  have hparam : param.LexesAs allowBlank .name x ∧ x.all Char.isDigit = false ∧
      (∀ g ∈ specialGlyphs, x ≠ [g]) ↔ x.isVariableName = true := by
    rw [lexesAs_iff (by decide)]
    constructor
    · rintro ⟨⟨-, hfit⟩, hdigits, hglyphs⟩
      obtain hnumber | hname | ⟨g, hg, heq⟩ := name_of_param hfit
      · rw [hdigits] at hnumber
        cases hnumber
      · exact hname
      · exact absurd heq (hglyphs g hg)
    · intro hx
      exact ⟨⟨skipLength_of_name hx, firstFit_param_name hx⟩, Text.apart_of_name hx⟩
  have hdollar : command.LexesAs allowBlank .dollarName ('$' :: x) ∧
      (∀ d : Char, d.isDigit = true → x ≠ [d]) ∧ (∀ g ∈ specialGlyphs, x ≠ [g]) ↔
        x.isVariableName = true := by
    rw [lexesAs_iff (by decide)]
    constructor
    · rintro ⟨⟨-, hfit⟩, hdigits, hglyphs⟩
      obtain ⟨d, hd, heq⟩ | hname | ⟨g, hg, heq⟩ := name_of_dollar hfit
      · exact absurd heq (hdigits d hd)
      · exact hname
      · exact absurd heq (hglyphs g hg)
    · intro hx
      obtain ⟨hdigits, hglyphs⟩ := Text.apart_of_name hx
      refine ⟨⟨skipLength_of_start (by decide) x, firstFit_dollar_name hx⟩, ?_, hglyphs⟩
      rintro d hd rfl
      rw [List.all_cons, hd] at hdigits
      cases hdigits
  refine List.tfae_of_forall (x.isVariableName = true) _ ?_
  simp only [List.forall_mem_cons, List.not_mem_nil, false_imp_iff, implies_true, and_true]
  exact ⟨trivial, assignHead_iff, harith, hparam, hdollar⟩

end ShellGrammar
