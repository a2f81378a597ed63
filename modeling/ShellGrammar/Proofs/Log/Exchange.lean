import ShellGrammar.Proofs.Log.Parting
import ShellGrammar.Proofs.Log.Script

/-! Another terminal in place of a `;`.

A newline or a `&` in place of a `;` that is a token parts the two texts in front of the blank, where
the blank is the same in both (`Exchange.parting`). At the place, rules that show the `;` show the other
terminal in its stead, behind the same blank (`Exchange.there`), and no question that leaves the one
takes the other. Behind it the same is ahead. -/
namespace ShellGrammar
open Grammar ParseM Rules

/-- A `;` among commands, and another terminal that stands in its place. -/
structure Exchange where
  semi : Token
  kind : Kind
  char : Char
  cut : command.tokenAt semi.origin = .ok semi
  isSemi : semi.kind = .semi
  new : (kind = .newline ∧ char = '\n') ∨ (kind = .amp ∧ char = '&')
  /-- It is no operator together with what stands behind it. -/
  alone : char = '&' → semi.after.rest.head? ≠ some '&'

namespace Exchange
variable (x : Exchange)

theorem body : x.semi.body = [';'] := body_of_spelling x.cut (by rw [x.isSemi]; rfl)

theorem fits : x.semi.Fits := (tokenAt_fits x.cut).2

/-- What stands in the place of the `;` and the blank in front of it. -/
def ahead : Text := x.semi.blank ++ x.char :: x.semi.after.rest

theorem rest_origin : x.semi.origin.rest = x.semi.blank ++ ';' :: x.semi.after.rest := by
  rw [Token.rest_origin x.fits, Token.text, x.body, List.append_assoc, List.singleton_append]

/-- The other terminal at a place. -/
def token (place : Scan) : Token := ⟨x.kind, place, x.semi.blank, [x.char]⟩

/-! ### The rules at the place -/

/-- Where rules skip the blank in front of the `;` they see it. -/
theorem drop_of_blank {n : Nat} (hn : n ≤ x.semi.origin.rest.length)
    (h : x.semi.origin.rest.take n = x.semi.blank) : x.semi.origin.rest.drop n = ';' :: x.semi.after.rest := by
  have hlength := congrArg List.length h
  rw [List.length_take_of_le hn] at hlength
  rw [hlength, x.rest_origin, List.drop_left]

/-- Rules that show the `;` are those of commands, or those of an expansion. -/
theorem rules_of_shows {rules : Rules} (h : rules.Shows x.semi) : rules = .command ∨ rules = .param := by
  -- Everywhere else a semicolon is bare text, or starts nothing.
  have helse : rules = .command ∨ rules = .param ∨
      rules.set.rules.all (fun r => r.kind != .semi && (!r.pattern.mayStart ';' || r.kind == .str)) = true := by
    cases rules with
    | command => exact .inl rfl
    | param => exact .inr (.inl rfl)
    | _ => exact .inr (.inr (by decide))
  obtain hrules | hrules | hall := helse
  · exact .inl hrules
  · exact .inr hrules
  cases h with
  | name hrules => exact .inl hrules
  | same ht =>
    obtain ⟨hkind, -⟩ | ⟨r, hr, hkind, -⟩ := tokenAt_rule ht
    · exact absurd (x.isSemi.symm.trans hkind) (by decide)
    · have hno := (Bool.and_eq_true_iff.mp (List.all_eq_true.mp hall r hr)).1
      rw [hkind, x.isSemi] at hno
      cases hno
  | @part t ht hblank _ hkind =>
    obtain ⟨-, rfl⟩ | ⟨kind, length, hfit, rfl⟩ := tokenAt_cases ht
    · exact absurd (show Kind.eos ∈ [Kind.str, .ident, .eos] by decide) hkind
    · rw [x.drop_of_blank (skipLength_le _ _) hblank] at hfit
      obtain ⟨r, hr, rfl, hreach⟩ := firstFit_mem hfit
      obtain ⟨hreach, hpos⟩ := Pattern.reach?_eq_some_iff.mp hreach
      obtain ⟨n, rfl⟩ := Nat.exists_eq_succ_of_ne_zero (Nat.ne_of_gt hpos)
      have hstr := (Bool.and_eq_true_iff.mp (List.all_eq_true.mp hall r hr)).2
      rw [Pattern.mayStart_of_reach hreach] at hstr
      exact absurd (show r.kind ∈ _ from eq_of_beq hstr ▸ List.mem_cons_self) hkind

/-- In front of the `;` all that is skipped is blank, and nothing more is skipped in front of the other
terminal. -/
theorem blankLength {rules : Rules} (h : rules.Shows x.semi) :
    rules.blankLength x.semi.origin.rest = x.semi.blank.length ∧
      rules.blankLength x.ahead = x.semi.blank.length := by
  have hblank : rules.blankLength x.semi.origin.rest = x.semi.blank.length := by
    obtain hblank | ⟨hcomment, hskip⟩ := h.blank_cases
    · exact hblank
    · have hbehind := hcomment.behind
      rw [hskip, x.rest_origin, List.drop_left] at hbehind
      obtain hnil | ⟨more, hmore⟩ := hbehind
      · cases hnil
      · cases hmore
  refine ⟨hblank, blankLength_append ?_ ?_⟩
  · have htake := blankLength_take rules x.semi.origin.rest
    rwa [hblank, x.rest_origin, List.take_left] at htake
  · obtain ⟨-, hchar⟩ | ⟨-, hchar⟩ := x.new
    · rw [hchar]
      obtain rfl | rfl := x.rules_of_shows h <;> rfl
    · rw [hchar]
      exact blankLength_cons_of_not_mem (by decide) _

/-- The other terminal is a token among commands. -/
theorem firstFit_char : firstFit command.set.rules (x.char :: x.semi.after.rest) = some (x.kind, 1) := by
  have halone := x.alone
  obtain ⟨hkind, hchar⟩ | ⟨hkind, hchar⟩ := x.new
  · rw [hkind, hchar]
    rfl
  · rw [hkind, hchar]
    cases hrest : x.semi.after.rest with
    | nil => rfl
    | cons c more =>
      have hc : c ≠ '&' := fun heq => halone hchar (by rw [hrest, heq]; rfl)
      have hno : (Pattern.lit ['&', '&']).reach? ('&' :: c :: more) = none := by
        simp [Pattern.reach?, Pattern.reach, List.isPrefixOf, hc.symm]
      simp only [Rules.set, commandRules, List.cons_append, firstFit, hno]
      rfl

section There
variable {b : Scan} (hb : b.rest = x.ahead)
include hb

/-- Among commands the other terminal stands in the place of the `;`. -/
theorem tokenAt_command : command.tokenAt b = .ok (x.token b) := by
  have hblank := (x.blankLength (.same x.cut)).2
  have hsharp : x.char ≠ '#' := by
    obtain ⟨-, hchar⟩ | ⟨-, hchar⟩ := x.new <;> rw [hchar] <;> decide
  have hdrop : x.ahead.drop x.semi.blank.length = x.char :: x.semi.after.rest := List.drop_left
  have hskip : command.skipLength b = x.semi.blank.length := by
    rw [skipLength, hb, hblank]
    split
    · rw [hdrop, commentLength_of_ne hsharp, Nat.add_zero]
    · rfl
  have hfit := x.firstFit_char
  rw [← hdrop, ← hb, ← hskip] at hfit
  rw [tokenAt_of_fit hfit, Rules.cut, hskip, hb, hdrop, ahead, List.take_left]
  rfl

/-- What rules make of the `;`, they make of the other terminal, behind the same blank: another terminal
among commands, and in an expansion a character like any other. -/
theorem there {rules : Rules} (h : rules.Shows x.semi) :
    ∃ t t', rules.tokenAt x.semi.origin = .ok t ∧ rules.tokenAt b = .ok t' ∧ t'.blank = t.blank ∧
      ((rules = .command ∧ t = x.semi ∧ t' = x.token b) ∨ (t.kind = .glyph ∧ t'.kind = .glyph)) := by
  obtain rfl | rfl := x.rules_of_shows h
  · exact ⟨_, _, x.cut, x.tokenAt_command hb, rfl, .inl ⟨rfl, rfl, rfl⟩⟩
  · obtain ⟨hblank, hblank'⟩ := x.blankLength h
    have hfit : firstFit param.set.rules (x.semi.origin.rest.drop (param.skipLength x.semi.origin)) =
        some (.glyph, 1) := by
      rw [show param.skipLength x.semi.origin = param.blankLength x.semi.origin.rest from rfl, hblank,
        x.rest_origin, List.drop_left]
      rfl
    have hfit' : firstFit param.set.rules (b.rest.drop (param.skipLength b)) = some (.glyph, 1) := by
      rw [show param.skipLength b = param.blankLength b.rest from rfl, hb, hblank', ahead, List.drop_left]
      obtain ⟨-, hchar⟩ | ⟨-, hchar⟩ := x.new <;> rw [hchar] <;> rfl
    refine ⟨_, _, tokenAt_of_fit hfit, tokenAt_of_fit hfit', ?_, .inr ⟨rfl, rfl⟩⟩
    show b.rest.take (param.blankLength b.rest) = x.semi.origin.rest.take (param.blankLength x.semi.origin.rest)
    rw [hblank, hb, hblank', ahead, x.rest_origin, List.take_left, List.take_left]

/-- No shape stands in the place of the `;`, or of the other terminal. -/
theorem missed {rules : Rules} {pattern : Pattern} {kind : Kind} {allowBlank : Bool}
    (hpattern : ∀ ch ∈ Scan.edges, pattern.avoids ch = true) (h : rules.Shows x.semi) :
    rules.takeAt pattern kind allowBlank b = none := by
  refine takeAt_eq_none.mpr (.inr ?_)
  rw [hb, (x.blankLength h).2, ahead, List.drop_left]
  refine Pattern.reach?_eq_none_of_mayStart (Pattern.mayStart_of_avoids (hpattern _ ?_))
  obtain ⟨-, hchar⟩ | ⟨-, hchar⟩ := x.new <;> rw [hchar] <;> decide

/-- Behind either the same is ahead. -/
theorem same_after : x.semi.after.Same (x.token b).after := by
  have hfits : (x.token b).Fits := ⟨x.semi.after.rest, by
    rw [Token.text, token, hb, ahead, List.append_assoc]
    rfl⟩
  refine ⟨?_, fun _ => ?_⟩
  · rw [Token.after, Scan.rest_forward, token, hb, ahead, List.append_cons]
    exact List.drop_left' List.length_append
  · rw [Token.commentMayStart_after hfits (List.cons_ne_nil _ _),
      Token.commentMayStart_after x.fits (by rw [x.body]; exact List.cons_ne_nil _ _), x.body]
    obtain ⟨-, hchar⟩ | ⟨-, hchar⟩ := x.new <;> rw [token, hchar] <;> rfl

end There

/-! ### In front of the place -/

/-- In both texts a character stands at the place that no shape goes on with. -/
theorem edges : (∃ c ∈ Scan.edges, ∃ u, x.semi.origin.rest = c :: u) ∧
    ∃ c ∈ Scan.edges, ∃ u, x.ahead = c :: u := by
  have hchar : x.char ∈ Scan.edges := by
    obtain ⟨-, hchar⟩ | ⟨-, hchar⟩ := x.new <;> rw [hchar] <;> decide
  have hblank := (x.blankLength (.same x.cut)).1
  have hrest := x.rest_origin
  cases hcons : x.semi.blank with
  | nil =>
    rw [hcons] at hrest
    exact ⟨⟨';', by decide, _, hrest⟩, x.char, hchar, _, by rw [ahead, hcons]; rfl⟩
  | cons c more =>
    rw [hcons, List.cons_append] at hrest
    have hc : c ∈ [' ', '\t', '\n', '\\'] := by
      refine Decidable.byContradiction fun hno => ?_
      rw [hrest, blankLength_cons_of_not_mem hno, hcons] at hblank
      cases hblank
    have hedges : [' ', '\t', '\n', '\\'].all Scan.edges.contains = true := by decide
    have hc := List.contains_iff_mem.mp (List.all_eq_true.mp hedges c hc)
    exact ⟨⟨c, hc, _, hrest⟩, c, hc, _, by rw [ahead, hcons]; rfl⟩

/-- In front of the blank the texts part. -/
def parting : Parting where
  here := x.semi.origin
  ahead := x.ahead
  last := fun _ body => x.semi.blank = [] → x.char = '&' → body ≠ ['&'] ∧ body ≠ ['|']
  token := by
    intro rules a b t v ha hb _ hmay ht hbody hslash hlast
    rw [x.rest_origin, ← List.append_assoc v] at ha
    rw [ahead, ← List.append_assoc v] at hb
    refine tokenAt_seam ha hb hmay ⟨?_, fun _ => List.cons_ne_nil _ _, fun hamp hnil => ?_, fun _ htext _ _ => ?_⟩
      (fun hone => ?_) ht hbody
    · obtain ⟨-, hchar⟩ | ⟨-, hchar⟩ := x.new <;> rw [hchar] <;> decide
    · obtain ⟨hv, hblank⟩ := List.append_eq_nil_iff.mp hnil
      exact hlast hv hblank hamp
    · -- Where a newline or a `&` is bare text, so is a semicolon.
      have hsemi : rules.text ';' = true := by
        cases rules with
        | doubleQuote | wordUntilBrace | wordUntilSlash => rfl
        | command | param | arith =>
          obtain ⟨-, hchar⟩ | ⟨-, hchar⟩ := x.new <;> rw [hchar] at htext <;> cases htext
      exact ⟨[';'], List.cons_ne_nil _ _, ⟨_, rfl⟩,
        Pattern.denotes_many_one (Pattern.denotes_char hsemi (by decide))⟩
    · obtain ⟨hnil, -⟩ | ⟨hone, hnil⟩ := List.append_eq_singleton_iff.mp hone
      · exact hbody hnil
      · rw [(List.append_eq_nil_iff.mp hnil).1, List.append_nil] at hslash
        exact hslash hone
  blank := fun hlt hslash => blankLength_front (fun h => hslash h.1) hlt
  shape := by
    intro p u hp _ _
    obtain ⟨⟨c, hc, v, hrest⟩, c', hc', v', hahead⟩ := x.edges
    rw [Pattern.reach?, Pattern.reach?, hrest, hahead, Pattern.steady_of_avoids (hp c hc) u _ id,
      Pattern.steady_of_avoids (hp c' hc') u _ id]

end Exchange

end ShellGrammar
