import ShellGrammar.Proofs.Log.Reblank
import ShellGrammar.Proofs.Reader.Script
import ShellGrammar.Proofs.Tree.Need

/-! Only the presence of blank matters.

The blank in front of a token is looked at more than once, under different rules and with and
without comments. Whatever it is, other blank in its place leaves the tree as it is
(`parse_reblanked`): every question of the parse looks at nothing but what is taken
(`Logs.heeded`), and places of the two texts are alike (`Reblanking.likeness`), so the log of the
one text guides the other. -/
namespace ShellGrammar
open Grammar ParseM

variable {source : Text} {t : Node}

namespace Rules
variable {rules : Rules} {x : Token}
  (h : rules.tokenAt x.origin = .ok x ∨
    ∃ pattern kind allowBlank, rules.takeAt pattern kind allowBlank x.origin = some x)
include h

/-- The blank in front of a token was skipped. -/
theorem skips_of_blank (hblank : x.blank ≠ []) : x.origin.Skips := by
  obtain h | ⟨pattern, kind, allowBlank, h⟩ := h
  · suffices hskip : rules.skipLength x.origin ≠ 0 from Scan.skips_of_skipLength hskip
    refine fun hzero => hblank ?_
    rw [blank_of_tokenAt h, hzero, List.take_zero]
  · obtain ⟨hlength, -⟩ := takeAt_front h
    suffices hskip : rules.blankLength x.origin.rest ≠ 0 from Scan.skips_of_blankLength hskip
    refine fun hzero => hblank ?_
    exact List.eq_nil_of_length_eq_zero (hlength.symm.trans hzero)

end Rules

/-- A script that parses is made of its tokens. -/
theorem source_of_run {options : Options} {s : ParseState} (h : run options source = .ok t s) :
    source = s.lexer.consumed.flatMap Token.text := by
  obtain ⟨xs, hrecords, hxs⟩ := run_records (run_unlimited h)
  obtain ⟨es, last, front, -, hscript, hlast⟩ := Script.of_run (run_unlimited h)
  have htiles := hrecords.tiles
  rw [← hxs] at htiles
  have hrest := htiles.rest
  rw [htiles.end_eq, hlast, List.getLast?_concat, Option.map_some, Option.getD_some,
    Rules.rest_after_eos hscript.lexed hscript.ends, List.append_nil] at hrest
  rw [hlast]
  exact hrest

/-- **Only the presence of blank matters.** In a script that parses, other blank in front of one of
its tokens, in place of the blank there, gives a script that parses to the same tree, whatever the
limit. -/
theorem parse_reblanked {options : Options} {s : ParseState} {front back : List Token} {x : Token}
    {blank : Text} (h : run options source = .ok t s) (hconsumed : s.lexer.consumed = front ++ x :: back)
    (hold : x.blank ≠ []) (hnew : blank ≠ []) (hspaces : ∀ ch ∈ blank, ch = ' ' ∨ ch = '\t') :
    source = front.flatMap Token.text ++ (x.blank ++ (x.body ++ back.flatMap Token.text)) ∧
      parse options (front.flatMap Token.text ++ (blank ++ (x.body ++ back.flatMap Token.text))) =
        .ok t := by
  have hsource := source_of_run h
  rw [hconsumed, List.flatMap_append, List.flatMap_cons, Token.text, List.append_assoc] at hsource
  refine ⟨hsource, ?_⟩
  obtain ⟨xs, hrecords, hxs⟩ := run_records (run_unlimited h)
  obtain ⟨as, hlogs, hanswered, rfl⟩ := hrecords.logs
  have hts : (takenIn as).map Taken.token = front ++ x :: back := hxs.symm.trans hconsumed
  have hcut := hanswered.cut (x := x) (by rw [hts]; simp)
  obtain ⟨rules, hcut⟩ := hcut
  obtain ⟨place, hfront, hback⟩ := tiles_append.mp (hts ▸ hanswered.tiles)
  obtain ⟨rfl, hfits, hback⟩ := hback
  have hbehind : x.after.rest = back.flatMap Token.text := by
    have hrest := hfront.rest
    rw [Token.rest_origin hfits, Token.text, List.append_assoc, Scan.ofText, hsource] at hrest
    exact (List.append_cancel_left (List.append_cancel_left (List.append_cancel_left hrest))).symm
  let r : Reblanking := ⟨x, blank, hfits, hold, hnew, hspaces, Rules.skips_of_blank hcut hold,
    Rules.rest_of_body hcut⟩
  have hbodies : ∀ t ∈ front, t.body ≠ [] ∧ t.body ≠ ['\\'] := by
    intro t ht
    obtain ⟨hempty, hslash⟩ := hlogs.bodies rfl hanswered t (by
      rw [hts]
      exact List.mem_append_left _ ht)
    refine ⟨fun hnil => r.rest_ne ?_, hslash⟩
    exact hfront.rest_nil ht (hempty hnil)
  have hrel : r.Rel ((takenIn as).map Taken.token) (.ofText source)
      (.ofText (front.flatMap Token.text ++ (blank ++ (x.body ++ back.flatMap Token.text)))) :=
    .before ⟨front, hts, hfront, by rw [← hbehind]; rfl, rfl, hbodies, fun _ _ _ _ => trivial⟩
  have hlooking : Looking .command (as ++ []) := hlogs.heeded hanswered rfl trivial
    fun hopen => Bool.noConfusion hopen
  rw [List.append_nil] at hlooking
  obtain ⟨place', hguides⟩ := Reblanking.likeness.guides hrel hanswered hlooking.1
  obtain ⟨es, last, rfl, hscript⟩ := Script.of_list (hlogs.parses hguides)
  obtain ⟨limit⟩ := options
  rcases Nat.eq_zero_or_pos limit with rfl | hpos
  · exact hscript.parse_eq
  · exact parse_of_need_le hpos hscript.parse_eq (need_le_of_run hpos h)

/-- A comment right behind the parenthesis of a substitution, and a tab in its place. -/
theorem parse_reblanked_comment :
    ∃ t s front x, run ⟨2⟩ ['a', '=', '$', '(', 'b', ')', '#', 'c'] = .ok t s ∧
      s.lexer.consumed = front ++ [x] ∧ x.blank = ['#', 'c'] ∧
      ['a', '=', '$', '(', 'b', ')', '#', 'c'] =
        front.flatMap Token.text ++ (x.blank ++ (x.body ++ List.flatMap Token.text [])) ∧
      parse ⟨2⟩ (front.flatMap Token.text ++ (['\t'] ++ (x.body ++ List.flatMap Token.text []))) = .ok t := by
  have hend : parseEnd ⟨2⟩ ['a', '=', '$', '(', 'b', ')', '#', 'c'] = some (.list [.pipelines
      (.pipeline false (.simpleCommand [.assign ['a'] (some (.commandSubst ['$', '('] (.list [
        .pipelines (.pipeline false (.simpleCommand [] [.str ['b']])) none])))] [])) none],
      ['#', 'c']) := by decide +kernel
  obtain ⟨s, hs, hlast⟩ := run_of_parseEnd hend
  obtain ⟨-, x, front, -, -, hconsumed⟩ := Script.of_run (run_unlimited hs)
  have hblank : x.blank = ['#', 'c'] := hlast x (by rw [hconsumed, List.getLast?_concat]; rfl)
  have hboth := parse_reblanked hs hconsumed (by rw [hblank]; decide) (by decide : ['\t'] ≠ []) (by simp)
  exact ⟨_, s, front, x, hs, hconsumed, hblank, hboth⟩

end ShellGrammar
