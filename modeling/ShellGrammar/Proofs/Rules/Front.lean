import ShellGrammar.Proofs.Comments

/-! The text in front of a reader.

A token takes blank and then its own text from the front of what is left. `tokenAt_front`
says so as an equation between texts: which rule takes the token depends on what is behind
the blank alone. -/
namespace ShellGrammar.Rules

variable {rules : Rules} {place : Scan} {t : Token}

/-- Behind a comment stands a newline or nothing. -/
theorem drop_comment (r : Text) :
    commentLength r = 0 ∨ r.drop (commentLength r) = [] ∨
      ∃ more, r.drop (commentLength r) = '\n' :: more := by
  cases r with
  | nil => exact .inl rfl
  | cons c r =>
    by_cases hc : c = '#'
    · subst hc
      right
      have hlength : commentLength ('#' :: r) =
          Pattern.covered (Pattern.noneOf ['\n']).reach 0 r + 1 := by
        simp [commentLength, comment, Pattern.reach, List.isPrefixOf, Nat.add_comm]
      rw [hlength, List.drop_succ_cons]
      exact drop_line r
    · left
      simp [commentLength, comment, Pattern.reach, List.isPrefixOf, Ne.symm hc]

/-- Behind a comment stands a newline or the end of the source. -/
theorem kind_of_comment (h : rules.tokenAt place = .ok t)
    (hskip : rules.skipLength place ≠ rules.blankLength place.rest) :
    t.kind = .eos ∨ t.kind = .newline := by
  simp only [skipLength] at hskip
  split at hskip
  case isFalse => exact absurd rfl hskip
  case isTrue hcomments =>
    have hcommand : rules = .command := by
      cases rules with
      | command => rfl
      | _ => cases (Bool.and_eq_true_iff.mp hcomments).1
    have hdrop : place.rest.drop (rules.skipLength place) =
        (place.rest.drop (rules.blankLength place.rest)).drop
          (commentLength (place.rest.drop (rules.blankLength place.rest))) := by
      simp only [skipLength, hcomments, if_true, List.drop_drop]
    obtain hzero | hnil | ⟨more, hmore⟩ :=
      drop_comment (place.rest.drop (rules.blankLength place.rest))
    · rw [hzero] at hskip
      exact absurd rfl hskip
    · obtain ⟨_, rfl⟩ | ⟨kind, length, hfit, rfl⟩ := tokenAt_cases h
      · exact .inl rfl
      · rw [hdrop, hnil, hcommand] at hfit
        cases hfit
    · obtain ⟨hrest, _⟩ | ⟨kind, length, hfit, rfl⟩ := tokenAt_cases h
      · rw [hdrop, hmore] at hrest
        cases hrest
      · rw [hdrop, hmore, hcommand] at hfit
        have hnewline : firstFit command.set.rules ('\n' :: more) = some (.newline, 1) := rfl
        rw [hnewline] at hfit
        cases hfit
        exact .inr rfl

/-- What is left is the blank of the next token, its text, and what is behind it. -/
theorem tokenAt_front (h : rules.tokenAt place = .ok t) :
    place.rest = t.blank ++ (t.body ++ t.after.rest) := by
  obtain ⟨rfl, hfits⟩ := tokenAt_fits h
  rw [Token.rest_origin hfits, Token.text, List.append_assoc]

/-- Behind what is skipped stands the token. -/
theorem skipped_of_tokenAt (h : rules.tokenAt place = .ok t) :
    place.rest.drop (rules.skipLength place) = t.body ++ t.after.rest := by
  have hfront := tokenAt_front h
  rw [← List.take_append_drop (rules.skipLength place) place.rest, ← blank_of_tokenAt h] at hfront
  exact List.append_cancel_left hfront

/-- The blank of a token that no comment can stand in front of is all the blank there is. -/
theorem tokenAt_blank (h : rules.tokenAt place = .ok t) (heos : t.kind ≠ .eos)
    (hnewline : t.kind ≠ .newline) :
    t.blank = place.rest.take (rules.blankLength place.rest) ∧
      place.rest.drop (rules.blankLength place.rest) = t.body ++ t.after.rest := by
  have hskip : rules.skipLength place = rules.blankLength place.rest := by
    by_cases heq : rules.skipLength place = rules.blankLength place.rest
    · exact heq
    · rcases kind_of_comment h heq with hk | hk
      · exact absurd hk heos
      · exact absurd hk hnewline
  rw [← hskip]
  exact ⟨blank_of_tokenAt h, skipped_of_tokenAt h⟩

end ShellGrammar.Rules
