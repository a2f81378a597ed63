import ShellGrammar.Proofs.Rules.Reblank

/-! Tokens that stay when something else stands behind them.

How much is cut off a text as a token depends on little of what stands behind the token. It is the
same in front of any blank or closer (`firstFit_bound`), and in words it is the same in front of any
text that starts with the same character (`firstFit_same`). So with other blank in front and such a
text behind, the same token is there (`tokenAt_kept`). -/
namespace ShellGrammar

namespace Pattern
variable {test : Char → Bool} {u v : Text} {c d : Char}

/-! ### The first character behind -/

theorem all_of_denotes (h : (many (one test)).Denotes u) : ∀ c ∈ u, test c = true := by
  generalize hmany : many (one test) = r at h
  induction h with
  | lit | one | seq | first | second | absent | present => cases hmany
  | stop => exact List.forall_mem_nil _
  | again hpiece _ _ ihmore =>
    cases hmany
    cases hpiece with
    | one hc => exact List.forall_mem_cons.mpr ⟨hc, ihmore rfl⟩

theorem denotes_of_all (h : ∀ c ∈ u, test c = true) : (many (one test)).Denotes u := by
  induction u with
  | nil => exact .stop
  | cons c u ih =>
    obtain ⟨hc, hu⟩ := List.forall_mem_cons.mp h
    exact .again (t := [c]) (.one hc) (ih hu)

/-- The front of what a repetition of single characters describes. -/
theorem denotes_many_front (h : (many (one test)).Denotes (u ++ v)) : (many (one test)).Denotes u :=
  denotes_of_all fun c hc => all_of_denotes h c (List.mem_append_left _ hc)

/-- The front of a name is a name. -/
theorem denotes_name_front (h : variableName.Denotes (u ++ v)) (hu : u ≠ []) :
    variableName.Denotes u := by
  obtain ⟨c, u, rfl⟩ := List.exists_cons_of_ne_nil hu
  generalize ht : c :: u ++ v = t at h
  cases h with
  | seq hfirst hmore =>
    cases hfirst with
    | one hc =>
      obtain ⟨rfl, rfl⟩ := List.cons.inj ht
      exact .seq (t := [c]) (.one hc) (denotes_many_front hmore)

/-- What a `$` goes on with, it goes on with from its first character on. -/
theorem denotes_dollarName_front (h : Rules.dollarName.Denotes (u ++ d :: v)) (hu : u ≠ [])
    (hv : v ≠ []) : Rules.dollarName.Denotes (u ++ [d]) := by
  obtain ⟨c, u, rfl⟩ := List.exists_cons_of_ne_nil hu
  generalize ht : c :: u ++ d :: v = t at h
  have hlong : 1 < (u ++ d :: v).length := by
    have := List.length_pos_iff.mpr hv
    rw [List.length_append, List.length_cons]
    omega
  cases h with
  | seq hdollar hname =>
    cases hdollar
    rw [List.cons_append, List.cons_append, List.nil_append] at ht
    obtain ⟨rfl, rfl⟩ := List.cons.inj ht
    refine .seq (t := ['$']) (.lit _) (.first ?_)
    cases hname with
    | first hname =>
      rw [List.append_cons] at hname
      exact denotes_name_front hname (List.append_ne_nil_of_right_ne_nil _ (List.cons_ne_nil _ _))
    | second hname =>
      cases hname with
      | first hone =>
        rw [length_of_short rfl hone] at hlong
        omega
      | second hone =>
        rw [length_of_short rfl hone] at hlong
        omega

/-- Bare text in front of a backslash is bare text, or it ends in a backslash itself. -/
theorem denotes_run_slash (h : (many (runPiece test)).Denotes (u ++ '\\' :: v)) :
    (many (runPiece test)).Denotes u ∨
      ∃ front, u = front ++ ['\\'] ∧ (many (runPiece test)).Denotes front := by
  generalize hmany : many (runPiece test) = r at h
  generalize ht : u ++ '\\' :: v = t at h
  induction h generalizing u with
  | lit | one | seq | first | second | absent | present => cases hmany
  | stop => cases u <;> cases ht
  | @again _ first more hfirst _ _ ihmore =>
    cases hmany
    cases u with
    | nil => exact .inl .stop
    | cons e u =>
      obtain ⟨d, rfl, hd, hslash⟩ | ⟨d, rfl⟩ := denotes_runPiece hfirst
      · obtain ⟨rfl, ht'⟩ := List.cons.inj ht
        obtain hu | ⟨front, rfl, hfront⟩ := ihmore rfl ht'
        · exact .inl (.again hfirst hu)
        · exact .inr ⟨e :: front, rfl, .again hfirst hfront⟩
      · cases u with
        | nil =>
          obtain ⟨rfl, -⟩ := List.cons.inj ht
          exact .inr ⟨[], rfl, .stop⟩
        | cons e' u =>
          simp only [List.cons_append, List.nil_append, List.cons.injEq] at ht
          obtain ⟨rfl, rfl, ht'⟩ := ht
          obtain hu | ⟨front, rfl, hfront⟩ := ihmore rfl ht'
          · exact .inl (.again hfirst hu)
          · exact .inr ⟨_ :: _ :: front, rfl, .again hfirst hfront⟩

/-- Bare text that does not go on with a character goes on with no text that starts with it. Where the
character is a backslash, it must not go on with that and a second one either. -/
theorem not_denotes_run (hu : u ≠ []) (hnext : ¬ (Pattern.run test).Denotes (u ++ [d]))
    (hpair : d = '\\' → ∃ e, ¬ (Pattern.run test).Denotes (u ++ ['\\', e])) :
    ¬ (Pattern.run test).Denotes (u ++ d :: v) := by
  intro hdenotes
  have hne : ∀ {z : Text}, u ++ z ≠ [] := List.append_ne_nil_of_left_ne_nil hu _
  have hrun : ∀ {z : Text}, (many (runPiece test)).Denotes (u ++ z) → (Pattern.run test).Denotes (u ++ z) :=
    (denotes_run_iff hne).mpr
  have hwhole := (denotes_run_iff hne).mp hdenotes
  by_cases hd : d = '\\'
  · subst hd
    obtain ⟨e, hpair⟩ := hpair rfl
    obtain hmany | ⟨front, hfront, hmany⟩ := denotes_run_slash hwhole
    · exact hpair (hrun (denotes_many_append hmany (denotes_many_one (denotes_escaped _ e))))
    · refine hnext (hrun ?_)
      rw [hfront, List.append_assoc]
      exact denotes_many_append hmany (denotes_many_one (denotes_escaped _ '\\'))
  · obtain ⟨htest, hmany⟩ | ⟨front, hfront, hmany⟩ := denotes_run_split hd hwhole
    · exact hnext (hrun (denotes_many_append hmany (denotes_many_one (denotes_char htest hd))))
    · refine hnext (hrun ?_)
      rw [hfront, List.append_assoc]
      exact denotes_many_append hmany (denotes_many_one (denotes_escaped _ d))

/-- A quoted string starts with its quote. -/
theorem head?_of_quoted (hu : u ≠ []) (h : Rules.singleQuoted.pattern.Denotes (u ++ v)) :
    u.head? = some '\'' := by
  obtain ⟨c, u, rfl⟩ := List.exists_cons_of_ne_nil hu
  obtain ⟨q, hq, -⟩ := denotes_singleQuoted h
  rw [(List.cons.inj hq).1]
  rfl

/-- A quoted string goes no further than its quote. -/
theorem not_denotes_quoted (hu : ∃ q : Text, u = '\'' :: (q ++ ['\''])) (hv : v ≠ []) :
    ¬ Rules.singleQuoted.pattern.Denotes (u ++ v) := by
  intro h
  obtain ⟨q, rfl⟩ := hu
  obtain ⟨q', hq', hno⟩ := denotes_singleQuoted h
  have hsame := congrArg List.dropLast (List.cons.inj hq').2
  rw [List.dropLast_concat, List.append_eq, List.dropLast_append_of_ne_nil hv] at hsame
  exact hno (hsame ▸ List.mem_append_left _ (List.mem_append_right _ (List.mem_singleton_self _)))

/-- What stands in front of the last character of the opener of arithmetic. -/
theorem front_of_arithOpener (hu : u ≠ []) (hv : v ≠ []) (h : u ++ d :: v = ['$', '(', '(']) :
    u ++ [d] = ['$', '('] := by
  obtain ⟨c, u, rfl⟩ := List.exists_cons_of_ne_nil hu
  obtain ⟨e, v, rfl⟩ := List.exists_cons_of_ne_nil hv
  cases u with
  | nil =>
    simp only [List.cons_append, List.nil_append, List.cons.injEq] at h ⊢
    exact ⟨h.1, h.2.1, trivial⟩
  | cons c' u =>
    have := congrArg List.length h
    simp only [List.length_append, List.length_cons, List.length_nil] at this
    omega

end Pattern

namespace Rules
open Pattern
variable {rules : Rules} {kind : Kind} {body old new : Text} {x c : Char}

/-! ### What is cut off -/

/-- What is cut off the front of a text is cut off where nothing stands behind it. -/
theorem firstFit_end (h : firstFit rules.set.rules (body ++ old) = some (kind, body.length)) :
    firstFit rules.set.rules body = some (kind, body.length) := by
  have hnil : firstFit rules.set.rules (body ++ []) = some (kind, body.length) :=
    firstFit_of_longest h fun _ _ _ hne hfront _ => hne (List.prefix_nil.mp hfront)
  rwa [List.append_nil] at hnil

/-- It is cut off in front of what no longer token goes on with. -/
theorem firstFit_bound (hx : x ∈ bounds) (htext : rules.text x = false)
    (h : firstFit rules.set.rules (body ++ old) = some (kind, body.length)) :
    firstFit rules.set.rules (body ++ x :: new) = some (kind, body.length) := by
  have hend := firstFit_end h
  have hbody : body ≠ [] := List.ne_nil_of_length_pos (firstFit_pos h)
  obtain hsame | ⟨-, hedge, -⟩ := firstFit_behind hx hbody hend new
  · exact hsame
  · obtain hslash | ⟨-, hyes⟩ := hedge
    · rw [List.drop_length] at hslash
      cases hslash
    · rw [htext] at hyes
      cases hyes

/-- Among commands, it is cut off in front of a `&`, if it is no operator that goes on with it. -/
theorem firstFit_amp (hamp : kind ≠ .amp) (hpipe : kind ≠ .pipe) (hold : old ≠ [])
    (h : firstFit command.set.rules (body ++ old) = some (kind, body.length)) :
    firstFit command.set.rules (body ++ '&' :: new) = some (kind, body.length) := by
  have hend := firstFit_end h
  refine firstFit_seam (v := []) (w := old) ⟨by decide, fun _ => hold, fun _ _ => ⟨?_, ?_⟩, ?_⟩ h
  · rintro rfl
    cases hend
    exact hamp rfl
  · rintro rfl
    cases hend
    exact hpipe rfl
  · intro _ hyes
    cases hyes

/-- The rule sets of words. -/
def isWordy (rules : Rules) : Bool := rules != .param && rules != .arith

/-- The rules of words. -/
theorem rule_of_wordy (hrules : rules.isWordy = true) {r : Rule} (hr : r ∈ rules.set.rules) :
    (∃ l, r.pattern = .lit l ∧ l.length ≤ 2) ∨ r.pattern = .lit ['$', '(', '('] ∨ r.pattern = dollarName ∨
      r = singleQuoted ∨ r = ⟨.run rules.text, .str⟩ := by
  revert r
  cases rules with
  | param | arith => cases hrules
  | command | doubleQuote | wordUntilBrace | wordUntilSlash =>
    simp [set, commandRules, doubleQuoteRules, wordUntilBraceRules, wordUntilSlashRules, expansions,
      singleQuoted, loneDollar, textUntil, text]

theorem dollarParen_mem (hrules : rules.isWordy = true) :
    ⟨.lit ['$', '('], .dollarParen⟩ ∈ rules.set.rules := by
  cases rules with
  | param | arith => cases hrules
  | command | doubleQuote | wordUntilBrace | wordUntilSlash =>
    simp [set, commandRules, doubleQuoteRules, wordUntilBraceRules, wordUntilSlashRules, expansions]

/-- In words, it is cut off in front of any text that starts with the same character. -/
theorem firstFit_same (hrules : rules.isWordy = true) (hslash : c = '\\' → old ≠ [])
    (h : firstFit rules.set.rules (body ++ c :: old) = some (kind, body.length)) :
    firstFit rules.set.rules (body ++ c :: new) = some (kind, body.length) := by
  have hbody : body ≠ [] := List.ne_nil_of_length_pos (firstFit_pos h)
  have hmax : ∀ r ∈ rules.set.rules, ∀ z, z ≠ [] → z <+: c :: old → ¬ r.pattern.Denotes (body ++ z) := by
    intro r hr z hz hfront hdenotes
    have hle := firstFit_longest (fun _ => greedy_of_mem) (before_rules rules) h hr hdenotes
      ((List.prefix_append_right_inj body).mpr hfront)
    rw [List.length_append] at hle
    exact hz (List.eq_nil_of_length_eq_zero (by omega))
  have hnext : ∀ r ∈ rules.set.rules, ¬ r.pattern.Denotes (body ++ [c]) :=
    fun r hr => hmax r hr [c] (List.cons_ne_nil _ _) ⟨old, rfl⟩
  refine firstFit_of_longest h fun r hr z hz hfront hdenotes => ?_
  obtain ⟨d, z, rfl⟩ := List.exists_cons_of_ne_nil hz
  obtain ⟨rest, hrest⟩ := hfront
  obtain ⟨rfl, -⟩ := List.cons.inj hrest
  by_cases hz : z = []
  · subst hz
    exact hnext r hr hdenotes
  obtain ⟨l, hlit, hshort⟩ | hlit | hname | rfl | rfl := rule_of_wordy hrules hr
  · rw [hlit] at hdenotes
    rw [← denotes_lit hdenotes, List.length_append, List.length_cons] at hshort
    have := List.length_pos_iff.mpr hbody
    have := List.length_pos_iff.mpr hz
    omega
  · rw [hlit] at hdenotes
    refine hnext _ (dollarParen_mem hrules) ?_
    rw [front_of_arithOpener hbody hz (denotes_lit hdenotes)]
    exact .lit _
  · rw [hname] at hdenotes
    exact hnext r hr (hname ▸ denotes_dollarName_front hdenotes hbody hz)
  · exact not_denotes_quoted (quoted_of_firstFit hr h (head?_of_quoted hbody hdenotes)) (List.cons_ne_nil _ _)
      hdenotes
  · refine not_denotes_run hbody (hnext _ hr) (fun hd => ?_) hdenotes
    obtain ⟨e, old, rfl⟩ := List.exists_cons_of_ne_nil (hslash hd)
    exact ⟨e, hmax _ hr ['\\', e] (List.cons_ne_nil _ _) ⟨old, by rw [hd]; rfl⟩⟩

/-- What is cut off in front of one text is cut off in front of another, but for the operators that
a `&` makes longer. -/
def Keeps (rules : Rules) (old new : Text) : Prop :=
  ∀ (kind : Kind) (body : Text), kind ≠ .amp → kind ≠ .pipe →
    firstFit rules.set.rules (body ++ old) = some (kind, body.length) →
      firstFit rules.set.rules (body ++ new) = some (kind, body.length)

theorem keeps_nil : rules.Keeps old [] := by
  intro kind body _ _ h
  rw [List.append_nil]
  exact firstFit_end h

theorem keeps_bound (hx : x ∈ bounds) (htext : rules.text x = false) : rules.Keeps old (x :: new) :=
  fun _ _ _ _ h => firstFit_bound hx htext h

theorem keeps_amp (hold : old ≠ []) : command.Keeps old ('&' :: new) :=
  fun _ _ hamp hpipe h => firstFit_amp hamp hpipe hold h

theorem keeps_same (hrules : rules.isWordy = true) (hslash : c = '\\' → old ≠ []) :
    rules.Keeps (c :: old) (c :: new) :=
  fun _ _ _ _ h => firstFit_same hrules hslash h

/-! ### Tokens -/

section Tokens
variable {a b : Scan} {t : Token} {gap rest : Text}

/-- The text of a token is cut off in front of what is left behind it. -/
theorem fit_of_tokenAt (ht : rules.tokenAt a = .ok t) (hbody : t.body ≠ []) :
    firstFit rules.set.rules (t.body ++ t.after.rest) = some (t.kind, t.body.length) := by
  obtain ⟨-, rfl⟩ | ⟨kind, length, hfit, rfl⟩ := tokenAt_cases ht
  · exact absurd rfl hbody
  · obtain ⟨-, hlength⟩ := length_cut kind hfit
    rw [← skipped_of_tokenAt ht, hlength]
    exact hfit

/-- What is skipped ends in front of the token. -/
theorem blankLength_of_tokenAt (ht : rules.tokenAt a = .ok t) :
    rules.blankLength (t.body ++ t.after.rest) = 0 := by
  rw [← skipped_of_tokenAt ht]
  by_cases hskip : rules.skipLength a = 0
  · have hle := blankLength_le_skipLength rules a
    rw [hskip, List.drop_zero]
    omega
  · exact (skipped_all hskip).1

/-- A token that starts like a comment stands where none may start. -/
theorem blank_of_sharp (ht : command.tokenAt a = .ok t) (hsharp : t.body.head? = some '#') :
    t.blank = [] ∧ commentMayStart 0 a = false := by
  obtain ⟨more, hmore⟩ := List.head?_eq_some_iff.mp hsharp
  have hdrop : a.rest.drop (command.skipLength a) = '#' :: (more ++ t.after.rest) := by
    rw [skipped_of_tokenAt ht, hmore]
    rfl
  obtain hskip | hcomment := command.skip_cases a
  · have hno : commentMayStart (command.blankLength a.rest) a = false := by
      refine Bool.eq_false_iff.mpr fun hmay => ?_
      have hlength : command.skipLength a = command.blankLength a.rest +
          commentLength (a.rest.drop (command.blankLength a.rest)) := by
        rw [skipLength, hmay]
        rfl
      rw [← hskip, hdrop, commentLength_cons] at hlength
      omega
    rw [commentMayStart, Bool.or_eq_false_iff, decide_eq_false_iff_not] at hno
    have hzero : command.blankLength a.rest = 0 := by omega
    refine ⟨?_, ?_⟩
    · rw [blank_of_tokenAt ht, hskip, hzero, List.take_zero]
    · rw [commentMayStart, hno.2]
      rfl
  · obtain hnil | ⟨_, hnewline⟩ := hcomment.behind
    · rw [hnil] at hdrop
      cases hdrop
    · rw [hnewline] at hdrop
      cases hdrop

/-- A token is there again behind a space or nothing, in front of what does not make it longer. No
comment starts in its place, if it does not start like one behind the space. -/
theorem tokenAt_kept (ht : rules.tokenAt a = .ok t) (hbody : t.body ≠ []) (hslash : t.body ≠ ['\\'])
    (hfit : firstFit rules.set.rules (t.body ++ rest) = some (t.kind, t.body.length))
    (hb : b.rest = gap ++ (t.body ++ rest)) (hgap : gap = [] ∨ gap = [' '] ∧ rules.set.blank ≠ none)
    (hmay : commentMayStart 0 b = commentMayStart 0 a)
    (hsharp : rules = .command → gap ≠ [] → t.body.head? ≠ some '#') :
    rules.tokenAt b = .ok (t.moved b gap) := by
  have hzero : rules.blankLength (t.body ++ rest) = 0 :=
    blankLength_seam hbody (fun h => hslash h.1) (blankLength_of_tokenAt ht)
  have hblank : rules.blankLength b.rest = gap.length := by
    rw [hb]
    obtain rfl | ⟨rfl, hrules⟩ := hgap
    · exact hzero
    · exact blankLength_append (blankLength_spaces hrules (by simp)) hzero
  have hskip : rules.skipLength b = gap.length := by
    rw [skipLength, hblank]
    split
    · rename_i hcomment
      obtain ⟨hcomments, hstart⟩ := Bool.and_eq_true_iff.mp hcomment
      have hcommand : rules = .command := by
        cases rules with
        | command => rfl
        | _ => cases hcomments
      obtain ⟨c, more, hcons⟩ := List.exists_cons_of_ne_nil hbody
      rw [hb, List.drop_left, hcons, List.cons_append]
      by_cases hc : c = '#'
      · -- Where the token starts like a comment none may start.
        have hhead : t.body.head? = some '#' := by rw [hcons, hc]; rfl
        obtain ⟨-, hno⟩ := blank_of_sharp (hcommand ▸ ht) hhead
        have hnil : gap = [] := Decidable.byContradiction fun hne => hsharp hcommand hne hhead
        rw [hnil, List.length_nil, hmay, hno] at hstart
        cases hstart
      · rw [commentLength_of_ne hc, Nat.add_zero]
    · rfl
  have hdrop : b.rest.drop (rules.skipLength b) = t.body ++ rest := by
    rw [hskip, hb, List.drop_left]
  rw [← hdrop] at hfit
  rw [tokenAt_of_fit hfit, cut, hdrop, List.take_left, hskip, hb, List.take_left]
  rfl

end Tokens

end Rules

end ShellGrammar
