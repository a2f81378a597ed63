import ShellGrammar.Proofs.Rules.Ahead
import ShellGrammar.Proofs.Rules.Front

/-! What is read inside what will be closed.

Where something in a text is still to be closed, what is behind the text makes little
difference to what is read. A rule that takes no closer does not get past the next one, and
the rules that do are one character long, end with a quote, or take bare text. So the same
token is read with a `tail` behind the text and without, except where bare text or a
comment reaches the end of the text and goes on in the tail (`tokenAt_inside`). The tail is
taken to hold nothing that ends a comment or a quoted string, and nothing that escapes. -/
namespace ShellGrammar

/-! ### Closers -/

namespace Rules

/-- The characters that close what is open. -/
def closers : Text := ['"', '}', ')', '`']

theorem closers_bounds {x : Char} (hx : x ∈ closers) : x ∈ bounds := by
  have hsubset : closers ⊆ bounds := by decide
  exact hsubset hx

end Rules

open Rules

namespace Text

/-- Something in a text closes. -/
def Open (t : Text) : Prop := ∃ ch ∈ closers, ch ∈ t

/-- Whether a text holds no newline, quote or backslash. -/
def isInert (t : Text) : Bool := t.all fun ch => !(['\n', '\'', '\\'].contains ch)

variable {t u tail : Text}

theorem Open.of_suffix (h : u.Open) (hs : u <:+ t) : t.Open := by
  obtain ⟨ch, hcloser, hmem⟩ := h
  exact ⟨ch, hcloser, hs.subset hmem⟩

theorem not_open_nil : ¬ Open [] := fun ⟨_, _, hmem⟩ => nomatch hmem

theorem Open.ne_nil (h : t.Open) : t ≠ [] := by
  rintro rfl
  exact not_open_nil h

/-- A text that something closes in is something else, the closer, and the rest. -/
theorem Open.split (h : t.Open) : ∃ ch ∈ closers, ∃ front back, t = front ++ ch :: back := by
  obtain ⟨ch, hcloser, hmem⟩ := h
  obtain ⟨front, back, rfl⟩ := List.append_of_mem hmem
  exact ⟨ch, hcloser, front, back, rfl⟩

theorem not_open_of_edge {taken : Bool} (h : Pattern.Edge taken t) : ¬ t.Open := by
  rintro ⟨ch, hcloser, hmem⟩
  obtain rfl | ⟨rfl, _⟩ := h
  · rw [List.mem_singleton] at hmem
    subst hmem
    exact absurd hcloser (by decide)
  · cases hmem

theorem not_open_of_barren (h : t.isBarren = true) : ¬ t.Open := by
  rintro ⟨ch, hcloser, hmem⟩
  have hbarren := List.all_eq_true.mp h ch hmem
  simp only [closers, List.mem_cons, List.not_mem_nil, or_false] at hcloser
  rcases hcloser with rfl | rfl | rfl | rfl <;> cases hbarren

theorem not_open_of_name (h : t.isVariableName = true) : ¬ t.Open := by
  rintro ⟨ch, hcloser, hmem⟩
  have hrest := Text.isNameRest_of_mem h hmem
  simp only [closers, List.mem_cons, List.not_mem_nil, or_false] at hcloser
  rcases hcloser with rfl | rfl | rfl | rfl <;> cases hrest

theorem not_mem_of_inert (h : tail.isInert = true) {ch : Char} (hch : ch ∈ ['\n', '\'', '\\']) :
    ch ∉ tail := by
  intro hmem
  have hno := List.all_eq_true.mp h ch hmem
  rw [List.contains_iff_mem.mpr hch] at hno
  cases hno

/-- A closer is in one part of a text or in the other. -/
theorem open_append : Open (t ++ u) ↔ t.Open ∨ u.Open := by
  simp only [Open, List.mem_append]
  constructor
  · rintro ⟨ch, hcloser, hmem | hmem⟩
    · exact .inl ⟨ch, hcloser, hmem⟩
    · exact .inr ⟨ch, hcloser, hmem⟩
  · rintro (⟨ch, hcloser, hmem⟩ | ⟨ch, hcloser, hmem⟩)
    · exact ⟨ch, hcloser, .inl hmem⟩
    · exact ⟨ch, hcloser, .inr hmem⟩

end Text

/-- A text that starts with a closer and ends nothing else. -/
structure Rules.Closes (x : Char) (more : Text) : Prop where
  closer : x ∈ closers
  inert : Text.isInert (x :: more) = true

/-! ### What rules take -/

namespace Pattern
variable {p : Pattern} {t : Text}

/-- What takes no closer stops in front of one, whatever is behind it. -/
theorem reach_inside (h : ∀ ch ∈ closers, p.avoids ch = true) (ht : t.Open) (tail : Text) :
    p.reach (t ++ tail) = p.reach t := by
  obtain ⟨ch, hcloser, front, back, rfl⟩ := ht.split
  rw [List.append_assoc, List.cons_append, steady_of_avoids (h ch hcloser) front _ id,
    steady_of_avoids (h ch hcloser) front _ id]

/-- A single quote starts a quoted string if there is another. -/
theorem reach_singleQuoted_none (u : Text) :
    Rules.singleQuoted.pattern.reach ('\'' :: u) = none ↔ '\'' ∉ u := by
  have hreach : Rules.singleQuoted.pattern.reach ('\'' :: u) =
      if ['\''].isPrefixOf (u.drop (covered (noneOf ['\'']).reach 0 u)) then
        some (1 + (covered (noneOf ['\'']).reach 0 u + 1)) else none := by
    simp only [Rules.singleQuoted, reach, List.isPrefixOf, BEq.rfl, Bool.true_and, if_true,
      Option.bind_eq_bind, Option.bind_some, List.length_singleton, List.drop_succ_cons,
      List.drop_zero, Option.pure_def]
    split <;> rfl
  obtain ⟨hno, hnil⟩ | ⟨more, hquote⟩ := drop_noneOf '\'' u
  · simp [hreach, hnil, hno]
  · have hmem : '\'' ∈ u.drop (covered (noneOf ['\'']).reach 0 u) := hquote ▸ List.mem_cons_self
    simp [hreach, hquote, List.mem_of_mem_drop hmem]

/-- A quoted string ends in the text if it ends. -/
theorem reach_singleQuoted_inert (ht : t ≠ []) {tail : Text} (htail : tail.isInert = true) :
    Rules.singleQuoted.pattern.reach (t ++ tail) = Rules.singleQuoted.pattern.reach t := by
  cases hfound : Rules.singleQuoted.pattern.reach t with
  | some n => exact reach_singleQuoted_append hfound tail
  | none =>
    obtain ⟨c, r, rfl⟩ := List.exists_cons_of_ne_nil ht
    by_cases hc : c = '\''
    · subst hc
      rw [reach_singleQuoted_none] at hfound
      rw [List.cons_append, reach_singleQuoted_none, List.mem_append, not_or]
      exact ⟨hfound, Text.not_mem_of_inert htail (by decide)⟩
    · have hfront : ('\'' == c) = false := beq_eq_false_iff_ne.mpr (Ne.symm hc)
      simp [Rules.singleQuoted, reach, List.isPrefixOf, hfront]

end Pattern

namespace Rules
variable {rules : Rules} {t tail : Text}

/-- No blank holds a closer. -/
theorem blank_avoids {p : Pattern} (hsome : rules.set.blank = some p) {ch : Char} (hch : ch ∈ closers) :
    p.avoids ch = true := by
  simp only [closers, List.mem_cons, List.not_mem_nil, or_false] at hch
  cases rules with
  | command | param | arith =>
    cases hsome
    rcases hch with rfl | rfl | rfl | rfl <;> rfl
  | doubleQuote | wordUntilBrace | wordUntilSlash => cases hsome

theorem blankLength_inside (rules : Rules) (ht : t.Open) (tail : Text) :
    rules.blankLength (t ++ tail) = rules.blankLength t := by
  simp only [blankLength]
  cases hblank : rules.set.blank with
  | none => rfl
  | some p =>
    simp only [Option.bind_some, Pattern.reach_inside (fun _ => blank_avoids hblank) ht]

theorem open_behind_blank (rules : Rules) (ht : t.Open) :
    Text.Open (t.drop (rules.blankLength t)) := by
  rw [← List.take_append_drop (rules.blankLength t) t, Text.open_append] at ht
  exact ht.resolve_left (Text.not_open_of_barren (isBarren_blank rules t))

/-- A comment stops in front of a newline, or goes through the tail too. -/
theorem commentLength_inert (ht : t ≠ []) (htail : tail.isInert = true) :
    (commentLength (t ++ tail) = commentLength t ∧
        (t.drop (commentLength t) = [] → commentLength t = 0)) ∨
      (t.drop (commentLength t) = [] ∧ 0 < commentLength t ∧
        (t ++ tail).drop (commentLength (t ++ tail)) = [] ∧ 0 < commentLength (t ++ tail)) := by
  have hlength : ∀ u, commentLength ('#' :: u) =
      Pattern.covered (Pattern.noneOf ['\n']).reach 0 u + 1 := by
    intro u
    simp [commentLength, comment, Pattern.reach, List.isPrefixOf, Nat.add_comm]
  obtain ⟨c, r, rfl⟩ := List.exists_cons_of_ne_nil ht
  by_cases hc : c = '#'
  · subst hc
    rw [List.cons_append, hlength, hlength, List.drop_succ_cons, List.drop_succ_cons]
    obtain ⟨hno, hnil⟩ | ⟨more, hmore⟩ := Pattern.drop_noneOf '\n' r
    · right
      refine ⟨hnil, Nat.succ_pos _, ?_, Nat.succ_pos _⟩
      obtain ⟨_, hnil'⟩ | ⟨more, hmore⟩ := Pattern.drop_noneOf '\n' (r ++ tail)
      · exact hnil'
      · have hmem : '\n' ∈ r ++ tail := List.mem_of_mem_drop (hmore ▸ List.mem_cons_self)
        rcases List.mem_append.mp hmem with hmem | hmem
        · exact absurd hmem hno
        · exact absurd hmem (Text.not_mem_of_inert htail (by decide))
    · left
      have hstop : r.drop (Pattern.covered (Pattern.noneOf ['\n']).reach 0 r) ≠ [] := by
        rw [hmore]
        exact List.cons_ne_nil _ _
      refine ⟨?_, fun hnil => absurd hnil hstop⟩
      rw [Pattern.noneOf, Pattern.covered_one_append _ r hstop]
  · left
    simp [commentLength, comment, Pattern.reach, List.isPrefixOf, Ne.symm hc]

/-- A table cuts the same off both texts, or bare text up to the end of one and more off the
other. -/
theorem firstFit_inside (rules : Rules) (ht : t.Open) (htail : tail.isInert = true) :
    firstFit rules.set.rules (t ++ tail) = firstFit rules.set.rules t ∨
      ∃ n n', firstFit rules.set.rules t = some (.str, n) ∧
        firstFit rules.set.rules (t ++ tail) = some (.str, n') ∧ n < n' ∧
        ∃ taken, Pattern.Edge taken (t.drop n) := by
  cases tail with
  | nil =>
    left
    rw [List.append_nil]
  | cons x more =>
    have hx : x ≠ '\\' := by
      rintro rfl
      exact Text.not_mem_of_inert htail (by decide) List.mem_cons_self
    have hsettled : ∀ r ∈ rules.set.rules, Settled x (rules.text x) t more r := by
      intro r hr
      obtain ⟨ch, hcloser, front, back, hsplit⟩ := ht.split
      obtain havoids | hshort | rfl | ⟨rfl, _⟩ := rule_cases (closers_bounds hcloser) hr
      · refine settled_of_reach ?_
        rw [hsplit, List.append_assoc, List.cons_append, Pattern.steady_of_avoids havoids front _ id,
          Pattern.steady_of_avoids havoids front _ id]
      · exact settled_of_reach (Pattern.reach_short hshort ht.ne_nil _)
      · exact settled_of_reach (Pattern.reach_singleQuoted_inert ht.ne_nil htail)
      · exact settled_run hx (fun hedge => Text.not_open_of_edge hedge ht) more
    obtain hsame | ⟨n, n', hn, hn', hlt, hedge⟩ := firstFit_settled hsettled
    · exact .inl hsame
    · exact .inr ⟨n, n', hn, hn', hlt, _, hedge⟩

end Rules

/-! ### Tokens -/

/-- Tokens that no question tells apart. -/
structure Token.Alike (t t' : Token) : Prop where
  kind : t'.kind = t.kind
  isAdjacent : t'.isAdjacent = t.isAdjacent
  bang : t'.body = ['!'] ↔ t.body = ['!']

namespace Token.Alike
variable {t t' t'' : Token}

theorem symm (h : t.Alike t') : t'.Alike t := ⟨h.kind.symm, h.isAdjacent.symm, h.bang.symm⟩

theorem trans (h : t.Alike t') (h' : t'.Alike t'') : t.Alike t'' :=
  ⟨h'.kind.trans h.kind, h'.isAdjacent.trans h.isAdjacent, h'.bang.trans h.bang⟩

theorem moved (t : Token) (place : Scan) : t.Alike (t.at place) := ⟨rfl, rfl, Iff.rfl⟩

end Token.Alike

namespace Scan

/-- Something that closes is still to come in front of a tail. -/
def OpenTo (tail : Text) (place : Scan) : Prop := ∃ t : Text, place.rest = t ++ tail ∧ t.Open

variable {rules : Rules} {tail : Text} {m a : Scan} {t : Token}

/-- Nothing closes in front of a tail that is all there is left. -/
theorem not_openTo_of_length {place : Scan} (h : place.rest.length ≤ tail.length) :
    ¬ place.OpenTo tail := by
  rintro ⟨u, hu, hopen⟩
  rw [hu, List.length_append] at h
  exact hopen.ne_nil (List.length_eq_zero_iff.mp (by omega))

theorem OpenTo.of_suffix {place place' : Scan} (h : place'.OpenTo tail)
    (hs : place'.rest <:+ place.rest) : place.OpenTo tail := by
  obtain ⟨u, hu, hopen⟩ := h
  obtain ⟨front, hfront⟩ := hs
  refine ⟨front ++ u, ?_, Text.open_append.mpr (.inr hopen)⟩
  rw [← hfront, hu, List.append_assoc]

namespace Ahead

theorem openTo (h : m.Ahead tail a) : a.OpenTo tail ↔ m.rest.Open := by
  constructor
  · rintro ⟨u, hu, hopen⟩
    rw [h.rest] at hu
    rwa [List.append_cancel_right hu]
  · intro hopen
    exact ⟨m.rest, h.rest, hopen⟩

/-- As much is skipped, up to something that can be read in front of the tail, or a comment
up to the end of both texts. -/
theorem skipLength_inside (h : m.Ahead tail a) (hopen : m.rest.Open) (htail : tail.isInert = true)
    (rules : Rules) :
    (rules.skipLength a = rules.skipLength m ∧
        (Text.Open (m.rest.drop (rules.skipLength m)) ∨
          (rules = .command ∧ ∃ more, m.rest.drop (rules.skipLength m) = '\n' :: more))) ∨
      (m.rest.drop (rules.skipLength m) = [] ∧ 0 < rules.skipLength m ∧
        a.rest.drop (rules.skipLength a) = [] ∧ 0 < rules.skipLength a) := by
  have hblank : rules.blankLength a.rest = rules.blankLength m.rest := by
    rw [h.rest, blankLength_inside rules hopen]
  have hdrop : a.rest.drop (rules.blankLength m.rest) =
      m.rest.drop (rules.blankLength m.rest) ++ tail := by
    rw [h.rest, List.drop_append_of_le_length (blankLength_le _ _)]
  have hbehind := open_behind_blank rules hopen
  simp only [skipLength, hblank, h.commentMayStart, hdrop]
  split
  · rename_i hcomments
    have hcommand : rules = .command := by
      cases rules with
      | command => rfl
      | _ => cases (Bool.and_eq_true_iff.mp hcomments).1
    obtain ⟨hsame, hzero⟩ | ⟨hnil, hpos, hnil', hpos'⟩ :=
      commentLength_inert hbehind.ne_nil htail
    · left
      rw [hsame, ← List.drop_drop]
      refine ⟨rfl, ?_⟩
      obtain hnone | hnil | hmore := drop_comment (m.rest.drop (rules.blankLength m.rest))
      · left
        rw [hnone]
        exact hbehind
      · left
        rw [hzero hnil]
        exact hbehind
      · exact .inr ⟨hcommand, hmore⟩
    · right
      refine ⟨?_, by omega, ?_, by omega⟩
      · rw [← List.drop_drop]
        exact hnil
      · rw [← List.drop_drop, hdrop]
        exact hnil'
  · exact .inl ⟨rfl, .inl hbehind⟩

end Ahead
end Scan

/-- What is read with a tail behind the text: the same, or bare text or a comment that goes
on up to where nothing is to be closed. -/
inductive Rules.Inside (rules : Rules) (tail : Text) (m a : Scan) : Prop where
  | same (h : (rules.tokenAt a).toOption = (rules.tokenAt m).toOption.map (·.at a))
  | alike {t t' : Token} (h : rules.tokenAt m = .ok t) (h' : rules.tokenAt a = .ok t')
      (alike : t.Alike t') (kind : t.kind = .str ∨ t.kind = .eos) (past : ¬ t.after.rest.Open)
      (past' : ¬ t'.after.OpenTo tail)

namespace Scan.Ahead
variable {rules : Rules} {tail : Text} {m a : Scan} {t : Token}

/-- Where as much is skipped and the table cuts off the same, the token is the same. -/
theorem tokenAt_of_same (h : m.Ahead tail a) (hskip : rules.skipLength a = rules.skipLength m)
    (hne : m.rest.drop (rules.skipLength m) ≠ [])
    (hfit : firstFit rules.set.rules (m.rest.drop (rules.skipLength m) ++ tail) =
      firstFit rules.set.rules (m.rest.drop (rules.skipLength m))) :
    (rules.tokenAt a).toOption = (rules.tokenAt m).toOption.map (·.at a) := by
  have hle := skipLength_le rules m
  have hdrop : a.rest.drop (rules.skipLength a) = m.rest.drop (rules.skipLength m) ++ tail := by
    rw [hskip, h.rest, List.drop_append_of_le_length hle]
  cases hfound : firstFit rules.set.rules (m.rest.drop (rules.skipLength m)) with
  | none =>
    obtain ⟨c, r, hcons⟩ := List.exists_cons_of_ne_nil hne
    rw [hfound, ← hdrop] at hfit
    rw [hcons, List.cons_append] at hdrop
    rw [hcons] at hfound
    rw [hdrop] at hfit
    simp only [tokenAt, hcons, hdrop, hfound, hfit]
    rfl
  | some f =>
    have hlength := (firstFit_bounds hfound).2
    rw [List.length_drop] at hlength
    rw [hfound, ← hdrop] at hfit
    rw [tokenAt_of_fit hfound, tokenAt_of_fit hfit, hskip,
      h.cut f.1 (show rules.skipLength m + f.2 ≤ _ by omega)]
    rfl

/-- Bare text that reaches the end of a text and goes on in the tail. -/
theorem inside_of_str (h : m.Ahead tail a) (hskip : rules.skipLength a = rules.skipLength m)
    (hopen : Text.Open (m.rest.drop (rules.skipLength m))) {n n' : Nat} (hlt : n < n')
    {taken : Bool} (hedge : Pattern.Edge taken ((m.rest.drop (rules.skipLength m)).drop n))
    (hn : firstFit rules.set.rules (m.rest.drop (rules.skipLength m)) = some (.str, n))
    (hn' : firstFit rules.set.rules (a.rest.drop (rules.skipLength a)) = some (.str, n')) :
    rules.Inside tail m a := by
  have hle := skipLength_le rules m
  have hdrop : a.rest.drop (rules.skipLength a) = m.rest.drop (rules.skipLength m) ++ tail := by
    rw [hskip, h.rest, List.drop_append_of_le_length hle]
  have hpast := Text.not_open_of_edge hedge
  have hbody : Text.Open ((m.rest.drop (rules.skipLength m)).take n) := by
    rw [← List.take_append_drop n (m.rest.drop (rules.skipLength m)), Text.open_append] at hopen
    exact hopen.resolve_right hpast
  have hbody' : Text.Open ((a.rest.drop (rules.skipLength a)).take n') := by
    obtain ⟨ch, hcloser, hmem⟩ := hbody
    refine ⟨ch, hcloser, ?_⟩
    have hfront : (m.rest.drop (rules.skipLength m)).take n <+:
        (a.rest.drop (rules.skipLength a)).take n' := by
      rw [hdrop, ← List.take_append_of_le_length (firstFit_bounds hn).2]
      exact List.take_prefix_take_left (Nat.le_of_lt hlt)
    exact hfront.subset hmem
  have hbang : ∀ {t : Text}, t.Open → t ≠ ['!'] := by
    rintro _ ⟨ch, hcloser, hmem⟩ rfl
    rw [List.mem_singleton] at hmem
    subst hmem
    exact absurd hcloser (by decide)
  refine .alike (tokenAt_of_fit hn) (tokenAt_of_fit hn') ⟨rfl, ?_, ?_⟩ (.inl rfl) ?_ ?_
  · simp only [Token.isAdjacent, Rules.cut, hskip, h.rest, List.take_append_of_le_length hle]
  · exact iff_of_false (hbang hbody') (hbang hbody)
  · rw [rest_after_cut hn]
    exact hpast
  · refine Scan.not_openTo_of_length ?_
    have hshort : ((m.rest.drop (rules.skipLength m)).drop n).length ≤ 1 := by
      obtain hslash | ⟨hnil, _⟩ := hedge
      · rw [hslash]
        exact Nat.le_refl 1
      · rw [hnil]
        exact Nat.zero_le 1
    rw [List.length_drop] at hshort
    rw [rest_after_cut hn', hdrop, List.length_drop, List.length_append]
    omega

theorem tokenAt_inside (h : m.Ahead tail a) (hopen : m.rest.Open) (htail : tail.isInert = true)
    (rules : Rules) : rules.Inside tail m a := by
  have hle := skipLength_le rules m
  obtain ⟨hskip, hthere⟩ | ⟨hnil, hpos, hnil', hpos'⟩ := h.skipLength_inside hopen htail rules
  · have hdrop : a.rest.drop (rules.skipLength a) =
        m.rest.drop (rules.skipLength m) ++ tail := by
      rw [hskip, h.rest, List.drop_append_of_le_length hle]
    have hsame : m.rest.drop (rules.skipLength m) ≠ [] →
        firstFit rules.set.rules (m.rest.drop (rules.skipLength m) ++ tail) =
          firstFit rules.set.rules (m.rest.drop (rules.skipLength m)) → rules.Inside tail m a :=
      fun hne hfit => .same (h.tokenAt_of_same hskip hne hfit)
    rcases hthere with hopen' | ⟨rfl, more, hmore⟩
    · obtain hfit | ⟨n, n', hn, hn', hlt, taken, hedge⟩ := firstFit_inside rules hopen' htail
      · exact hsame hopen'.ne_nil hfit
      · exact h.inside_of_str hskip hopen' hlt hedge hn (by rw [hdrop]; exact hn')
    · rw [hmore] at hsame
      exact hsame (List.cons_ne_nil _ _) rfl
  · have htoken : ∀ {place : Scan}, place.rest.drop (rules.skipLength place) = [] →
        rules.tokenAt place = .ok (Rules.cut .eos (rules.skipLength place) 0 place) := by
      intro place hplace
      simp only [tokenAt, hplace]
    have hblank : ∀ {place : Scan}, 0 < rules.skipLength place →
        (Rules.cut .eos (rules.skipLength place) 0 place).isAdjacent = false := by
      intro place hpos
      rw [Token.isAdjacent, List.isEmpty_eq_false_iff]
      intro hnil
      have hlength := congrArg List.length hnil
      rw [Rules.cut, List.length_take_of_le (skipLength_le rules place), List.length_nil] at hlength
      omega
    have hrest : ∀ {place : Scan}, place.rest.drop (rules.skipLength place) = [] →
        (Rules.cut .eos (rules.skipLength place) 0 place).after.rest = [] :=
      fun hplace => rest_after_eos (htoken hplace) rfl
    refine .alike (htoken hnil) (htoken hnil') ⟨rfl, ?_, ?_⟩ (.inr rfl) ?_ ?_
    · rw [hblank hpos, hblank hpos']
    · simp only [Rules.cut, List.take_zero]
    · rw [hrest hnil]
      exact Text.not_open_nil
    · refine Scan.not_openTo_of_length ?_
      rw [hrest hnil']
      exact Nat.zero_le _

/-! ### Shapes -/

/-- What a shape reaches behind the blank decides what is found. -/
theorem takeAt_eq (h : m.Ahead tail a)
    (hblank : rules.blankLength a.rest = rules.blankLength m.rest) {pattern : Pattern}
    (hreach : pattern.reach? (a.rest.drop (rules.blankLength m.rest)) =
      pattern.reach? (m.rest.drop (rules.blankLength m.rest))) (kind : Kind) (allowBlank : Bool) :
    rules.takeAt pattern kind allowBlank a =
      (rules.takeAt pattern kind allowBlank m).map (·.at a) := by
  have hle := blankLength_le rules m.rest
  simp only [Rules.takeAt, hblank, hreach]
  split
  · rfl
  · cases hfound : pattern.reach? (m.rest.drop (rules.blankLength m.rest)) with
    | none => rfl
    | some length =>
      have hlength := Pattern.reach_le (Pattern.reach?_eq_some_iff.mp hfound).1
      rw [List.length_drop] at hlength
      simp only [Option.map_some, h.cut kind (show rules.blankLength m.rest + length ≤ _ by omega)]

theorem blankLength_inside (h : m.Ahead tail a) (hopen : m.rest.Open) (rules : Rules) :
    rules.blankLength a.rest = rules.blankLength m.rest := by
  rw [h.rest, Rules.blankLength_inside rules hopen]

theorem drop_blank (h : m.Ahead tail a) (rules : Rules) :
    a.rest.drop (rules.blankLength m.rest) =
      m.rest.drop (rules.blankLength m.rest) ++ tail := by
  rw [h.rest, List.drop_append_of_le_length (blankLength_le _ _)]

/-- A shape that takes no closer is found alike. -/
theorem takeAt_inside (h : m.Ahead tail a) (hopen : m.rest.Open) {pattern : Pattern}
    (havoids : ∀ ch ∈ closers, pattern.avoids ch = true) (kind : Kind) (allowBlank : Bool) :
    rules.takeAt pattern kind allowBlank a =
      (rules.takeAt pattern kind allowBlank m).map (·.at a) := by
  refine h.takeAt_eq (h.blankLength_inside hopen rules) ?_ kind allowBlank
  rw [h.drop_blank rules, Pattern.reach?,
    Pattern.reach_inside havoids (open_behind_blank rules hopen)]
  rfl

/-- A fixed text that is there is there. -/
theorem takeAt_lit (h : m.Ahead tail a) (hopen : m.rest.Open) {l : Text} {kind : Kind}
    {allowBlank : Bool} (ht : rules.takeAt (.lit l) kind allowBlank m = some t) :
    rules.takeAt (.lit l) kind allowBlank a = some (t.at a) := by
  obtain ⟨length, hreach, _⟩ := takeAt_cases ht
  rw [h.takeAt_eq (h.blankLength_inside hopen rules) ?_ kind allowBlank, ht, Option.map_some]
  obtain ⟨hfound, hpos⟩ := Pattern.reach?_eq_some_iff.mp hreach
  rw [hreach, h.drop_blank rules, Pattern.reach?_eq_some_iff]
  refine ⟨?_, hpos⟩
  simp only [Pattern.reach, Option.ite_none_right_eq_some] at hfound ⊢
  refine ⟨?_, hfound.2⟩
  rw [List.isPrefixOf_iff_prefix] at hfound ⊢
  exact hfound.1.trans (List.prefix_append _ _)

/-- A fixed text that is there in front of the tail is there without the tail. -/
theorem takeAt_lit_front (h : m.Ahead tail a) (hopen : m.rest.Open) {l : Text} {kind : Kind}
    {allowBlank : Bool} (ht : rules.takeAt (.lit l) kind allowBlank a = some t)
    (hafter : tail <:+ t.after.rest) :
    ∃ u, rules.takeAt (.lit l) kind allowBlank m = some u ∧ t = u.at a := by
  obtain ⟨length, hreach, hcut⟩ := takeAt_cases ht
  obtain ⟨_, hmatches⟩ := takeAt_matches ht
  obtain ⟨horigin, hfits⟩ := takeAt_fits ht
  obtain ⟨back, hback⟩ := hafter
  have hblank := h.blankLength_inside hopen rules
  have hsplit : m.rest.drop (rules.blankLength m.rest) = l ++ back := by
    have hthere : a.rest = t.blank ++ (l ++ (back ++ tail)) := by
      rw [← horigin, Token.rest_origin hfits, Token.text, hmatches.of_lit, hback, List.append_assoc]
    have hfront : t.blank = a.rest.take (rules.blankLength m.rest) := by
      rw [hcut, hblank]
      rfl
    rw [← List.take_append_drop (rules.blankLength m.rest) a.rest, ← hfront] at hthere
    have hbehind := List.append_cancel_left hthere
    rw [h.drop_blank rules, ← List.append_assoc] at hbehind
    exact List.append_cancel_right hbehind
  have hpos : 0 < l.length := by
    obtain ⟨hlit, hpos⟩ := Pattern.reach?_eq_some_iff.mp hreach
    simp only [Pattern.reach, Option.ite_none_right_eq_some, Option.some.injEq] at hlit
    rwa [← hlit.2] at hpos
  have hfound : ∀ u, (Pattern.lit l).reach? (l ++ u) = some l.length := by
    intro u
    rw [Pattern.reach?_eq_some_iff]
    refine ⟨?_, hpos⟩
    simp [Pattern.reach]
  rw [h.takeAt_eq hblank ?_ kind allowBlank] at ht
  · obtain ⟨u, hu, rfl⟩ := Option.map_eq_some_iff.mp ht
    exact ⟨u, hu, rfl⟩
  · rw [h.drop_blank rules, hsplit, List.append_assoc, hfound, hfound]

end Scan.Ahead

end ShellGrammar
