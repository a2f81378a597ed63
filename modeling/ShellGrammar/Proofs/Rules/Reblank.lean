import ShellGrammar.Proofs.Rules.Front
import ShellGrammar.Proofs.Rules.Inside
import ShellGrammar.Proofs.Rules.Seam

/-! Other blank in place of blank.

What can be skipped at a place shows by its first character (`Scan.Skips`). In its place spaces
and tabs are skipped as well, by the rules that skipped what was there, and then the same token
stands behind them (`Rules.tokenAt_moved`). In front of it, neither the table nor a shape tells
the two texts apart: bare text that would go on over the new blank would have gone on over the
old one, and no shape takes blank. -/
namespace ShellGrammar

/-! ### Comments -/

/-- What is skipped and is not all blank is a comment among commands. It starts behind blank or
where a comment may start, and behind it stands a newline or nothing. -/
structure Rules.EndsInComment (rules : Rules) (place : Scan) : Prop where
  command : rules = .command
  lt : rules.blankLength place.rest < rules.skipLength place
  may : Rules.commentMayStart (rules.blankLength place.rest) place = true
  sharp : (place.rest.drop (rules.blankLength place.rest)).head? = some '#'
  behind : place.rest.drop (rules.skipLength place) = [] ∨
    ∃ more, place.rest.drop (rules.skipLength place) = '\n' :: more

theorem Rules.skip_cases (rules : Rules) (place : Scan) :
    rules.skipLength place = rules.blankLength place.rest ∨ rules.EndsInComment place := by
  by_cases hmay : (rules.set.comments && commentMayStart (rules.blankLength place.rest) place) = true
  · have hskip : rules.skipLength place = rules.blankLength place.rest +
        commentLength (place.rest.drop (rules.blankLength place.rest)) := by
      rw [skipLength, if_pos hmay]
    obtain ⟨hcomments, hmay⟩ := Bool.and_eq_true_iff.mp hmay
    obtain hzero | hbehind := drop_comment (place.rest.drop (rules.blankLength place.rest))
    · rw [hzero] at hskip
      exact .inl hskip
    by_cases hzero : commentLength (place.rest.drop (rules.blankLength place.rest)) = 0
    · rw [hzero] at hskip
      exact .inl hskip
    refine .inr ⟨?_, by omega, hmay, ?_, ?_⟩
    · cases rules with
      | command => rfl
      | _ => cases hcomments
    · cases hdrop : place.rest.drop (rules.blankLength place.rest) with
      | nil =>
        rw [hdrop] at hzero
        exact absurd rfl hzero
      | cons c r =>
        by_cases hc : c = '#'
        · rw [hc]
          rfl
        · rw [hdrop] at hzero
          exact absurd (commentLength_of_ne hc r) hzero
    · rwa [hskip, ← List.drop_drop]
  · exact .inl (by rw [skipLength, if_neg hmay])

/-! ### What can be skipped -/

/-- At a place starts something that can be skipped: blank, an escaped newline or a comment. -/
inductive Scan.Skips (place : Scan) : Prop
  | space {x : Char} (hx : x ∈ Rules.spaces) (h : place.rest.head? = some x)
  | escaped (h : ['\\', '\n'] <+: place.rest)
  | comment (h : place.rest.head? = some '#') (may : Rules.commentMayStart 0 place = true)

namespace Scan
open Pattern Rules
variable {place : Scan} {rules : Rules}

theorem skips_of_blankLength (h : rules.blankLength place.rest ≠ 0) : place.Skips := by
  obtain hnone | ⟨cs, hsome, hcs, hbarren, -⟩ := blank_eq rules
  · simp only [blankLength, hnone] at h
    exact absurd rfl h
  rw [blankLength_eq_covered rules hsome] at h
  by_cases hreach : ∃ n, (blankPiece cs).reach place.rest = some (n + 1)
  case neg => exact absurd (covered_of_not_reach fun n hn => hreach ⟨n, hn⟩) h
  obtain ⟨n, hn⟩ := hreach
  cases hrest : place.rest with
  | nil =>
    have := reach_le hn
    rw [hrest] at this
    cases this
  | cons c r =>
    rw [hrest] at hn
    simp only [blankPiece, reach, oneOf] at hn
    by_cases hc : cs.contains c = true
    · refine .space (x := c) ?_ (by rw [hrest]; rfl)
      have hmem := List.contains_iff_mem.mp hc
      have hblank := List.contains_iff_mem.mp (List.all_eq_true.mp hbarren c hmem)
      have hslash : c ≠ '\\' := fun heq => hcs (heq ▸ hmem)
      simpa [spaces, hslash] using hblank
    · simp only [hc, Bool.false_eq_true, if_false, Option.ite_none_right_eq_some] at hn
      exact .escaped (hrest ▸ List.isPrefixOf_iff_prefix.mp hn.1)

theorem skips_of_skipLength (h : rules.skipLength place ≠ 0) : place.Skips := by
  by_cases hblank : rules.blankLength place.rest = 0
  · obtain hskip | hcomment := rules.skip_cases place
    · exact absurd (hskip.trans hblank) h
    · have hsharp := hcomment.sharp
      have hmay := hcomment.may
      rw [hblank] at hsharp hmay
      exact .comment hsharp hmay
  · exact skips_of_blankLength hblank

/-- What can be skipped can be bare text wherever blank can. -/
theorem Skips.denotes (h : place.Skips) {x : Char} (hx : x = ' ' ∨ x = '\t')
    (htext : rules.text x = true) :
    ∃ u, u ≠ [] ∧ u <+: place.rest ∧ (many (runPiece rules.text)).Denotes u := by
  have hall : ('#' :: spaces).all rules.text = true := by
    cases rules with
    | doubleQuote | wordUntilBrace | wordUntilSlash => rfl
    | command | param | arith => rcases hx with rfl | rfl <;> cases htext
  have hone : ∀ c ∈ '#' :: spaces, place.rest.head? = some c →
      ∃ u, u ≠ [] ∧ u <+: place.rest ∧ (many (runPiece rules.text)).Denotes u := by
    intro c hc hhead
    obtain ⟨r, hr⟩ := List.head?_eq_some_iff.mp hhead
    refine ⟨[c], List.cons_ne_nil _ _, hr ▸ ⟨r, rfl⟩, denotes_many_one (denotes_char (List.all_eq_true.mp hall c hc) ?_)⟩
    rintro rfl
    exact absurd hc (by decide)
  cases h with
  | space hx h => exact hone _ (List.mem_cons_of_mem _ hx) h
  | escaped h => exact ⟨_, List.cons_ne_nil _ _, h, denotes_many_one (denotes_escaped _ _)⟩
  | comment h => exact hone _ List.mem_cons_self h

/-- The characters in front of which, or behind which, something can be skipped. -/
def edges : Text := [' ', '\t', '\n', '\\', ';', '|', '&', '(', ')', '`']

/-- A pattern that takes none of these takes nothing of what can be skipped, and the rest of the
text does not matter. -/
theorem Skips.reach (h : place.Skips) {p : Pattern} (hp : ∀ ch ∈ edges, p.avoids ch = true)
    {u : Text} (hu : u ≠ []) (hbefore : place.before.head? = u.getLast?) :
    p.reach (u ++ place.rest) = p.reach u := by
  have hone : ∀ c ∈ edges, place.rest.head? = some c → p.reach (u ++ place.rest) = p.reach u := by
    intro c hc hhead
    obtain ⟨r, hr⟩ := List.head?_eq_some_iff.mp hhead
    rw [hr, steady_of_avoids (hp c hc) u r id]
  cases h with
  | @space x hx h =>
    refine hone x ?_ h
    simp only [spaces, List.mem_cons, List.not_mem_nil, or_false] at hx
    rcases hx with rfl | rfl | rfl <;> decide
  | escaped h =>
    obtain ⟨r, hr⟩ := h
    exact hone '\\' (by decide) (by rw [← hr]; rfl)
  | comment h hmay =>
    -- In front of a comment stands something that ends a word, and that is not taken either.
    have hlast := List.getLast?_eq_some_getLast hu
    rw [hlast] at hbefore
    obtain ⟨front, hfront⟩ := List.getLast?_eq_some_iff.mp hlast
    generalize u.getLast hu = c at hbefore hfront
    subst hfront
    have hboundary : isBoundary c = true := by simpa [commentMayStart, hbefore] using hmay
    have hc : c ∈ edges := by
      have hmem := List.contains_iff_mem.mp hboundary
      simp only [List.mem_cons, List.not_mem_nil, or_false] at hmem
      rcases hmem with rfl | rfl | rfl | rfl | rfl | rfl | rfl <;> decide
    have hsteady := steady_of_avoids (hp c hc)
    rw [List.append_assoc, List.singleton_append, hsteady front _ id, hsteady front [] id]

end Scan

/-! ### Other blank -/

/-- The same token behind other blank, elsewhere. -/
def Token.moved (t : Token) (place : Scan) (blank : Text) : Token :=
  { t with origin := place, blank := blank }

namespace Rules
variable {rules : Rules} {a b : Scan} {t : Token} {blank more : Text}

theorem blankLength_spaces (hrules : rules.set.blank ≠ none) (h : ∀ ch ∈ blank, ch = ' ' ∨ ch = '\t') :
    rules.blankLength blank = blank.length := by
  obtain ⟨cs, hsome, hcs⟩ : ∃ cs : Text, rules.set.blank = some (blankOf cs) ∧
      ∀ ch, ch = ' ' ∨ ch = '\t' → cs.contains ch = true := by
    cases rules with
    | command | param | arith => exact ⟨_, rfl, by rintro ch (rfl | rfl) <;> rfl⟩
    | doubleQuote | wordUntilBrace | wordUntilSlash => exact absurd rfl hrules
  rw [blankLength_eq_covered rules hsome]
  induction blank with
  | nil => rfl
  | cons c u ih =>
    have hc := hcs c (h c List.mem_cons_self)
    have hreach : (blankPiece cs).reach (c :: u) = some (0 + 1) := by
      simp [blankPiece, Pattern.reach, Pattern.oneOf, List.contains_iff_mem.mp hc]
    rw [Pattern.covered_of_reach hreach, List.drop_succ_cons, List.drop_zero,
      ih fun ch hch => h ch (List.mem_cons_of_mem _ hch), List.length_cons]
    omega

/-- Behind what is skipped there is nothing to skip. -/
theorem skipped_all (h : rules.skipLength a ≠ 0) :
    rules.blankLength (a.rest.drop (rules.skipLength a)) = 0 ∧
      (rules.set.comments = true → commentLength (a.rest.drop (rules.skipLength a)) = 0) := by
  obtain hskip | hcomment := rules.skip_cases a
  · rw [hskip]
    refine ⟨blankLength_drop _ _, fun hcomments => ?_⟩
    have hmay : commentMayStart (rules.blankLength a.rest) a = true := by
      rw [commentMayStart, decide_eq_true (Nat.pos_of_ne_zero (hskip ▸ h)), Bool.true_or]
    rw [skipLength, hcomments, hmay, Bool.and_self, if_pos rfl] at hskip
    omega
  · obtain hnil | ⟨more, hmore⟩ := hcomment.behind
    · rw [hnil, hcomment.command]
      exact ⟨rfl, fun _ => rfl⟩
    · rw [hmore, hcomment.command]
      exact ⟨rfl, fun _ => rfl⟩

/-- Spaces and tabs are skipped where something was skipped in front of the same text. -/
theorem skipLength_spaces (hskip : rules.skipLength a ≠ 0)
    (hspaces : ∀ ch ∈ blank, ch = ' ' ∨ ch = '\t')
    (hb : b.rest = blank ++ a.rest.drop (rules.skipLength a)) :
    rules.skipLength b = blank.length := by
  have hrules : rules.set.blank ≠ none := by
    intro hnone
    apply hskip
    cases rules with
    | command | param | arith => cases hnone
    | doubleQuote | wordUntilBrace | wordUntilSlash => rfl
  obtain ⟨hzero, hcomment⟩ := skipped_all hskip
  have hblank : rules.blankLength b.rest = blank.length := by
    rw [hb]
    exact blankLength_append (blankLength_spaces hrules hspaces) hzero
  rw [skipLength, hblank]
  split
  · rename_i hmay
    rw [hb, List.drop_left, hcomment (Bool.and_eq_true_iff.mp hmay).1, Nat.add_zero]
  · rfl

/-- Behind other blank stands the same token. -/
theorem tokenAt_moved (ha : a.rest = t.blank ++ more) (hb : b.rest = blank ++ more)
    (hold : t.blank ≠ []) (hspaces : ∀ ch ∈ blank, ch = ' ' ∨ ch = '\t')
    (ht : rules.tokenAt a = .ok t) : rules.tokenAt b = .ok (t.moved b blank) := by
  have hblank := blank_of_tokenAt ht
  have hlength : t.blank.length = rules.skipLength a := by
    rw [hblank, List.length_take_of_le (skipLength_le rules a)]
  have hdrop : a.rest.drop (rules.skipLength a) = more := by
    rw [ha, ← hlength, List.drop_left]
  have hskip : rules.skipLength b = blank.length := by
    refine skipLength_spaces (a := a) ?_ hspaces (by rw [hb, hdrop])
    rw [← hlength]
    exact fun hzero => hold (List.eq_nil_of_length_eq_zero hzero)
  have hdrop' : b.rest.drop (rules.skipLength b) = more := by
    rw [hb, hskip, List.drop_left]
  have hcut : ∀ kind length, cut kind (rules.skipLength b) length b =
      (cut kind (rules.skipLength a) length a).moved b blank := by
    intro kind length
    simp only [cut, Token.moved, hdrop, hdrop', Token.mk.injEq, true_and, and_true]
    rw [hb, hskip, List.take_left]
  obtain ⟨hnil, rfl⟩ | ⟨kind, length, hfit, rfl⟩ := tokenAt_cases ht
  · rw [← hcut]
    rw [hdrop] at hnil
    simp only [tokenAt, hdrop', hnil]
  · rw [← hcut]
    rw [hdrop, ← hdrop'] at hfit
    exact tokenAt_of_fit hfit

/-- Behind other blank stands the same shape, if it was there behind the blank. -/
theorem takeAt_moved {pattern : Pattern} {kind : Kind} {allowBlank : Bool}
    (ht : rules.takeAt pattern kind allowBlank a = some t)
    (hblank : rules.blankLength b.rest = blank.length) (hb : b.rest = blank ++ (t.body ++ more))
    (hallow : t.blank = [] → blank = []) (hreach : pattern.reach? (t.body ++ more) = some t.body.length) :
    rules.takeAt pattern kind allowBlank b = some (t.moved b blank) := by
  have hlength : t.blank.length = rules.blankLength a.rest := by
    obtain ⟨n, -, rfl⟩ := takeAt_cases ht
    exact List.length_take_of_le (blankLength_le _ _)
  have hkind : t.kind = kind := (takeAt_matches ht).1
  have hallowed : ¬ (decide (0 < rules.blankLength b.rest) && !allowBlank) = true := by
    intro hno
    obtain ⟨hpos, hdeny⟩ := Bool.and_eq_true_iff.mp hno
    rw [takeAt] at ht
    split at ht
    · cases ht
    · rename_i hyes
      refine hyes (Bool.and_eq_true_iff.mpr ⟨decide_eq_true (Nat.pos_of_ne_zero fun hzero => ?_), hdeny⟩)
      rw [hallow (List.eq_nil_of_length_eq_zero (hlength.trans hzero))] at hblank
      rw [hblank] at hpos
      cases hpos
  rw [takeAt, if_neg hallowed, hblank, hb, List.drop_left, hreach, Option.map_some, cut, hb,
    List.take_left, List.drop_left, List.take_left, ← hkind]
  rfl

/-- Names are bare text. -/
theorem text_of_name {c : Char} (hc : Text.isNameStart c = true) : command.text c = true := by
  have hbounds : 65 ≤ c.toNat ∧ c.toNat ≤ 122 := by
    rw [Text.isNameStart, Bool.or_eq_true, beq_iff_eq] at hc
    obtain hletter | rfl := hc
    · obtain hupper | hlower := (Bool.or_eq_true _ _).mp hletter
      · obtain ⟨hge, hle⟩ := of_decide_eq_true hupper
        have hge : 65 ≤ c.toNat := UInt32.le_iff_toNat_le.mp hge
        have hle : c.toNat ≤ 90 := UInt32.le_iff_toNat_le.mp hle
        exact ⟨hge, by omega⟩
      · obtain ⟨hge, hle⟩ := (Bool.and_eq_true _ _).mp hlower
        have hge : 97 ≤ c.toNat := UInt32.le_iff_toNat_le.mp (of_decide_eq_true hge)
        have hle : c.toNat ≤ 122 := UInt32.le_iff_toNat_le.mp (of_decide_eq_true hle)
        exact ⟨by omega, hle⟩
    · decide
  have hspace : Text.isSpace c = false := by
    simp only [Text.isSpace, Text.Range.holds, Text.whiteSpace, List.any_cons, List.any_nil,
      Bool.or_false, Bool.or_eq_false_iff, Bool.and_eq_false_iff, decide_eq_false_iff_not]
    omega
  have hstops : commandStops.contains c = false := by
    refine Bool.eq_false_iff.mpr fun hmem => ?_
    have hnames : commandStops.all (fun d => !Text.isNameStart d) = true := by decide
    have hno := List.all_eq_true.mp hnames c (List.contains_iff_mem.mp hmem)
    rw [hc] at hno
    cases hno
  show (!Text.isSpace c && !commandStops.contains c) = true
  rw [hspace, hstops]
  rfl

/-- Among commands, what starts like a name is bare text. -/
theorem tokenAt_name {c : Char} (hc : Text.isNameStart c = true)
    (hfront : (a.rest.drop (command.blankLength a.rest)).head? = some c) :
    ∃ t, command.tokenAt a = .ok t ∧ t.kind = .str ∧
      t.blank = a.rest.take (command.blankLength a.rest) ∧ t.body.head? = some c := by
  obtain ⟨r, hr⟩ := List.head?_eq_some_iff.mp hfront
  have hskip : command.skipLength a = command.blankLength a.rest := by
    have hsharp : c ≠ '#' := by
      rintro rfl
      revert hc
      decide
    rw [skipLength]
    split
    · rw [hr, commentLength_of_ne hsharp, Nat.add_zero]
    · rfl
  have hopenings : command.set.rules.all (fun rule => rule.kind == .str ||
      rule.pattern.opening?.any fun d => !Text.isNameStart d) = true := by decide
  have hkinds : ∀ rule ∈ command.set.rules, rule.pattern.mayStart c = true → rule.kind = .str := by
    intro rule hrule hmay
    obtain hkind | hopening := (Bool.or_eq_true _ _).mp (List.all_eq_true.mp hopenings rule hrule)
    · exact eq_of_beq hkind
    · obtain ⟨d, hd, hname⟩ := Option.any_eq_true _ _ |>.mp hopening
      rw [← Pattern.eq_of_opening hd hmay, hc] at hname
      cases hname
  have hslash : c ≠ '\\' := by
    rintro rfl
    revert hc
    decide
  have hdenotes : (Pattern.run command.text).Denotes [c] :=
    (Pattern.denotes_run_iff (List.cons_ne_nil _ _)).mpr
      (Pattern.denotes_many_one (Pattern.denotes_char (text_of_name hc) hslash))
  have hrun : ⟨.run command.text, .str⟩ ∈ command.set.rules := by
    simp [set, commandRules, text]
  obtain ⟨m, hm, hpos⟩ := greedy_of_mem hrun hdenotes (t := c :: r) ⟨r, rfl⟩
  cases hfit : firstFit command.set.rules (a.rest.drop (command.skipLength a)) with
  | none =>
    have hno := reach?_of_firstFit hfit _ hrun
    rw [hskip, hr, Pattern.reach?_eq_some_iff.mpr ⟨hm, hpos⟩] at hno
    cases hno
  | some fit =>
    obtain ⟨kind, n⟩ := fit
    obtain ⟨rule, hrule, hkind, hreach⟩ := firstFit_mem hfit
    rw [hskip, hr] at hreach
    obtain ⟨hreach, hpos⟩ := Pattern.reach?_eq_some_iff.mp hreach
    obtain ⟨k, hk⟩ := Nat.exists_eq_succ_of_ne_zero (Nat.ne_of_gt hpos)
    rw [hk] at hreach
    refine ⟨_, tokenAt_of_fit hfit, ?_, ?_, ?_⟩
    · exact hkind.symm.trans (hkinds rule hrule (Pattern.mayStart_of_reach hreach))
    · rw [cut, hskip]
    · rw [cut, hskip, hr, hk]
      rfl

end Rules

end ShellGrammar
