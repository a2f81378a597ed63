import ShellGrammar.Proofs.Rules.Language

/-! The first rule that fits is the one that fits best.

The tables are tried in order, so a rule might cut short what a later one would take. It never
does: every pattern of a table is `Greedy`, and every one stands `Before` those after it in the
sense that these describe nothing longer where it takes something. For most pairs that can be
told from how the two start (`Pattern.settles`), and `decide` runs that check over all of them;
numbers and names in arithmetic start with characters that no finite list holds, so they are
told apart by hand. What follows for whole tables is `tokenAt_longest`. -/
namespace ShellGrammar

namespace Pattern
variable {p q : Pattern} {t u : Text} {c : Char} {n : Nat}

/-! ### Pairs of patterns -/

/-- The one character that all a pattern describes starts with. -/
def opening? : Pattern → Option Char
  | lit (c :: _) => some c
  | seq p _ => p.opening?
  | _ => none

/-- Whether a pattern may describe more than a text that what it describes starts with. -/
def goesBeyond : Text → Pattern → Bool
  | l, lit m => l.isPrefixOf m && l.length < m.length
  | l, seq (lit m) q => !m.isPrefixOf l || goesBeyond (l.drop m.length) q
  | [], _ => true
  | c :: _, q => q.mayStart c

/-- Whether it shows in how two patterns start that the first is never too short for the
second. -/
def settles (p q : Pattern) : Bool :=
  q.isShort || (match p with | lit l => !goesBeyond l q | _ => false) ||
    p.opening?.any (fun c => !q.mayStart c) || q.opening?.any (fun c => !p.mayStart c)

theorem not_nullable_of_opening (h : p.opening? = some c) : p.nullable = false := by
  fun_induction opening? p with
  | case1 d l => rfl
  | case2 p q ih => rw [nullable, ih h, Bool.false_and]
  | case3 => cases h

theorem eq_of_opening (h : p.opening? = some c) {d : Char} (hd : p.mayStart d = true) : d = c := by
  fun_induction opening? p with
  | case1 e l =>
    cases h
    exact (Option.some.inj (beq_iff_eq.mp hd)).symm
  | case2 p q ih =>
    rw [mayStart, not_nullable_of_opening h, Bool.false_and, Bool.or_false] at hd
    exact ih h hd
  | case3 => cases h

theorem apart_of_opening (h : q.opening? = some c) (hp : p.mayStart c = false) : Apart p q := by
  intro d hd
  refine Bool.eq_false_iff.mpr fun hqd => ?_
  rw [eq_of_opening h hqd, hp] at hd
  cases hd

theorem Apart.symm (h : Apart p q) : Apart q p := by
  intro c hq
  refine Bool.eq_false_iff.mpr fun hp => ?_
  rw [h c hp] at hq
  cases hq

theorem goesBeyond_of_denotes {l : Text} (hu : q.Denotes (l ++ c :: t)) : goesBeyond l q = true := by
  fun_induction goesBeyond l q with
  | case1 l m =>
    generalize hm : l ++ c :: t = u at hu
    cases hu
    rw [← hm, Bool.and_eq_true, decide_eq_true_eq, List.length_append, List.length_cons,
      List.isPrefixOf_iff_prefix]
    exact ⟨List.prefix_append _ _, by omega⟩
  | case2 l m q ih =>
    by_cases hml : m.isPrefixOf l = true
    · obtain ⟨l, rfl⟩ := List.isPrefixOf_iff_prefix.mp hml
      rw [List.drop_left] at ih ⊢
      rw [ih, Bool.or_true]
      generalize hw : m ++ l ++ c :: t = u at hu
      cases hu with
      | seq hm hq =>
        cases hm
        rw [List.append_assoc] at hw
        rw [List.append_cancel_left hw]
        exact hq
    · rw [Bool.eq_false_iff.mpr hml]
      rfl
  | case3 => rfl
  | case4 d l q => exact mayStart_of_denotes hu

theorem length_of_short (h : p.isShort = true) (hu : p.Denotes u) : u.length = 1 := by
  unfold isShort at h
  split at h
  · cases hu
    rfl
  · cases hu
    rfl
  · cases h

theorem before_of_settles (h : settles p q = true) : Before p q := by
  intro t u n hn hu hfront
  obtain ⟨hreach, hpos⟩ := reach?_eq_some_iff.mp hn
  simp only [settles, Bool.or_eq_true, Option.any_eq_true, Bool.not_eq_true'] at h
  rcases h with ((hshort | hlit) | ⟨c, hc, hmay⟩) | ⟨c, hc, hmay⟩
  · rw [length_of_short hshort hu]
    exact hpos
  · cases p with
    | lit l =>
      simp only [reach, Option.ite_none_right_eq_some, Option.some.injEq] at hreach
      obtain ⟨hl, rfl⟩ := hreach
      -- Both stand at the front, so the longer one goes on behind the shorter one.
      refine Nat.le_of_not_lt fun hlt => ?_
      obtain ⟨v, rfl⟩ :=
        List.prefix_of_prefix_length_le (List.isPrefixOf_iff_prefix.mp hl) hfront (Nat.le_of_lt hlt)
      cases v with
      | nil => exact absurd hlt (by simp)
      | cons c v =>
        have hbeyond := goesBeyond_of_denotes hu
        simp only [hbeyond, Bool.not_true, reduceCtorEq] at hlit
    | _ => cases hlit
  · exact (apart_of_opening hc hmay).symm.before hn hu hfront
  · exact (apart_of_opening hc hmay).before hn hu hfront

/-! ### The patterns of the tables -/

/-- Whether a pattern is a text or a character, without parts. -/
def isAtom : Pattern → Bool
  | lit _ | one _ => true
  | _ => false

theorem greedy_of_atom {p : Pattern} (h : isAtom p = true) : p.Greedy := by
  cases p with
  | lit l => exact (exact_lit l).greedy
  | one test => exact (exact_one test).greedy
  | _ => cases h

theorem greedy_variableName : Greedy variableName :=
  (exact_one _).stops.seq (exact_one _).many

/-- Pieces of bare text: a character that is none of those that end it, or an escaped one. -/
theorem greedy_run (test : Char → Bool) : Greedy (run test) := by
  have hescaped : Exact escaped := (exact_lit _).seq (exact_one _)
  have hslash : Apart (one fun c => test c && c != '\\') escaped :=
    apart_of_opening (c := '\\') rfl (by simp [mayStart])
  exact ((exact_one _).alt hescaped hslash rfl rfl).some1

end Pattern

namespace Rules
open Pattern

theorem isNameStart_of_digit {c : Char} (h : c.isDigit = true) : Text.isNameStart c = false := by
  have hval : 48 ≤ c.val.toNat ∧ c.val.toNat ≤ 57 := by
    simpa [Char.isDigit, UInt32.le_iff_toNat_le] using h
  have hupper : c.isUpper = false := decide_eq_false fun h => by
    have : 65 ≤ c.val.toNat := UInt32.le_iff_toNat_le.mp h.1
    omega
  have hlower : c.isLower = false := Bool.and_eq_false_iff.mpr (.inl (decide_eq_false fun h => by
    have : 97 ≤ c.val.toNat := UInt32.le_iff_toNat_le.mp h
    omega))
  have hletter : c.isAlpha = false := Bool.or_eq_false_iff.mpr ⟨hupper, hlower⟩
  have hunder : c ≠ '_' := by
    rintro rfl
    exact absurd hval.2 (by decide)
  rw [Text.isNameStart, hletter, beq_eq_false_iff_ne.mpr hunder, Bool.or_self]

theorem greedy_dollarName : dollarName.Greedy := by
  have hshort : (alt digit (oneOf specialGlyphs)).Greedy :=
    (exact_one _).greedy.alt (exact_one _).greedy (before_of_settles rfl) rfl
  have hname : Before variableName (alt digit (oneOf specialGlyphs)) :=
    .alt (before_of_settles rfl) (before_of_settles rfl)
  exact (exact_lit _).stops.seq (greedy_variableName.alt hshort hname rfl)

theorem greedy_singleQuoted : singleQuoted.pattern.Greedy := by
  have hclose : Apart (noneOf ['\'']) (lit ['\'']) := apart_of_opening rfl rfl
  have hstops : Stops (many (noneOf ['\''])) (lit ['\'']) := (exact_one _).stops_many hclose rfl
  exact (exact_lit _).stops.seq (hstops.seq (exact_lit _).greedy)

/-- Behind a zero, a letter makes a number hexadecimal and a digit or a `#` does not. Digits end
at a `#`, and are taken alone only where none follows. -/
theorem greedy_numberLiteral : numberLiteral.Greedy := by
  let letter := seq (oneOf ['x', 'X']) (some1 (one isHexDigit))
  let base := seq (lit ['#']) (some1 (one isBaseDigit))
  have hletter : letter.Greedy := (exact_one _).stops.seq (exact_one _).some1
  have hbase : base.Greedy := (exact_lit _).stops.seq (exact_one _).some1
  have hdigits : (some1 digit).Greedy := (exact_one _).some1
  have hstops : Stops (some1 digit) base :=
    (exact_one _).stops_seq ((exact_one _).stops_many (apart_of_opening rfl rfl) rfl)
  have hapart : ∀ q : Pattern, q.mayStart 'x' = false → q.mayStart 'X' = false → Apart letter q := by
    intro q hx hX c hc
    have hcase : c = 'x' ∨ c = 'X' := by simpa [letter, mayStart, nullable, oneOf] using hc
    rcases hcase with rfl | rfl
    · exact hx
    · exact hX
  have hplain : Before (seq (lit ['0']) letter) (some1 digit) :=
    (hapart _ rfl rfl).before.seq_one rfl '0' Char.isDigit
  have hbased : Before (seq (lit ['0']) letter) (seq (some1 digit) base) :=
    ((hapart (seq (many digit) base) rfl rfl).before.seq_one rfl '0' Char.isDigit).seq_assoc
  have hhex : (seq (lit ['0']) letter).Greedy := (exact_lit _).stops.seq hletter
  exact hhex.alt ((hstops.seq hbase).alt hdigits hdigits.before_seq rfl) (hbased.alt hplain) rfl

/-- Every number starts with a digit. -/
theorem isDigit_of_number {c : Char} (hc : numberLiteral.mayStart c = true) : c.isDigit = true := by
  simp only [numberLiteral, digit, some1, mayStart, nullable, List.head?_cons, List.isEmpty_cons,
    Bool.false_and, Bool.or_false, Bool.or_self, Bool.or_eq_true, beq_iff_eq,
    Option.some.injEq] at hc
  rcases hc with rfl | hc
  · rfl
  · exact hc

/-- No name starts with a digit. -/
theorem apart_number_name : Apart numberLiteral variableName := by
  intro c hc
  simp only [variableName, mayStart, nullable, Bool.false_and, Bool.or_false]
  exact isNameStart_of_digit (isDigit_of_number hc)

theorem apart_digits_name : Apart (some1 digit) variableName := by
  intro c hc
  simp only [some1, digit, mayStart, nullable, Bool.false_and, Bool.or_false] at hc
  simp only [variableName, mayStart, nullable, Bool.false_and, Bool.or_false]
  exact isNameStart_of_digit hc

/-- The name of a parameter: a number, a name or a glyph. -/
theorem greedy_parameterName :
    (alt (some1 digit) (alt variableName (oneOf specialGlyphs))).Greedy := by
  have hname : (alt variableName (oneOf specialGlyphs)).Greedy :=
    greedy_variableName.alt (exact_one _).greedy (before_of_settles rfl) rfl
  exact (exact_one _).some1.alt hname (apart_digits_name.before.alt (before_of_settles rfl)) rfl

/-! ### The tables -/

theorem filter_atom (rules : Rules) :
    (rules.set.rules.filter fun r => !isAtom r.pattern) =
      match rules with
      | command => [⟨dollarName, .dollarName⟩, singleQuoted, ⟨.run command.text, .str⟩]
      | param => [⟨.alt (.some1 .digit) (.alt .variableName (.oneOf specialGlyphs)), .name⟩]
      | arith => [⟨numberLiteral, .number⟩, ⟨.variableName, .ident⟩, ⟨dollarName, .dollarName⟩]
      | doubleQuote => [⟨dollarName, .dollarName⟩, ⟨.run doubleQuote.text, .str⟩]
      | wordUntilBrace =>
        [⟨dollarName, .dollarName⟩, singleQuoted, ⟨.run wordUntilBrace.text, .str⟩]
      | wordUntilSlash =>
        [⟨dollarName, .dollarName⟩, singleQuoted, ⟨.run wordUntilSlash.text, .str⟩] := by
  cases rules <;> rfl

/-- Every pattern of every table takes as much as it can. -/
theorem greedy_of_mem {rules : Rules} {r : Rule} (hr : r ∈ rules.set.rules) : r.pattern.Greedy := by
  by_cases hatom : isAtom r.pattern = true
  · exact greedy_of_atom hatom
  have hmem : r ∈ rules.set.rules.filter fun r => !isAtom r.pattern :=
    List.mem_filter.mpr ⟨hr, by simpa using hatom⟩
  have hall : ∀ r ∈ rules.set.rules.filter (fun r => !isAtom r.pattern), r.pattern.Greedy := by
    rw [filter_atom]
    cases rules <;> simp only [List.forall_mem_cons, List.not_mem_nil, false_implies, implies_true,
      greedy_dollarName, greedy_singleQuoted, greedy_run, greedy_numberLiteral,
      greedy_variableName, greedy_parameterName, and_self]
  exact hall r hmem

/-- Every rule of every table stands before those that it cuts nothing short of. -/
theorem before_rules (rules : Rules) :
    rules.set.rules.Pairwise fun r s => Before r.pattern s.pattern := by
  have hsettled : ∀ {rs : List Rule}, (rs.Pairwise fun r s => settles r.pattern s.pattern = true) →
      rs.Pairwise fun r s => Before r.pattern s.pattern :=
    fun h => h.imp before_of_settles
  cases rules with
  | arith =>
    have hnumber : ∀ s ∈ arithRules.drop 2, settles numberLiteral s.pattern = true := by decide
    have hothers : (arithRules.drop 1).Pairwise fun r s => settles r.pattern s.pattern = true := by
      decide
    refine List.pairwise_cons.mpr ⟨fun s hs => ?_, hsettled hothers⟩
    rcases List.mem_cons.mp hs with rfl | hs
    · exact apart_number_name.before
    · exact before_of_settles (hnumber s hs)
  | _ => exact hsettled (by decide)

/-- Of rules of which none cuts short a later one, the first that fits takes the longest text
that any of them describes. -/
theorem firstFit_longest {rs : List Rule} (hgreedy : ∀ r ∈ rs, r.pattern.Greedy)
    (hbefore : rs.Pairwise fun r s => Before r.pattern s.pattern) {t : Text} {kind : Kind} {n : Nat}
    (h : firstFit rs t = some (kind, n)) {r : Rule} (hr : r ∈ rs) {u : Text}
    (hu : r.pattern.Denotes u) (hfront : u <+: t) : u.length ≤ n := by
  induction rs with
  | nil => cases hr
  | cons first rs ih =>
    obtain ⟨hfirst, hrest⟩ := List.pairwise_cons.mp hbefore
    obtain ⟨m, hm, hle⟩ := hgreedy r hr hu hfront
    rw [firstFit] at h
    cases hreach : first.pattern.reach? t with
    | some k =>
      simp only [hreach, Option.some.injEq, Prod.mk.injEq] at h
      obtain ⟨-, rfl⟩ := h
      rcases List.mem_cons.mp hr with rfl | hr
      · rw [(reach?_eq_some_iff.mp hreach).1] at hm
        exact Option.some.inj hm ▸ hle
      · exact hfirst r hr hreach hu hfront
    | none =>
      simp only [hreach] at h
      rcases List.mem_cons.mp hr with rfl | hr
      · -- It describes no more than the empty text, or it would fit.
        rcases Nat.eq_zero_or_pos m with rfl | hpos
        · exact Nat.le_trans hle (Nat.zero_le n)
        · rw [reach?_eq_some_iff.mpr ⟨hm, hpos⟩] at hreach
          cases hreach
      · exact ih (fun r hr => hgreedy r (List.mem_cons_of_mem _ hr)) hrest h hr

/-- **The first match is the longest.** What is cut off the text behind the blank is something
that a rule of the table describes, and no rule describes anything longer at the front of that
text, whichever of its alternatives is chosen. -/
theorem tokenAt_longest {rules : Rules} {scan : Scan} {t : Token}
    (h : rules.tokenAt scan = .ok t) (hleft : scan.rest.drop (rules.skipLength scan) ≠ []) :
    (∃ r ∈ rules.set.rules, r.kind = t.kind ∧ r.pattern.Denotes t.body) ∧
      ∀ r ∈ rules.set.rules, ∀ u, r.pattern.Denotes u →
        u <+: scan.rest.drop (rules.skipLength scan) → u.length ≤ t.body.length := by
  obtain ⟨hnil, -⟩ | ⟨kind, length, hfit, rfl⟩ := tokenAt_cases h
  · exact absurd hnil hleft
  obtain ⟨r, hr, hkind, hreach⟩ := firstFit_mem hfit
  have hreach := (reach?_eq_some_iff.mp hreach).1
  refine ⟨⟨r, hr, hkind, denotes_of_reach hreach⟩, fun r' hr' u hu hfront => ?_⟩
  have hlength : (cut kind (rules.skipLength scan) length scan).body.length = length :=
    List.length_take_of_le (reach_le hreach)
  rw [hlength]
  exact firstFit_longest (fun _ => greedy_of_mem) (before_rules rules) hfit hr' hu hfront

/-- Behind the blank of ` <<=1` stand `<`, `<<` and `<<=`, and the last is the token. -/
theorem tokenAt_longest_shift :
    ∃ t, arith.tokenAt (.ofText [' ', '<', '<', '=', '1']) = .ok t ∧ t.body = ['<', '<', '='] ∧
      (∃ r ∈ arith.set.rules, r.kind = t.kind ∧ r.pattern.Denotes t.body) ∧
      ∀ r ∈ arith.set.rules, ∀ u, r.pattern.Denotes u →
        u <+: (Scan.ofText [' ', '<', '<', '=', '1']).rest.drop
          (arith.skipLength (.ofText [' ', '<', '<', '=', '1'])) → u.length ≤ t.body.length :=
  ⟨_, rfl, rfl, tokenAt_longest rfl (by decide)⟩

end Rules

end ShellGrammar
