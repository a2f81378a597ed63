import ShellGrammar.Proofs.Rules.Spelling

/-! What is read before a text goes on.

A text `t` and the same text with a character `x` and more behind it are read alike, except
at the edge between the two. `Steady x E p` says of a pattern that it takes the same from
both unless `t` is in `E`; most patterns take no `x` and are steady everywhere
(`steady_of_avoids`), and a repetition is steady up to where it stops
(`Steady.many`). The edges that matter are the end of `t`, where the character is more text
or more blank, and a backslash that ends `t`, which would escape the character.

For a whole table that comes to this (`firstFit_behind`): the same token is cut off both
texts, or it is bare text that reaches an edge. -/
namespace ShellGrammar

namespace Pattern
variable {x : Char} {E : Text → Prop} {p q : Pattern} {t : Text} {n : Nat}

/-- Takes the same from a text with `x` and more behind it, unless the text is in `E`. -/
def Steady (x : Char) (E : Text → Prop) (p : Pattern) : Prop :=
  ∀ t more, ¬ E t → p.reach (t ++ x :: more) = p.reach t

/-! ### Patterns that do not take a character -/

/-- Whether no part of a pattern takes a character. -/
def avoids (x : Char) : Pattern → Bool
  | lit l => !l.contains x
  | one test => !test x
  | seq p q | alt p q => p.avoids x && q.avoids x
  | opt p | many p => p.avoids x

theorem isPrefixOf_behind {l : Text} (h : x ∉ l) (t more : Text) :
    l.isPrefixOf (t ++ x :: more) = l.isPrefixOf t := by
  induction l generalizing t with
  | nil => rfl
  | cons c l ih =>
    have hl : x ∉ l := fun hm => h (List.mem_cons_of_mem c hm)
    cases t with
    | nil =>
      have hc : c ≠ x := fun hc => h (by rw [hc]; exact List.mem_cons_self)
      show (c == x && l.isPrefixOf more) = false
      rw [beq_eq_false_iff_ne.mpr hc, Bool.false_and]
    | cons d t =>
      show (c == d && l.isPrefixOf (t ++ x :: more)) = (c == d && l.isPrefixOf t)
      rw [ih hl]

/-- Pieces that are the same up to an edge cover the same up to there, where no piece
starts at an edge. -/
theorem covered_behind {piece : Text → Option Nat} (hpiece : ∀ t n, piece t = some n → n ≤ t.length)
    (more : Text) (hsame : ∀ t, ¬ E t → piece (t ++ x :: more) = piece t)
    (hedge : ∀ t, E t → piece t = none) :
    ∀ (k : Nat) (t : Text), k ≤ t.length →
      covered piece k (t ++ x :: more) = covered piece k t ∨
        (E (t.drop (covered piece k t)) ∧ covered piece k t ≤ covered piece k (t ++ x :: more))
  | 0, [], _ => by
    by_cases hE : E []
    · exact .inr ⟨hE, Nat.zero_le _⟩
    · left
      show covered piece 0 (x :: more) = 0
      unfold covered
      split
      · rename_i k hk
        have hnil : piece [] = some (k + 1) := (hsame [] hE).symm.trans hk
        exact absurd (hpiece _ _ hnil) (by simp)
      · rfl
  | k + 1, c :: t, hk => by
    rcases covered_behind hpiece more hsame hedge k t (Nat.le_of_succ_le_succ hk) with h | h
    · left
      show covered piece k (t ++ x :: more) + 1 = covered piece k t + 1
      rw [h]
    · exact .inr ⟨h.1, Nat.succ_le_succ h.2⟩
  | 0, c :: t, _ => by
    by_cases hE : E (c :: t)
    · right
      have hzero : covered piece 0 (c :: t) = 0 := by
        simp only [covered, hedge _ hE]
      rw [hzero]
      exact ⟨hE, Nat.zero_le _⟩
    · have hhere := hsame (c :: t) hE
      rw [List.cons_append] at hhere
      cases hp : piece (c :: t) with
      | none =>
        left
        simp only [List.cons_append, covered, hhere, hp]
      | some m =>
        cases m with
        | zero =>
          left
          simp only [List.cons_append, covered, hhere, hp]
        | succ j =>
          have hj : j ≤ t.length := Nat.le_of_succ_le_succ (hpiece _ _ hp)
          simp only [List.cons_append, covered, hhere, hp]
          rcases covered_behind hpiece more hsame hedge j t hj with h | h
          · left
            rw [h]
          · exact .inr ⟨h.1, Nat.succ_le_succ h.2⟩

/-- A repetition takes the same, or stops at an edge. -/
theorem Steady.many (h : Steady x E p) (hedge : ∀ t, E t → p.reach t = none) (t more : Text) :
    covered p.reach 0 (t ++ x :: more) = covered p.reach 0 t ∨
      (E (t.drop (covered p.reach 0 t)) ∧
        covered p.reach 0 t ≤ covered p.reach 0 (t ++ x :: more)) :=
  covered_behind (fun _ _ => reach_le) more (fun t => h t more) hedge 0 t (Nat.zero_le _)

theorem Steady.seq (hp : Steady x E p) (hq : Steady x (fun _ => False) q) : Steady x E (seq p q) := by
  intro t more hE
  simp only [reach, hp t more hE]
  cases hn : p.reach t with
  | none => rfl
  | some n =>
    have hdrop : (t ++ x :: more).drop n = t.drop n ++ x :: more :=
      List.drop_append_of_le_length (reach_le hn)
    simp only [Option.bind_eq_bind, Option.bind_some, hdrop, hq (t.drop n) more id]

theorem Steady.alt (hp : Steady x E p) (hq : Steady x E q) : Steady x E (alt p q) := by
  intro t more hE
  simp only [reach, hp t more hE, hq t more hE]

/-- What does not take the character is steady everywhere. -/
theorem steady_of_avoids (h : p.avoids x = true) : Steady x (fun _ => False) p := by
  induction p with
  | lit l =>
    intro t more _
    have hl : x ∉ l := by simpa [avoids] using h
    simp only [reach, isPrefixOf_behind hl]
  | one test =>
    intro t more _
    have htest : test x = false := by simpa [avoids] using h
    cases t with
    | nil => simp [reach, htest]
    | cons c t => rfl
  | seq p q ihp ihq =>
    obtain ⟨hp, hq⟩ := Bool.and_eq_true_iff.mp h
    exact (ihp hp).seq (ihq hq)
  | alt p q ihp ihq =>
    obtain ⟨hp, hq⟩ := Bool.and_eq_true_iff.mp h
    exact (ihp hp).alt (ihq hq)
  | opt p ih =>
    intro t more _
    simp only [reach, ih h t more id]
  | many p ih =>
    intro t more _
    rcases (ih h).many (fun _ => False.elim) t more with hsame | hfalse
    · simp only [reach, hsame]
    · exact hfalse.1.elim

/-! ### First characters -/

/-- Whether a pattern can take nothing. -/
def nullable : Pattern → Bool
  | lit l => l.isEmpty
  | one _ => false
  | seq p q => p.nullable && q.nullable
  | alt p q => p.nullable || q.nullable
  | opt _ | many _ => true

/-- Whether what a pattern takes can start with a character. -/
def mayStart (c : Char) : Pattern → Bool
  | lit l => l.head? == some c
  | one test => test c
  | seq p q => p.mayStart c || (p.nullable && q.mayStart c)
  | alt p q => p.mayStart c || q.mayStart c
  | opt p | many p => p.mayStart c

theorem nullable_of_reach (h : p.reach t = some 0) : p.nullable = true := by
  induction p generalizing t with
  | lit l =>
    simp only [reach, Option.ite_none_right_eq_some, Option.some.injEq] at h
    rw [nullable, List.isEmpty_iff_length_eq_zero]
    exact h.2
  | one test =>
    cases t with
    | nil => simp [reach] at h
    | cons c t => simp [reach] at h
  | seq p q ihp ihq =>
    simp only [reach, Option.bind_eq_bind, Option.bind_eq_some_iff, Option.pure_def,
      Option.some.injEq] at h
    obtain ⟨a, ha, b, hb, hab⟩ := h
    obtain ⟨rfl, rfl⟩ := Nat.add_eq_zero_iff.mp hab
    rw [nullable, ihp ha, ihq hb, Bool.and_self]
  | alt p q ihp ihq =>
    unfold reach at h
    split at h
    · rename_i m hm
      rw [nullable, ihp (hm.trans h), Bool.true_or]
    · rw [nullable, ihq h, Bool.or_true]
  | opt p _ => rfl
  | many p _ => rfl

theorem mayStart_of_reach {c : Char} (h : p.reach (c :: t) = some (n + 1)) :
    p.mayStart c = true := by
  induction p generalizing c t n with
  | lit l =>
    simp only [reach, Option.ite_none_right_eq_some, Option.some.injEq] at h
    cases l with
    | nil => simp at h
    | cons d l =>
      have hd : (d == c && l.isPrefixOf t) = true := h.1
      rw [mayStart, List.head?_cons, beq_iff_eq.mp (Bool.and_eq_true_iff.mp hd).1]
      exact BEq.rfl
  | one test =>
    simp only [reach, Option.ite_none_right_eq_some] at h
    exact h.1
  | seq p q ihp ihq =>
    simp only [reach, Option.bind_eq_bind, Option.bind_eq_some_iff, Option.pure_def,
      Option.some.injEq] at h
    obtain ⟨a, ha, b, hb, hab⟩ := h
    cases a with
    | succ a => rw [mayStart, ihp ha, Bool.true_or]
    | zero =>
      obtain rfl : b = n + 1 := by omega
      rw [mayStart, nullable_of_reach ha, ihq hb, Bool.true_and, Bool.or_true]
  | alt p q ihp ihq =>
    unfold reach at h
    split at h
    · rename_i m hm
      rw [mayStart, ihp (hm.trans h), Bool.true_or]
    · rw [mayStart, ihq h, Bool.or_true]
  | opt p ih =>
    cases hp : p.reach (c :: t) with
    | none => simp [reach, hp] at h
    | some m =>
      simp only [reach, hp, Option.getD_some] at h
      exact ih (hp.trans h)
  | many p ih =>
    simp only [reach, Option.some.injEq] at h
    unfold covered at h
    split at h
    · rename_i k hk
      exact ih hk
    · cases h

theorem reach?_eq_none_of_mayStart {c : Char} (h : p.mayStart c = false) :
    p.reach? (c :: t) = none := by
  cases hr : p.reach? (c :: t) with
  | none => rfl
  | some n =>
    obtain ⟨hreach, hpos⟩ := reach?_eq_some_iff.mp hr
    cases n with
    | zero => cases hpos
    | succ n =>
      rw [mayStart_of_reach hreach] at h
      cases h

theorem reach?_nil (p : Pattern) : p.reach? [] = none := by
  cases hr : p.reach? [] with
  | none => rfl
  | some n =>
    obtain ⟨hreach, hpos⟩ := reach?_eq_some_iff.mp hr
    have hle := reach_le hreach
    rw [List.length_nil] at hle
    omega

/-! ### Bare text and quoted strings -/

/-- Where a character behind a text makes a difference: at a backslash that ends the text, and
at the end if the character would be taken there. -/
def Edge (taken : Bool) (t : Text) : Prop := t = ['\\'] ∨ (t = [] ∧ taken = true)

theorem not_edge_cons {taken : Bool} {c : Char} (h : ¬ Edge taken (c :: t)) :
    c = '\\' → t ≠ [] := by
  rintro rfl rfl
  exact h (.inl rfl)

/-- What stands at least once takes the same, or stops at an edge, or starts there. -/
theorem some1_behind (h : Steady x E p) (hedge : ∀ t, E t → p.reach t = none) (t more : Text) :
    ((some1 p).reach t = none ∧ E t) ∨
    (∃ n n', (some1 p).reach t = some n ∧ (some1 p).reach (t ++ x :: more) = some n' ∧
      n ≤ n' ∧ E (t.drop n)) ∨
    (some1 p).reach (t ++ x :: more) = (some1 p).reach t := by
  by_cases hE : E t
  · refine .inl ⟨?_, hE⟩
    simp only [some1, reach, hedge t hE]
    rfl
  · have hfirst := h t more hE
    cases hn : p.reach t with
    | none =>
      right; right
      simp only [some1, reach, hfirst, hn]
      rfl
    | some n =>
      have hdrop : (t ++ x :: more).drop n = t.drop n ++ x :: more :=
        List.drop_append_of_le_length (reach_le hn)
      have hwhole : (some1 p).reach t = some (n + covered p.reach 0 (t.drop n)) := by
        simp only [some1, reach, hn]
        rfl
      have hmore : (some1 p).reach (t ++ x :: more) =
          some (n + covered p.reach 0 (t.drop n ++ x :: more)) := by
        simp only [some1, reach, hfirst, hn, Option.bind_eq_bind, Option.bind_some, hdrop]
        rfl
      rcases h.many hedge (t.drop n) more with hsame | ⟨hstop, hle⟩
      · right; right
        rw [hwhole, hmore, hsame]
      · refine .inr (.inl ⟨_, _, hwhole, hmore, Nat.add_le_add_left hle n, ?_⟩)
        rw [← List.drop_drop]
        exact hstop

theorem reach_escaped_cons {c : Char} : escaped.reach (c :: t) =
    if c = '\\' ∧ t ≠ [] then some 2 else none := by
  by_cases hc : c = '\\'
  · cases t with
    | nil => simp [escaped, any, reach, hc]
    | cons d t => simp [escaped, any, reach, List.isPrefixOf, hc]
  · have hfront : ('\\' == c) = false := beq_eq_false_iff_ne.mpr (Ne.symm hc)
    simp [escaped, reach, List.isPrefixOf, hc, hfront]

theorem steady_runPiece (hx : x ≠ '\\') (test : Char → Bool) :
    Steady x (Edge (test x)) (.alt (one fun c => test c && c != '\\') escaped) := by
  intro t more hE
  cases t with
  | nil =>
    have hnl : test x = false := Bool.eq_false_iff.mpr fun h => hE (.inr ⟨rfl, h⟩)
    have hesc : escaped.reach (x :: more) = none := by
      rw [reach_escaped_cons, if_neg fun h => hx h.1]
    rw [List.nil_append]
    simp only [reach, hnl, hesc]
    rfl
  | cons c t =>
    have hesc : escaped.reach (c :: (t ++ x :: more)) = escaped.reach (c :: t) := by
      rw [reach_escaped_cons, reach_escaped_cons]
      by_cases hc : c = '\\'
      · simp [hc, not_edge_cons hE hc]
      · simp [hc]
    rw [List.cons_append]
    simp only [reach, hesc]

theorem runPiece_edge (test : Char → Bool) (t : Text) (h : Edge (test x) t) :
    reach (.alt (one fun c => test c && c != '\\') escaped) t = none := by
  obtain rfl | ⟨rfl, _⟩ := h
  · simp [reach, reach_escaped_cons]
  · rfl

/-- A repetition of single characters that stops inside a text stops there whatever stands
behind the text. -/
theorem covered_one_append {test : Char → Bool} (more : Text) :
    ∀ t : Text, t.drop (covered (one test).reach 0 t) ≠ [] →
      covered (one test).reach 0 (t ++ more) = covered (one test).reach 0 t
  | [], h => absurd rfl h
  | c :: t, h => by
    cases hc : test c with
    | false => simp [covered, reach, hc]
    | true =>
      have hhere : covered (one test).reach 0 (c :: t) = covered (one test).reach 0 t + 1 := by
        simp [covered, reach, hc]
      rw [hhere, List.drop_succ_cons] at h
      have hrest := covered_one_append more t h
      rw [hhere, ← hrest]
      simp [covered, reach, hc]

/-- A closed single-quoted string ends at its quote. -/
theorem reach_singleQuoted_append {t : Text} {n : Nat}
    (h : Rules.singleQuoted.pattern.reach t = some n) (more : Text) :
    Rules.singleQuoted.pattern.reach (t ++ more) = some n := by
  cases t with
  | nil => simp [Rules.singleQuoted, reach, List.isPrefixOf] at h
  | cons c t =>
    simp only [Rules.singleQuoted, reach, Option.bind_eq_bind, Option.bind_eq_some_iff,
      Option.pure_def, Option.some.injEq, Option.ite_none_right_eq_some, noneOf] at h ⊢
    obtain ⟨_, ⟨hopen, rfl⟩, _, ⟨_, rfl, _, ⟨hclose, rfl⟩, rfl⟩, rfl⟩ := h
    have hstop : t.drop (covered (one fun c => !(['\''].contains c)).reach 0 t) ≠ [] := by
      intro hnil
      rw [List.length_singleton, List.drop_succ_cons, List.drop_zero, hnil] at hclose
      cases hclose
    have hsame := covered_one_append more t hstop
    have hle := covered_le (one fun c => !(['\''].contains c)).reach 0 t
    refine ⟨1, ⟨?_, rfl⟩, _, ⟨_, rfl, 1, ⟨?_, rfl⟩, rfl⟩, ?_⟩
    · simpa [List.isPrefixOf] using hopen
    · rw [List.cons_append, List.drop_succ_cons, List.drop_zero, hsame,
        List.drop_append_of_le_length hle]
      rw [List.length_singleton, List.drop_succ_cons, List.drop_zero] at hclose
      rw [List.isPrefixOf_iff_prefix] at hclose ⊢
      exact hclose.trans (List.prefix_append _ _)
    · simp only [List.length_singleton, List.cons_append, List.drop_succ_cons, List.drop_zero,
        hsame]

/-- Whether a pattern is one character long. -/
def isShort : Pattern → Bool
  | lit [_] | one _ => true
  | _ => false

/-- Past the end of a text, a character makes no difference to what is that short. -/
theorem reach_short (h : p.isShort = true) (ht : t ≠ []) (more : Text) :
    p.reach (t ++ more) = p.reach t := by
  obtain ⟨c, r, rfl⟩ := List.exists_cons_of_ne_nil ht
  unfold isShort at h
  split at h
  · simp [reach, List.isPrefixOf]
  · rfl
  · cases h

end Pattern

namespace Rules
open Pattern
variable {x : Char} {rules : Rules} {t : Text} {kind : Kind} {n : Nat}

/-! ### Tables -/

/-- The characters that are no part of a longer token: blank, what separates, and what closes. -/
def bounds : Text := ['\n', '"', '}', ')', '`', ' ', ';']

/-- What bare text can hold, besides escaped characters. -/
def text : Rules → Char → Bool
  | command => fun c => !Text.isSpace c && !commandStops.contains c
  | param | arith => fun _ => false
  | doubleQuote => fun c => !(['"', '$', '`'].contains c)
  | wordUntilBrace => fun c => !(['}', '$', '`', '\'', '"'].contains c)
  | wordUntilSlash => fun c => !(['/', '}', '$', '`', '\'', '"'].contains c)

/-- The rules that can take more than one character and among them one of `bounds`. -/
theorem filter_bounds (rules : Rules) (hx : x ∈ bounds) :
    rules.set.rules.filter (fun r => !r.pattern.avoids x && !r.pattern.isShort) =
      match rules with
      | command => [singleQuoted, ⟨.run command.text, .str⟩]
      | param | arith => []
      | doubleQuote => [⟨.run doubleQuote.text, .str⟩]
      | wordUntilBrace => [singleQuoted, ⟨.run wordUntilBrace.text, .str⟩]
      | wordUntilSlash => [singleQuoted, ⟨.run wordUntilSlash.text, .str⟩] := by
  simp only [bounds, List.mem_cons, List.not_mem_nil, or_false] at hx
  rcases hx with rfl | rfl | rfl | rfl | rfl | rfl | rfl <;> cases rules <;> rfl

theorem rule_cases (hx : x ∈ bounds) {r : Rule} (hr : r ∈ rules.set.rules) :
    r.pattern.avoids x = true ∨ r.pattern.isShort = true ∨ r = singleQuoted ∨
      r = ⟨.run rules.text, .str⟩ ∧ rules ≠ .param := by
  by_cases havoids : r.pattern.avoids x = true
  · exact .inl havoids
  by_cases hshort : r.pattern.isShort = true
  · exact .inr (.inl hshort)
  have hmem : r ∈ rules.set.rules.filter (fun r => !r.pattern.avoids x && !r.pattern.isShort) := by
    rw [List.mem_filter]
    exact ⟨hr, by simp [havoids, hshort]⟩
  rw [filter_bounds rules hx] at hmem
  cases rules with
  | param | arith => cases hmem
  | doubleQuote =>
    obtain rfl := List.mem_singleton.mp hmem
    exact .inr (.inr (.inr ⟨rfl, by decide⟩))
  | command | wordUntilBrace | wordUntilSlash =>
    simp only [List.mem_cons, List.not_mem_nil, or_false] at hmem
    obtain rfl | rfl := hmem
    · exact .inr (.inr (.inl rfl))
    · exact .inr (.inr (.inr ⟨rfl, by decide⟩))

/-- A rule is unaffected by what is behind a text, or takes bare text up to an edge. -/
def Settled (x : Char) (taken : Bool) (t more : Text) (r : Rule) : Prop :=
  r.pattern.reach? (t ++ x :: more) = r.pattern.reach? t ∨
    (r.kind = .str ∧ ∃ n n', r.pattern.reach? t = some n ∧
      r.pattern.reach? (t ++ x :: more) = some n' ∧ n < n' ∧ Edge taken (t.drop n))

theorem settled_of_reach {taken : Bool} {more : Text} {r : Rule}
    (h : r.pattern.reach (t ++ x :: more) = r.pattern.reach t) : Settled x taken t more r := by
  left
  rw [reach?, h]
  rfl

theorem settled_run (hx : x ≠ '\\') {test : Char → Bool} (ht : ¬ Edge (test x) t) (more : Text) :
    Settled x (test x) t more ⟨.run test, .str⟩ := by
  obtain ⟨_, hE⟩ | ⟨n, n', hn, hn', hle, hE⟩ | hsame :=
    some1_behind (steady_runPiece hx test) (runPiece_edge test) t more
  · exact absurd hE ht
  · rcases Nat.eq_or_lt_of_le hle with rfl | hlt
    · exact settled_of_reach (hn'.trans hn.symm)
    · have hpos : 0 < n := by
        rcases Nat.eq_zero_or_pos n with rfl | hpos
        · exact absurd hE ht
        · exact hpos
      exact .inr ⟨rfl, n, n', reach?_eq_some_iff.mpr ⟨hn, hpos⟩,
        reach?_eq_some_iff.mpr ⟨hn', by omega⟩, hlt, hE⟩
  · exact settled_of_reach hsame

/-- The first fitting rule takes the same from both texts, or bare text up to an edge from
one and more of it from the other. -/
theorem firstFit_settled {taken : Bool} {more : Text} {rs : List Rule}
    (hrs : ∀ r ∈ rs, Settled x taken t more r) :
    firstFit rs (t ++ x :: more) = firstFit rs t ∨
      ∃ n n', firstFit rs t = some (.str, n) ∧ firstFit rs (t ++ x :: more) = some (.str, n') ∧
        n < n' ∧ Edge taken (t.drop n) := by
  induction rs with
  | nil => exact .inl rfl
  | cons r rs ih =>
    have hrest := ih fun r' hr' => hrs r' (List.mem_cons_of_mem r hr')
    simp only [firstFit]
    obtain hsame | ⟨hkind, n, n', hn, hn', hlt, hE⟩ := hrs r List.mem_cons_self
    · rw [hsame]
      cases r.pattern.reach? t with
      | some m => exact .inl rfl
      | none => exact hrest
    · rw [hn, hn']
      exact .inr ⟨n, n', by rw [hkind], by rw [hkind], hlt, hE⟩

/-- The first fitting rule is the same, or it takes bare text up to an edge and more of it
behind. -/
theorem firstFit_of_settled {taken : Bool} {more : Text} {rs : List Rule}
    (hrs : ∀ r ∈ rs, Settled x taken t more r)
    (h : firstFit rs t = some (kind, n)) :
    firstFit rs (t ++ x :: more) = some (kind, n) ∨
      (kind = .str ∧ Edge taken (t.drop n) ∧
        ∃ n', n < n' ∧ firstFit rs (t ++ x :: more) = some (.str, n')) := by
  obtain hsame | ⟨m, n', hm, hn', hlt, hE⟩ := firstFit_settled hrs
  · exact .inl (hsame.trans h)
  · rw [hm] at h
    cases h
    exact .inr ⟨rfl, hE, n', hlt, hn'⟩

/-- No rule of a table with bare text takes a lone backslash. -/
theorem firstFit_backslash (h : rules ≠ .param) :
    firstFit rules.set.rules ['\\'] = none := by
  cases rules with
  | param => exact absurd rfl h
  | _ => rfl

/-- Only the rule for quoted strings takes a single quote, where there is one. -/
theorem filter_quote (rules : Rules) (h : singleQuoted ∈ rules.set.rules) :
    rules.set.rules.filter (fun r => r.pattern.mayStart '\'') = [singleQuoted] := by
  have hmem : singleQuoted ∈
      rules.set.rules.filter (fun r => !r.pattern.avoids '}' && !r.pattern.isShort) :=
    List.mem_filter.mpr ⟨h, rfl⟩
  rw [filter_bounds rules (by decide)] at hmem
  cases rules with
  | command => rfl
  | wordUntilBrace => rfl
  | wordUntilSlash => rfl
  | param | arith | doubleQuote =>
    simp [singleQuoted] at hmem

/-- A quoted string is closed if anything is taken where it starts. -/
theorem settled_singleQuoted (hmem : singleQuoted ∈ rules.set.rules) {taken : Bool} (ht : t ≠ [])
    (h : firstFit rules.set.rules t = some (kind, n)) (more : Text) :
    Settled x taken t more singleQuoted := by
  obtain ⟨c, r, rfl⟩ := List.exists_cons_of_ne_nil ht
  by_cases hc : singleQuoted.pattern.mayStart c = true
  · obtain ⟨rule, hrule, _, hreach⟩ := firstFit_mem h
    have hquote : '\'' = c := by
      simpa [singleQuoted, mayStart, nullable] using hc
    subst hquote
    have hmay : rule.pattern.mayStart '\'' = true := by
      apply Bool.of_not_eq_false
      intro hno
      rw [reach?_eq_none_of_mayStart hno] at hreach
      cases hreach
    have hself : rule ∈ rules.set.rules.filter (fun r => r.pattern.mayStart '\'') :=
      List.mem_filter.mpr ⟨hrule, hmay⟩
    rw [filter_quote rules hmem, List.mem_singleton] at hself
    rw [hself] at hreach
    have hclosed := (reach?_eq_some_iff.mp hreach).1
    exact settled_of_reach ((reach_singleQuoted_append hclosed _).trans hclosed.symm)
  · left
    have hno := Bool.eq_false_iff.mpr hc
    rw [List.cons_append, reach?_eq_none_of_mayStart hno, reach?_eq_none_of_mayStart hno]

/-- A table cuts the same off a text with one of `bounds` behind it, or bare text that reaches
an edge and goes on behind it. -/
theorem firstFit_behind (hx : x ∈ bounds) (ht : t ≠ [])
    (h : firstFit rules.set.rules t = some (kind, n)) (more : Text) :
    firstFit rules.set.rules (t ++ x :: more) = some (kind, n) ∨
      (kind = .str ∧ Edge (rules.text x) (t.drop n) ∧
        ∃ n', n < n' ∧ firstFit rules.set.rules (t ++ x :: more) = some (.str, n')) := by
  refine firstFit_of_settled (fun r hr => ?_) h
  obtain havoids | hshort | rfl | ⟨rfl, hparam⟩ := rule_cases hx hr
  · exact settled_of_reach (steady_of_avoids havoids t more id)
  · exact settled_of_reach (reach_short hshort ht _)
  · exact settled_singleQuoted hr ht h more
  · have hslash : x ≠ '\\' := by
      rintro rfl
      exact absurd hx (by decide)
    refine settled_run hslash ?_ more
    rintro (rfl | ⟨rfl, _⟩)
    · rw [firstFit_backslash hparam] at h
      cases h
    · exact ht rfl

end Rules

end ShellGrammar
