import ShellGrammar.Proofs.Rules.Ahead
import ShellGrammar.Proofs.Rules.Longest

/-! Texts that part behind a token.

Two texts start alike and go on differently behind a seam. What is skipped in front of the seam
is skipped in both (`skipLength_seam`). A token that ends there or before is cut off both, since
tokens are as long as they can be: no rule describes anything longer that reaches over the seam,
if blank stands behind it in the second text and the first would have let bare text go on too
(`firstFit_seam`). -/
namespace ShellGrammar

namespace Pattern
variable {p : Pattern} {t u v more : Text} {n : Nat}

/-! ### Repetitions -/

theorem Exact.reach_append (hp : Exact p) (h : p.reach t = some n) (more : Text) :
    p.reach (t ++ more) = some n := by
  have hfront : t.take n <+: t ++ more := (List.take_prefix _ _).trans (List.prefix_append _ _)
  rw [hp (denotes_of_reach h) hfront, List.length_take_of_le (reach_le h)]

theorem Exact.reach_take (hp : Exact p) (h : p.reach t = some n) {k : Nat} (hk : n ≤ k) :
    p.reach (t.take k) = some n := by
  have hfront : t.take n <+: t.take k := List.take_prefix_take_left hk
  rw [hp (denotes_of_reach h) hfront, List.length_take_of_le (reach_le h)]

/-- A repetition that takes a text as a whole takes as much of a longer one, if it cannot go on. -/
theorem Exact.covered_append (hp : Exact p) (hu : covered p.reach 0 u = u.length)
    (hrest : covered p.reach 0 v = 0) : covered p.reach 0 (u ++ v) = u.length := by
  induction hlength : u.length using Nat.strongRecOn generalizing u with
  | ind length ih =>
    subst hlength
    by_cases hmore : ∃ n, p.reach u = some (n + 1)
    · obtain ⟨n, hn⟩ := hmore
      have hle := reach_le hn
      have hlength : (u.drop (n + 1)).length = u.length - (n + 1) := List.length_drop
      rw [covered_of_reach hn] at hu
      rw [covered_of_reach (hp.reach_append hn v), List.drop_append_of_le_length hle,
        ih _ (by omega) (by omega) rfl]
      omega
    · rw [covered_of_not_reach fun n hn => hmore ⟨n, hn⟩] at hu
      rw [List.eq_nil_of_length_eq_zero hu.symm, List.nil_append, hrest]
      rfl

/-- Behind what it takes, a repetition takes nothing. -/
theorem covered_drop (t : Text) : covered p.reach 0 (t.drop (covered p.reach 0 t)) = 0 := by
  induction hlength : t.length using Nat.strongRecOn generalizing t with
  | ind length ih =>
    by_cases hmore : ∃ n, p.reach t = some (n + 1)
    · obtain ⟨n, hn⟩ := hmore
      have hle := reach_le hn
      rw [covered_of_reach hn, ← List.drop_drop]
      exact ih _ (by rw [List.length_drop]; omega) _ rfl
    · have hzero := covered_of_not_reach fun n hn => hmore ⟨n, hn⟩
      rw [hzero, List.drop_zero, hzero]

/-- Of what it takes, a repetition takes all. -/
theorem Exact.covered_take (hp : Exact p) (t : Text) :
    covered p.reach 0 (t.take (covered p.reach 0 t)) = covered p.reach 0 t := by
  induction hlength : t.length using Nat.strongRecOn generalizing t with
  | ind length ih =>
    by_cases hmore : ∃ n, p.reach t = some (n + 1)
    · obtain ⟨n, hn⟩ := hmore
      have hle := reach_le hn
      rw [covered_of_reach hn, covered_of_reach (hp.reach_take hn (Nat.le_add_right _ _)),
        List.drop_take, Nat.add_sub_cancel_left, ih _ (by rw [List.length_drop]; omega) _ rfl]
    · rw [covered_of_not_reach fun n hn => hmore ⟨n, hn⟩]
      rfl

/-- Where a test fails is settled by what is in front of it. -/
theorem covered_one_seam {test : Char → Bool} {w w' : Text} :
    ∀ {u : Text}, covered (one test).reach 0 (u ++ w) < u.length →
      covered (one test).reach 0 (u ++ w') = covered (one test).reach 0 (u ++ w)
  | [], h => by cases h
  | c :: u, h => by
    cases hc : test c with
    | false => simp [covered, reach, hc]
    | true =>
      simp only [List.cons_append, covered, reach, hc, if_true, List.length_cons] at h ⊢
      rw [covered_one_seam (Nat.lt_of_succ_lt_succ h)]

/-! ### What patterns describe -/

theorem mayStart_of_avoids {x : Char} (h : p.avoids x = true) : p.mayStart x = false := by
  induction p with
  | lit l =>
    cases l with
    | nil => rfl
    | cons c l =>
      have hc : x ≠ c := fun heq => by simp [avoids, heq] at h
      simp [mayStart, Ne.symm hc]
  | one test => simpa [avoids, mayStart] using h
  | seq p q ihp ihq | alt p q ihp ihq =>
    obtain ⟨hp, hq⟩ := Bool.and_eq_true_iff.mp h
    simp [mayStart, ihp hp, ihq hq]
  | opt p ih | many p ih => exact ih h

/-- A piece of bare text. -/
def runPiece (test : Char → Bool) : Pattern := .alt (one fun c => test c && c != '\\') escaped

theorem denotes_runPiece {test : Char → Bool} (h : (runPiece test).Denotes u) :
    (∃ c, u = [c] ∧ test c = true ∧ c ≠ '\\') ∨ ∃ d, u = ['\\', d] := by
  cases h with
  | first h =>
    cases h with
    | one hc => exact .inl ⟨_, rfl, by simpa using hc⟩
  | second h =>
    cases h with
    | seq hslash hany =>
      cases hslash
      cases hany
      exact .inr ⟨_, rfl⟩

theorem denotes_escaped (test : Char → Bool) (d : Char) : (runPiece test).Denotes ['\\', d] :=
  .second (.seq (t := ['\\']) (.lit _) (.one rfl))

theorem denotes_char {test : Char → Bool} {c : Char} (hc : test c = true) (hslash : c ≠ '\\') :
    (runPiece test).Denotes [c] :=
  .first (.one (by simp [hc, hslash]))

theorem denotes_many_append (hu : (many p).Denotes u) (hv : (many p).Denotes v) :
    (many p).Denotes (u ++ v) := by
  generalize hmany : many p = r at hu
  induction hu with
  | lit | one | seq | first | second | absent | present => cases hmany
  | stop =>
    cases hmany
    exact hv
  | again hpiece _ _ ihmore =>
    cases hmany
    rw [List.append_assoc]
    exact .again hpiece (ihmore rfl)

theorem denotes_many_one (hu : p.Denotes u) : (many p).Denotes u := by
  have := Denotes.again hu .stop
  rwa [List.append_nil] at this

theorem denotes_run_iff {test : Char → Bool} (hne : u ≠ []) :
    (run test).Denotes u ↔ (many (runPiece test)).Denotes u := by
  constructor
  · intro h
    cases h with
    | seq hfirst hmore => exact .again hfirst hmore
  · intro h
    generalize hmany : many (runPiece test) = r at h
    induction h with
    | lit | one | seq | first | second | absent | present => cases hmany
    | stop => exact absurd rfl hne
    | @again _ first more hfirst hmore _ ihmore =>
      cases hmany
      exact .seq hfirst hmore

/-- In bare text a character is text itself, or it is escaped. -/
theorem denotes_run_split {test : Char → Bool} {c : Char} (hc : c ≠ '\\')
    (h : (many (runPiece test)).Denotes (u ++ c :: v)) :
    (test c = true ∧ (many (runPiece test)).Denotes u) ∨
      ∃ front, u = front ++ ['\\'] ∧ (many (runPiece test)).Denotes front := by
  generalize hmany : many (runPiece test) = r at h
  generalize ht : u ++ c :: v = t at h
  induction h generalizing u with
  | lit | one | seq | first | second | absent | present => cases hmany
  | stop => cases u <;> cases ht
  | @again _ first more hfirst _ _ ihmore =>
    cases hmany
    obtain ⟨d, rfl, hd, hslash⟩ | ⟨d, rfl⟩ := denotes_runPiece hfirst
    · cases u with
      | nil =>
        cases ht
        exact .inl ⟨hd, .stop⟩
      | cons e u =>
        obtain ⟨rfl, ht'⟩ := List.cons.inj ht
        obtain ⟨htest, hu⟩ | ⟨front, rfl, hfront⟩ := ihmore rfl ht'
        · exact .inl ⟨htest, .again hfirst hu⟩
        · exact .inr ⟨e :: front, rfl, .again hfirst hfront⟩
    · match u, ht with
      | [], ht => exact absurd (List.cons.inj ht).1 hc
      | [e], ht =>
        obtain ⟨rfl, -⟩ := List.cons.inj ht
        exact .inr ⟨[], rfl, .stop⟩
      | e :: e' :: u, ht =>
        simp only [List.cons_append, List.nil_append, List.cons.injEq] at ht
        obtain ⟨rfl, rfl, ht'⟩ := ht
        obtain ⟨htest, hu⟩ | ⟨front, rfl, hfront⟩ := ihmore rfl ht'
        · exact .inl ⟨htest, .again hfirst hu⟩
        · exact .inr ⟨_ :: _ :: front, rfl, .again hfirst hfront⟩

theorem denotes_lit {l : Text} (h : (lit l).Denotes u) : u = l := by
  cases h
  rfl

/-- A quoted string has its quotes at its ends and none between them. -/
theorem denotes_singleQuoted (h : Rules.singleQuoted.pattern.Denotes u) :
    ∃ q : Text, u = '\'' :: (q ++ ['\'']) ∧ '\'' ∉ q := by
  cases h with
  | seq hopen hrest =>
    cases hopen
    cases hrest with
    | @seq _ _ q _ hbody hclose =>
      cases hclose
      exact ⟨q, rfl, not_mem_of_avoids (p := many (noneOf ['\''])) rfl hbody⟩

end Pattern

namespace Rules
open Pattern
variable {rules : Rules} {t u v w w' : Text} {a b : Scan}

/-! ### Blank -/

/-- A piece of blank. -/
def blankPiece (cs : Text) : Pattern := .alt (.oneOf cs) (.lit ['\\', '\n'])

theorem exact_blankPiece {cs : Text} (hcs : '\\' ∉ cs) : (blankPiece cs).Exact := by
  refine (exact_one _).alt (exact_lit _) ?_ rfl rfl
  refine (apart_of_opening (c := '\\') rfl ?_)
  simpa [mayStart, oneOf] using hcs

theorem reach_blankPiece {cs : Text} : (blankPiece cs).reach t ≠ some 0 := by
  cases t with
  | nil => simp [blankPiece, reach, oneOf]
  | cons c t =>
    simp only [blankPiece, reach, oneOf]
    by_cases hc : cs.contains c = true
    · simp only [hc, if_true, ne_eq, Option.some.injEq, Nat.one_ne_zero, not_false_eq_true]
    · simp only [hc, Bool.false_eq_true, if_false]
      split <;> simp

theorem blankLength_eq_covered (rules : Rules) {cs : Text} (h : rules.set.blank = some (blankOf cs)) (t : Text) :
    rules.blankLength t = covered (blankPiece cs).reach 0 t := by
  rw [blankLength, h]
  exact reach_some1 reach_blankPiece

/-- Blank in front of something that is not blank. -/
theorem blankLength_append (hu : rules.blankLength u = u.length) (hv : rules.blankLength v = 0) :
    rules.blankLength (u ++ v) = u.length := by
  obtain hnone | ⟨cs, hsome, hcs, -⟩ := blank_eq rules
  · simp only [blankLength, hnone] at hu ⊢
    exact hu
  · rw [blankLength_eq_covered rules hsome] at hu hv ⊢
    exact (exact_blankPiece hcs).covered_append hu hv

theorem blankLength_take (rules : Rules) (t : Text) :
    rules.blankLength (t.take (rules.blankLength t)) = rules.blankLength t := by
  obtain hnone | ⟨cs, hsome, hcs, -⟩ := blank_eq rules
  · simp only [blankLength, hnone]
    rfl
  · simp only [blankLength_eq_covered rules hsome]
    exact (exact_blankPiece hcs).covered_take t

theorem blankLength_drop (rules : Rules) (t : Text) :
    rules.blankLength (t.drop (rules.blankLength t)) = 0 := by
  obtain hnone | ⟨cs, hsome, -⟩ := blank_eq rules
  · simp only [blankLength, hnone]
    rfl
  · simp only [blankLength_eq_covered rules hsome]
    exact covered_drop t

/-- No blank starts with a character that is neither blank nor a backslash. -/
theorem blankLength_cons_of_not_mem {c : Char} (hc : c ∉ [' ', '\t', '\n', '\\']) (t : Text) :
    rules.blankLength (c :: t) = 0 := by
  obtain hnone | ⟨cs, hsome, hcs, hbarren, -⟩ := blank_eq rules
  · simp only [blankLength, hnone]
    rfl
  · rw [blankLength_eq_covered rules hsome]
    refine covered_of_not_reach fun n hn => ?_
    have hmay := mayStart_of_reach hn
    simp only [blankPiece, mayStart, oneOf, List.head?_cons, Bool.or_eq_true, beq_iff_eq,
      Option.some.injEq, List.contains_iff_mem] at hmay
    rcases hmay with hmem | rfl
    · exact hc (List.contains_iff_mem.mp (List.all_eq_true.mp hbarren c hmem))
    · exact hc (by decide)

/-- Whether blank starts at a place is settled by what is in front of a seam, unless this cuts an
escaped newline apart. -/
theorem blankLength_seam (hne : u ≠ []) (hslash : ¬ (u = ['\\'] ∧ w'.head? = some '\n'))
    (h : rules.blankLength (u ++ w) = 0) : rules.blankLength (u ++ w') = 0 := by
  obtain hnone | ⟨cs, hsome, -⟩ := blank_eq rules
  · simp only [blankLength, hnone]
    rfl
  rw [blankLength_eq_covered rules hsome] at h ⊢
  refine covered_of_not_reach fun n hn => ?_
  have hno : ∀ k, (blankPiece cs).reach (u ++ w) ≠ some (k + 1) := by
    intro k hk
    rw [covered_of_reach hk] at h
    omega
  obtain ⟨c, u, rfl⟩ := List.exists_cons_of_ne_nil hne
  simp only [blankPiece, reach, oneOf, List.cons_append] at hn hno
  by_cases hc : cs.contains c = true
  · simp only [hc, if_true] at hno
    exact hno 0 rfl
  · simp only [hc, Bool.false_eq_true, if_false] at hn hno
    simp only [Option.ite_none_right_eq_some] at hn
    obtain ⟨hfront, -⟩ := hn
    cases u with
    | nil =>
      obtain ⟨rest, hrest⟩ := List.isPrefixOf_iff_prefix.mp hfront
      rw [List.nil_append] at hrest
      obtain ⟨hc', hw'⟩ := List.cons.inj hrest
      exact hslash ⟨by rw [← hc'], by rw [← hw']; rfl⟩
    | cons d u =>
      have hfront' : List.isPrefixOf ['\\', '\n'] (c :: (d :: u ++ w)) = true := by
        simpa [List.isPrefixOf] using hfront
      simp only [hfront', if_true] at hno
      exact hno 1 rfl

theorem commentLength_cons (t : Text) : commentLength ('#' :: t) =
    1 + covered (noneOf ['\n']).reach 0 t := by
  simp [commentLength, comment, reach, List.isPrefixOf]

theorem commentLength_of_ne {c : Char} (hc : c ≠ '#') (t : Text) : commentLength (c :: t) = 0 := by
  simp [commentLength, comment, reach, List.isPrefixOf, Ne.symm hc]

theorem commentLength_seam (h : commentLength (u ++ w) < u.length) :
    commentLength (u ++ w') = commentLength (u ++ w) := by
  cases u with
  | nil => cases h
  | cons c u =>
    by_cases hc : c = '#'
    · subst hc
      rw [List.cons_append, commentLength_cons] at h
      rw [List.cons_append, List.cons_append, commentLength_cons, commentLength_cons]
      rw [List.length_cons] at h
      exact congrArg (1 + ·) (covered_one_seam (by rw [noneOf] at h; omega))
    · rw [List.cons_append, List.cons_append, commentLength_of_ne hc, commentLength_of_ne hc]

/-- How much blank there is in front of a seam is settled by what is there, unless this ends in a
backslash behind it. -/
theorem blankLength_front
    (hslash : ¬ (u.drop (rules.blankLength (u ++ w)) = ['\\'] ∧ w'.head? = some '\n'))
    (h : rules.blankLength (u ++ w) < u.length) :
    rules.blankLength (u ++ w') = rules.blankLength (u ++ w) := by
  have hsplit : ∀ r : Text, (u ++ r).drop (rules.blankLength (u ++ w)) =
      u.drop (rules.blankLength (u ++ w)) ++ r :=
    fun r => List.drop_append_of_le_length (by omega)
  have hfront : (u ++ w).take (rules.blankLength (u ++ w)) =
      u.take (rules.blankLength (u ++ w)) := List.take_append_of_le_length (by omega)
  have hzero : rules.blankLength (u.drop (rules.blankLength (u ++ w)) ++ w') = 0 := by
    refine blankLength_seam (w := w) ?_ hslash ?_
    · intro hnil
      have := List.drop_eq_nil_iff.mp hnil
      omega
    · rw [← hsplit]
      exact blankLength_drop _ _
  have hall := blankLength_take rules (u ++ w)
  rw [hfront] at hall
  have hlength : (u.take (rules.blankLength (u ++ w))).length = rules.blankLength (u ++ w) :=
    List.length_take_of_le (by omega)
  have happend := blankLength_append (hall.trans hlength.symm) hzero
  rwa [← List.append_assoc, List.take_append_drop, hlength] at happend

theorem blankLength_le_skipLength (rules : Rules) (a : Scan) :
    rules.blankLength a.rest ≤ rules.skipLength a := by
  rw [skipLength]
  split
  · exact Nat.le_add_right _ _
  · exact Nat.le_refl _

/-- What is skipped in front of a seam is settled by what is there. -/
theorem skipLength_seam (ha : a.rest = u ++ w) (hb : b.rest = u ++ w')
    (hmay : commentMayStart 0 b = commentMayStart 0 a)
    (hslash : ¬ (u.drop (rules.blankLength (u ++ w)) = ['\\'] ∧ w'.head? = some '\n'))
    (h : rules.skipLength a < u.length) : rules.skipLength b = rules.skipLength a := by
  have hle : rules.blankLength (u ++ w) ≤ rules.skipLength a := ha ▸ blankLength_le_skipLength rules a
  have hsplit : ∀ r : Text, (u ++ r).drop (rules.blankLength (u ++ w)) =
      u.drop (rules.blankLength (u ++ w)) ++ r :=
    fun r => List.drop_append_of_le_length (by omega)
  have hblank := blankLength_front hslash (Nat.lt_of_le_of_lt hle h)
  have hmay' : ∀ n, commentMayStart n b = commentMayStart n a := by
    intro n
    cases n with
    | zero => exact hmay
    | succ n => rfl
  simp only [skipLength, ha, hb, hblank, hmay', hsplit] at h ⊢
  split
  · rename_i hcomment
    rw [if_pos hcomment] at h
    rw [commentLength_seam (w := w) (by rw [List.length_drop]; omega)]
  · rfl

/-! ### Tokens -/

/-- Where both take as much, the same rule is the first to fit. -/
theorem kind_of_firstFit {rs : List Rule} (hgreedy : ∀ r ∈ rs, r.pattern.Greedy) {kind kind' : Kind}
    {n : Nat} (ht : firstFit rs t = some (kind, n)) (hu : firstFit rs u = some (kind', n))
    (hsame : t.take n = u.take n) : kind' = kind := by
  induction rs with
  | nil => cases ht
  | cons r rs ih =>
    -- A rule that fits the one text with what they share fits the other.
    have hfits : ∀ {t u : Text}, r.pattern.reach? t = some n → t.take n = u.take n →
        r.pattern.reach? u ≠ none := by
      intro t u hreach hsame hnone
      obtain ⟨hreach, hpos⟩ := reach?_eq_some_iff.mp hreach
      have hdenotes := denotes_of_reach hreach
      obtain ⟨m, hm, hle⟩ :=
        hgreedy r List.mem_cons_self hdenotes (t := u) (by rw [hsame]; exact List.take_prefix _ _)
      rw [List.length_take_of_le (reach_le hreach)] at hle
      rw [reach?_eq_some_iff.mpr ⟨hm, by omega⟩] at hnone
      cases hnone
    rw [firstFit] at ht hu
    cases hrt : r.pattern.reach? t with
    | some m =>
      simp only [hrt, Option.some.injEq, Prod.mk.injEq] at ht
      obtain ⟨rfl, rfl⟩ := ht
      cases hru : r.pattern.reach? u with
      | some m' =>
        simp only [hru, Option.some.injEq, Prod.mk.injEq] at hu
        exact hu.1.symm
      | none => exact absurd hru (hfits hrt hsame)
    | none =>
      simp only [hrt] at ht
      cases hru : r.pattern.reach? u with
      | some m' =>
        simp only [hru, Option.some.injEq, Prod.mk.injEq] at hu
        obtain ⟨-, rfl⟩ := hu
        exact absurd hrt (hfits hru hsame.symm)
      | none =>
        simp only [hru] at hu
        exact ih (fun r hr => hgreedy r (List.mem_cons_of_mem _ hr)) ht hu

/-- What is cut off one text is cut off another that starts with it, if no rule describes more of
that. -/
theorem firstFit_of_longest {kind : Kind} {body : Text}
    (h : firstFit rules.set.rules (body ++ w) = some (kind, body.length))
    (hmore : ∀ r ∈ rules.set.rules, ∀ z, z ≠ [] → z <+: w' → ¬ r.pattern.Denotes (body ++ z)) :
    firstFit rules.set.rules (body ++ w') = some (kind, body.length) := by
  obtain ⟨r, hr, -, hreach⟩ := firstFit_mem h
  obtain ⟨hreach, hpos⟩ := reach?_eq_some_iff.mp hreach
  have hdenotes : r.pattern.Denotes body := by
    have := denotes_of_reach hreach
    rwa [List.take_left] at this
  obtain ⟨kind', n, hfit⟩ : ∃ kind' n, firstFit rules.set.rules (body ++ w') = some (kind', n) := by
    cases hfit : firstFit rules.set.rules (body ++ w') with
    | some fit => exact ⟨fit.1, fit.2, rfl⟩
    | none =>
      obtain ⟨m, hm, hle⟩ := greedy_of_mem hr hdenotes (List.prefix_append body w')
      have hno := reach?_of_firstFit hfit r hr
      rw [reach?_eq_some_iff.mpr ⟨hm, by omega⟩] at hno
      cases hno
  have hle : body.length ≤ n :=
    firstFit_longest (fun _ => greedy_of_mem) (before_rules rules) hfit hr hdenotes
      (List.prefix_append _ _)
  obtain ⟨r', hr', -, hreach'⟩ := firstFit_mem hfit
  have hreach' := (reach?_eq_some_iff.mp hreach').1
  have htake : (body ++ w').take n = body ++ w'.take (n - body.length) := by
    rw [List.take_append, List.take_of_length_le hle]
  have hn : n = body.length := by
    refine Nat.le_antisymm (Nat.le_of_not_lt fun hlt => ?_) hle
    have hlong := reach_le hreach'
    rw [List.length_append] at hlong
    refine hmore r' hr' (w'.take (n - body.length)) ?_ (List.take_prefix _ _) ?_
    · intro hnil
      have := congrArg List.length hnil
      rw [List.length_take, List.length_nil] at this
      omega
    · rw [← htake]
      exact denotes_of_reach hreach'
  subst hn
  rw [kind_of_firstFit (fun _ => greedy_of_mem) h hfit (by rw [List.take_left, List.take_left])] at hfit
  exact hfit

/-- Blank characters. -/
def spaces : Text := [' ', '\t', '\n']

/-- The operators of more than one character that take a `&`, but not as the first. -/
def ampOps : List Text := [['&', '&'], ['|', '&']]

/-- Where such an operator has its `&`, one other character stands in front of it. -/
theorem front_of_ampOp {body v z : Text} (hbody : body ≠ [])
    (h : body ++ (v ++ '&' :: z) ∈ ['&', '='] :: ampOps) : v = [] ∧ (body = ['&'] ∨ body = ['|']) := by
  obtain ⟨c, body, rfl⟩ := List.exists_cons_of_ne_nil hbody
  have hone : ∀ {d : Char}, body ++ (v ++ '&' :: z) = [d] → body = [] ∧ v = [] ∧ d = '&' := by
    intro d hd
    rw [List.append_eq_singleton_iff] at hd
    obtain ⟨rfl, hd⟩ | ⟨-, hd⟩ := hd
    · rw [List.append_eq_singleton_iff] at hd
      obtain ⟨rfl, hd⟩ | ⟨-, hd⟩ := hd
      · exact ⟨rfl, rfl, (List.cons.inj hd).1.symm⟩
      · exact absurd hd (List.cons_ne_nil _ _)
    · exact absurd hd (List.append_ne_nil_of_right_ne_nil _ (List.cons_ne_nil _ _))
  simp only [ampOps, List.mem_cons, List.not_mem_nil, or_false, List.cons_append, List.cons.injEq] at h
  rcases h with ⟨-, h⟩ | ⟨rfl, h⟩ | ⟨rfl, h⟩
  · exact absurd (hone h).2.2 (by decide)
  · obtain ⟨rfl, rfl, -⟩ := hone h
    exact ⟨rfl, .inl rfl⟩
  · obtain ⟨rfl, rfl, -⟩ := hone h
    exact ⟨rfl, .inr rfl⟩

/-- The rules that can take more than one character and among them a blank one, or a `&` behind the
first. -/
theorem filter_seams (rules : Rules) {x : Char} (hx : x ∈ '&' :: spaces) :
    rules.set.rules.filter (fun r => !r.pattern.avoids x && !r.pattern.isShort) =
      match rules with
      | command => (if x = '&' then [⟨.lit ['&', '&'], .andAnd⟩, ⟨.lit ['|', '&'], .pipeAmp⟩] else []) ++
        [singleQuoted, ⟨.run command.text, .str⟩]
      | param => []
      | arith => if x = '&' then [⟨.lit ['&', '&'], .andAnd⟩, ⟨.lit ['&', '='], .andAssign⟩] else []
      | doubleQuote => [⟨.run doubleQuote.text, .str⟩]
      | wordUntilBrace => [singleQuoted, ⟨.run wordUntilBrace.text, .str⟩]
      | wordUntilSlash => [singleQuoted, ⟨.run wordUntilSlash.text, .str⟩] := by
  simp only [spaces, List.mem_cons, List.not_mem_nil, or_false] at hx
  rcases hx with rfl | rfl | rfl | rfl <;> cases rules <;> rfl

theorem rule_of_seam {x : Char} (hx : x ∈ '&' :: spaces) {r : Rule} (hr : r ∈ rules.set.rules) :
    r.pattern.avoids x = true ∨ r.pattern.isShort = true ∨ r = singleQuoted ∨
      r = ⟨.run rules.text, .str⟩ ∨
      (x = '&' ∧ ∃ l ∈ ['&', '='] :: ampOps, r.pattern = .lit l) := by
  by_cases havoids : r.pattern.avoids x = true
  · exact .inl havoids
  by_cases hshort : r.pattern.isShort = true
  · exact .inr (.inl hshort)
  have hmem : r ∈ rules.set.rules.filter (fun r => !r.pattern.avoids x && !r.pattern.isShort) := by
    rw [List.mem_filter]
    exact ⟨hr, by simp [havoids, hshort]⟩
  rw [filter_seams rules hx] at hmem
  cases rules with
  | param => cases hmem
  | arith =>
    dsimp only at hmem
    split at hmem
    · rename_i hamp
      simp only [List.mem_cons, List.not_mem_nil, or_false] at hmem
      rcases hmem with rfl | rfl
      · exact .inr (.inr (.inr (.inr ⟨hamp, _, by decide, rfl⟩)))
      · exact .inr (.inr (.inr (.inr ⟨hamp, _, by decide, rfl⟩)))
    · cases hmem
  | doubleQuote => exact .inr (.inr (.inr (.inl (List.mem_singleton.mp hmem))))
  | command =>
    obtain hops | hmem := List.mem_append.mp hmem
    · split at hops
      · rename_i hamp
        simp only [List.mem_cons, List.not_mem_nil, or_false] at hops
        rcases hops with rfl | rfl
        · exact .inr (.inr (.inr (.inr ⟨hamp, _, by decide, rfl⟩)))
        · exact .inr (.inr (.inr (.inr ⟨hamp, _, by decide, rfl⟩)))
      · cases hops
    · simp only [List.mem_cons, List.not_mem_nil, or_false] at hmem
      exact .inr (.inr (hmem.imp id .inl))
  | wordUntilBrace | wordUntilSlash =>
    simp only [List.mem_cons, List.not_mem_nil, or_false] at hmem
    exact .inr (.inr (hmem.imp id .inl))

/-- What is cut off where a quote stands is a quoted string, if the table has a rule for them. -/
theorem quoted_of_firstFit {kind : Kind} {body : Text} (hmem : singleQuoted ∈ rules.set.rules)
    (h : firstFit rules.set.rules (body ++ w) = some (kind, body.length))
    (hquote : body.head? = some '\'') : ∃ q : Text, body = '\'' :: (q ++ ['\'']) := by
  obtain ⟨r, hr, -, hreach⟩ := firstFit_mem h
  obtain ⟨body, rfl⟩ := List.head?_eq_some_iff.mp hquote
  have hmay : r.pattern.mayStart '\'' = true := by
    apply Bool.of_not_eq_false
    intro hno
    rw [List.cons_append, reach?_eq_none_of_mayStart hno] at hreach
    cases hreach
  have hself : r ∈ rules.set.rules.filter (fun r => r.pattern.mayStart '\'') :=
    List.mem_filter.mpr ⟨hr, hmay⟩
  rw [filter_quote rules hmem, List.mem_singleton] at hself
  have hdenotes := denotes_of_reach (reach?_eq_some_iff.mp hreach).1
  rw [hself, List.take_left] at hdenotes
  obtain ⟨q, hq, -⟩ := denotes_singleQuoted hdenotes
  exact ⟨q, hq⟩

/-- A text that is parted like this: behind the seam stands something of one text, and a blank
character or a `&` of the other. -/
structure Parts (rules : Rules) (body v w : Text) (x : Char) : Prop where
  mem : x ∈ '&' :: spaces
  /-- There is something to escape where it is escaped. -/
  escaped : (body ++ v).getLast? = some '\\' → w ≠ []
  /-- The operator in front of a `&` is none that goes on with it. -/
  amp : x = '&' → v = [] → body ≠ ['&'] ∧ body ≠ ['|']
  /-- Bare text that could go on now could have gone on. -/
  run : v = [] → rules.text x = true → ⟨.run rules.text, .str⟩ ∈ rules.set.rules →
    (many (runPiece rules.text)).Denotes body →
      ∃ u, u ≠ [] ∧ u <+: w ∧ (many (runPiece rules.text)).Denotes u

/-- A token that ends at a seam or before is the same in both texts. -/
theorem firstFit_seam {kind : Kind} {body more : Text} {x : Char} (hparts : Parts rules body v w x)
    (h : firstFit rules.set.rules (body ++ (v ++ w)) = some (kind, body.length)) :
    firstFit rules.set.rules (body ++ (v ++ x :: more)) = some (kind, body.length) := by
  have hpos : 0 < body.length := firstFit_pos h
  have hbody : body ≠ [] := List.ne_nil_of_length_pos hpos
  -- Nothing longer is described where the texts are still the same.
  have hbefore : ∀ r ∈ rules.set.rules, ∀ z, z ≠ [] → z <+: v ++ w → ¬ r.pattern.Denotes (body ++ z) := by
    intro r hr z hz hfront hdenotes
    have hle := firstFit_longest (fun _ => greedy_of_mem) (before_rules rules) h hr hdenotes
      ((List.prefix_append_right_inj body).mpr hfront)
    rw [List.length_append] at hle
    exact hz (List.eq_nil_of_length_eq_zero (by omega))
  refine firstFit_of_longest h fun r hr z hz hfront hdenotes => ?_
  obtain hfront | ⟨z, rfl⟩ : z <+: v ∨ ∃ z', z = v ++ x :: z' := by
    obtain hfront' | ⟨z', rfl⟩ :=
      List.prefix_or_prefix_of_prefix hfront (List.prefix_append v (x :: more))
    · exact .inl hfront'
    · cases z' with
      | nil =>
        rw [List.append_nil]
        exact .inl List.prefix_rfl
      | cons d z' =>
        obtain ⟨rest, hrest⟩ := (List.prefix_append_right_inj v).mp hfront
        obtain ⟨rfl, -⟩ := List.cons.inj hrest
        exact .inr ⟨z', rfl⟩
  · exact hbefore r hr z hz (hfront.trans (List.prefix_append _ _)) hdenotes
  have hmem : x ∈ body ++ (v ++ x :: z) := by simp
  obtain havoids | hshort | rfl | rfl | ⟨rfl, l, hl, hlit⟩ := rule_of_seam hparts.mem hr
  · exact not_mem_of_avoids havoids hdenotes hmem
  · have hlength := length_of_short hshort hdenotes
    simp only [List.length_append, List.length_cons] at hlength
    omega
  · -- What it takes from the one text is closed, so that nothing more can belong to it.
    obtain ⟨q, hq, hno⟩ := denotes_singleQuoted hdenotes
    obtain ⟨q', hq'⟩ := quoted_of_firstFit hr h (by
      obtain ⟨d, body, rfl⟩ := List.exists_cons_of_ne_nil hbody
      rw [(List.cons.inj hq).1]
      rfl)
    rw [hq', List.cons_append, List.append_assoc] at hq
    have hsame := congrArg List.dropLast (List.cons.inj hq).2
    rw [List.dropLast_concat] at hsame
    refine hno (hsame ▸ ?_)
    rw [List.dropLast_append_of_ne_nil (by simp)]
    refine List.mem_append_right _ ?_
    rw [List.singleton_append, List.dropLast_cons_of_ne_nil (by simp)]
    exact List.mem_cons_self
  · have hslash : x ≠ '\\' := by
      rintro rfl
      exact absurd hparts.mem (by decide)
    have hmany := (denotes_run_iff (by simp [hbody])).mp hdenotes
    rw [← List.append_assoc] at hmany
    obtain ⟨htest, hmany⟩ | ⟨front, hfront', hmany⟩ := denotes_run_split hslash hmany
    · by_cases hv : v = []
      · subst hv
        rw [List.append_nil] at hmany
        obtain ⟨u, hu, hfront', hdenotes'⟩ := hparts.run rfl htest hr hmany
        exact hbefore _ hr u hu hfront'
          ((denotes_run_iff (by simp [hbody])).mpr (denotes_many_append hmany hdenotes'))
      · exact hbefore _ hr v hv (List.prefix_append _ _) ((denotes_run_iff (by simp [hbody])).mpr hmany)
    · obtain ⟨d, w, rfl⟩ := List.exists_cons_of_ne_nil
        (hparts.escaped (by rw [hfront', List.getLast?_concat]))
      refine hbefore _ hr (v ++ [d]) (by simp) ⟨w, by simp⟩ ((denotes_run_iff (by simp)).mpr ?_)
      rw [← List.append_assoc, hfront', List.append_assoc]
      exact denotes_many_append hmany (denotes_many_one (denotes_escaped _ d))
  · rw [hlit] at hdenotes
    obtain ⟨hv, hop⟩ := front_of_ampOp hbody (denotes_lit hdenotes ▸ hl)
    obtain ⟨hamp, hpipe⟩ := hparts.amp rfl hv
    exact hop.elim hamp hpipe

/-- A token in front of a seam is there in both texts. -/
theorem tokenAt_seam {t : Token} {more : Text} {x : Char} (ha : a.rest = t.text ++ (v ++ w))
    (hb : b.rest = t.text ++ (v ++ x :: more)) (hmay : commentMayStart 0 b = commentMayStart 0 a)
    (hparts : Parts rules t.body v w x) (hslash : t.body ++ v ≠ ['\\'])
    (ht : rules.tokenAt a = .ok t) (hbody : t.body ≠ []) :
    rules.tokenAt b = .ok (t.at b) := by
  obtain ⟨-, rfl⟩ | ⟨kind, length, hfit, rfl⟩ := tokenAt_cases ht
  · exact absurd rfl hbody
  obtain ⟨hblank, hlength⟩ := length_cut kind hfit
  generalize htoken : cut kind (rules.skipLength a) length a = t at ha hb hslash hbody hparts hblank hlength
  have hkind : t.kind = kind := htoken ▸ rfl
  have hpos := List.length_pos_iff.mpr hbody
  have hskip : rules.skipLength b = rules.skipLength a := by
    have ha' : a.rest = (t.text ++ v) ++ w := by rw [ha, List.append_assoc]
    have hb' : b.rest = (t.text ++ v) ++ x :: more := by rw [hb, List.append_assoc]
    refine skipLength_seam ha' hb' hmay ?_ ?_
    · -- Less than all blank is in front of the token, or all of it.
      rintro ⟨hdrop, -⟩
      have hle := blankLength_le_skipLength rules a
      rw [ha', ← hblank] at hle
      generalize rules.blankLength (t.text ++ v ++ w) = k at hle hdrop
      rw [Token.text, List.append_assoc, List.drop_append_of_le_length hle,
        List.append_eq_singleton_iff] at hdrop
      obtain ⟨-, hdrop⟩ | ⟨-, hnil⟩ := hdrop
      · exact hslash hdrop
      · exact hbody (List.append_eq_nil_iff.mp hnil).1
    · rw [List.length_append, Token.text, List.length_append]
      omega
  have hdrop : ∀ r, (t.text ++ r).drop (rules.skipLength a) = t.body ++ r := by
    intro r
    rw [Token.text, List.append_assoc, ← hblank, List.drop_left]
  rw [ha, hdrop, ← hlength] at hfit
  have hfit' : firstFit rules.set.rules (t.body ++ (v ++ x :: more)) = some (kind, t.body.length) :=
    firstFit_seam hparts hfit
  rw [← hdrop, ← hb, ← hskip] at hfit'
  rw [tokenAt_of_fit hfit', hskip, cut, hb, hdrop, hlength, ← hlength, List.take_left, Token.text,
    List.append_assoc, ← hblank, List.take_left, ← hkind]
  rfl

end Rules

end ShellGrammar
