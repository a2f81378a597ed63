import ShellGrammar.Proofs.Rules.Behind
import ShellGrammar.Proofs.Rules.Reach

/-! Which texts a pattern describes.

`Pattern.reach` makes every choice once, from left to right. `Denotes` says what a pattern
describes whichever choices are made, so it is what a reader of the tables has in mind. What is
taken is described (`denotes_of_reach`); the other way round a pattern may take less than it
could have. It is `Greedy` if it never does: where the text starts with something that the
pattern describes, it takes at least that much.

Parts that describe nothing that starts with something else they describe are `Exact`, and
repetitions of these are greedy (`Exact.many`). In a sequence the first part has to end where
the second starts (`Stops`), and of two alternatives the first must not cut the second short
(`Before`). -/
namespace ShellGrammar

/-- Of two texts one after the other at the front of a text, the second is at the front of what
is left behind the first. -/
theorem prefix_append_iff {t u v : Text} : u ++ v <+: t ↔ u <+: t ∧ v <+: t.drop u.length := by
  constructor
  · rintro ⟨rest, rfl⟩
    rw [List.append_assoc, List.drop_left]
    exact ⟨List.prefix_append _ _, List.prefix_append _ _⟩
  · rintro ⟨⟨rest, rfl⟩, hv⟩
    rw [List.drop_left] at hv
    exact List.prefix_append_right_inj u |>.mpr hv

namespace Pattern
variable {p p' q : Pattern} {t u : Text} {c : Char} {n : Nat}

/-- A pattern describes a text as a whole. -/
inductive Denotes : Pattern → Text → Prop where
  | lit (l : Text) : Denotes (.lit l) l
  | one {test : Char → Bool} {c : Char} (h : test c = true) : Denotes (.one test) [c]
  | seq {p q : Pattern} {t u : Text} (hp : Denotes p t) (hq : Denotes q u) :
      Denotes (.seq p q) (t ++ u)
  | first {p q : Pattern} {t : Text} (hp : Denotes p t) : Denotes (.alt p q) t
  | second {p q : Pattern} {t : Text} (hq : Denotes q t) : Denotes (.alt p q) t
  | absent {p : Pattern} : Denotes (.opt p) []
  | present {p : Pattern} {t : Text} (hp : Denotes p t) : Denotes (.opt p) t
  | stop {p : Pattern} : Denotes (.many p) []
  | again {p : Pattern} {t u : Text} (hp : Denotes p t) (hmore : Denotes (.many p) u) :
      Denotes (.many p) (t ++ u)

/-! ### What is taken is described -/

theorem covered_of_reach (h : p.reach t = some (n + 1)) :
    covered p.reach 0 t = n + 1 + covered p.reach 0 (t.drop (n + 1)) := by
  have hle := reach_le h
  cases t with
  | nil => cases hle
  | cons c t =>
    simp only [covered, h, covered_left n (Nat.le_of_succ_le_succ hle), List.drop_succ_cons]
    omega

theorem covered_of_not_reach (h : ∀ n, p.reach t ≠ some (n + 1)) : covered p.reach 0 t = 0 := by
  cases t with
  | nil => rfl
  | cons c t =>
    unfold covered
    split
    · rename_i k hk
      exact absurd hk (h k)
    · rfl

theorem denotes_of_covered (h : ∀ {t n}, p.reach t = some n → p.Denotes (t.take n)) (t : Text) :
    (many p).Denotes (t.take (covered p.reach 0 t)) := by
  induction hlength : t.length using Nat.strongRecOn generalizing t with
  | ind length ih =>
    by_cases hmore : ∃ n, p.reach t = some (n + 1)
    · obtain ⟨n, hn⟩ := hmore
      have hle := reach_le hn
      rw [covered_of_reach hn, List.take_add]
      exact .again (h hn) (ih _ (by rw [List.length_drop]; omega) _ rfl)
    · rw [covered_of_not_reach fun n hn => hmore ⟨n, hn⟩]
      exact .stop

theorem denotes_of_reach (h : p.reach t = some n) : p.Denotes (t.take n) := by
  induction p generalizing t n with
  | lit l =>
    simp only [reach, Option.ite_none_right_eq_some, Option.some.injEq] at h
    obtain ⟨hfront, rfl⟩ := h
    rw [← List.prefix_iff_eq_take.mp (List.isPrefixOf_iff_prefix.mp hfront)]
    exact .lit l
  | one test =>
    cases t with
    | nil => cases h
    | cons c t =>
      simp only [reach, Option.ite_none_right_eq_some, Option.some.injEq] at h
      obtain ⟨hc, rfl⟩ := h
      exact .one hc
  | seq p q ihp ihq =>
    simp only [reach, Option.bind_eq_bind, Option.bind_eq_some_iff, Option.pure_def,
      Option.some.injEq] at h
    obtain ⟨a, ha, b, hb, rfl⟩ := h
    rw [List.take_add]
    exact .seq (ihp ha) (ihq hb)
  | alt p q ihp ihq =>
    unfold reach at h
    split at h
    · rename_i m hm
      exact .first (ihp (hm.trans h))
    · exact .second (ihq h)
  | opt p ih =>
    cases hp : p.reach t with
    | none =>
      simp only [reach, hp, Option.getD_none, Option.some.injEq] at h
      subst h
      exact .absent
    | some m =>
      simp only [reach, hp, Option.getD_some] at h
      exact .present (ih (hp.trans h))
  | many p ih =>
    cases h
    exact denotes_of_covered ih t

/-! ### First characters -/

theorem nullable_of_denotes (h : p.Denotes []) : p.nullable = true := by
  generalize hu : ([] : Text) = u at h
  induction h with
  | lit l => rw [← hu]; rfl
  | one _ => cases hu
  | seq _ _ ihp ihq =>
    obtain ⟨rfl, rfl⟩ := List.append_eq_nil_iff.mp hu.symm
    rw [nullable, ihp rfl, ihq rfl, Bool.and_self]
  | first _ ih => rw [nullable, ih hu, Bool.true_or]
  | second _ ih => rw [nullable, ih hu, Bool.or_true]
  | absent | present _ _ | stop | again _ _ _ _ => rfl

theorem mayStart_of_denotes (h : p.Denotes (c :: t)) : p.mayStart c = true := by
  generalize hu : c :: t = u at h
  induction h generalizing t with
  | lit l =>
    rw [mayStart, ← hu]
    exact BEq.rfl
  | one htest =>
    cases hu
    exact htest
  | @seq _ _ front _ hp _ ihp ihq =>
    cases front with
    | nil => rw [mayStart, nullable_of_denotes hp, ihq hu, Bool.true_and, Bool.or_true]
    | cons d front => rw [mayStart, ihp (by rw [(List.cons.inj hu).1]), Bool.true_or]
  | first _ ih => rw [mayStart, ih hu, Bool.true_or]
  | second _ ih => rw [mayStart, ih hu, Bool.or_true]
  | absent | stop => cases hu
  | present _ ih => exact ih hu
  | @again _ front _ _ _ ihp ihmore =>
    cases front with
    | nil => exact ihmore hu
    | cons d front => exact ihp (by rw [(List.cons.inj hu).1])

/-- What a pattern describes has no character that the pattern avoids. -/
theorem not_mem_of_avoids {x : Char} (h : p.avoids x = true) (hu : p.Denotes u) : x ∉ u := by
  induction hu with
  | lit l => simpa [avoids] using h
  | one hc =>
    intro hmem
    rw [List.mem_singleton.mp hmem, avoids, hc] at h
    cases h
  | seq _ _ ihp ihq =>
    obtain ⟨hp, hq⟩ := Bool.and_eq_true_iff.mp h
    exact fun hmem => (List.mem_append.mp hmem).elim (ihp hp) (ihq hq)
  | first _ ih => exact ih (Bool.and_eq_true_iff.mp h).1
  | second _ ih => exact ih (Bool.and_eq_true_iff.mp h).2
  | absent | stop => exact List.not_mem_nil
  | present _ ih => exact ih h
  | again _ _ ihp ihmore =>
    exact fun hmem => (List.mem_append.mp hmem).elim (ihp h) (ihmore h)

/-- No text starts both as one pattern and as the other. -/
def Apart (p q : Pattern) : Prop := ∀ c, p.mayStart c = true → q.mayStart c = false

/-- Where a text starts with what one pattern describes, one that is apart takes nothing. -/
theorem Apart.reach_ne (h : Apart p q) (hu : q.Denotes u) (hne : u ≠ []) (hfront : u <+: t) (n : Nat) :
    p.reach t ≠ some (n + 1) := by
  intro hreach
  obtain ⟨c, u, rfl⟩ := List.exists_cons_of_ne_nil hne
  obtain ⟨rest, rfl⟩ := hfront
  have hno := h c (mayStart_of_reach hreach)
  rw [mayStart_of_denotes hu] at hno
  cases hno

/-! ### Patterns that take one text and no other -/

/-- Takes what it describes wherever that stands at the front. -/
def Exact (p : Pattern) : Prop :=
  ∀ ⦃t u : Text⦄, p.Denotes u → u <+: t → p.reach t = some u.length

theorem exact_lit (l : Text) : Exact (lit l) := by
  intro t u hu hfront
  cases hu
  rw [reach, if_pos (List.isPrefixOf_iff_prefix.mpr hfront)]

theorem exact_one (test : Char → Bool) : Exact (one test) := by
  intro t u hu hfront
  cases hu with
  | one hc =>
    obtain ⟨rest, rfl⟩ := hfront
    exact if_pos hc

/-- A pattern takes all that it describes where the other follows it. -/
def Stops (p q : Pattern) : Prop :=
  ∀ ⦃t u v : Text⦄, p.Denotes u → q.Denotes v → u ++ v <+: t → p.reach t = some u.length

theorem Exact.stops (h : Exact p) : Stops p q := fun _ _ _ hu _ hfront =>
  h hu (prefix_append_iff.mp hfront).1

theorem reach_seq {a b : Nat} (ha : p.reach t = some a) (hb : q.reach (t.drop a) = some b) :
    (seq p q).reach t = some (a + b) := by
  simp only [reach, ha, hb, Option.bind_eq_bind, Option.bind_some, Option.pure_def]

theorem Exact.seq (hp : Exact p) (hq : Exact q) : Exact (seq p q) := by
  intro t u hu hfront
  cases hu with
  | seq hfirst hsecond =>
    obtain ⟨hfirst', hsecond'⟩ := prefix_append_iff.mp hfront
    rw [List.length_append]
    exact reach_seq (hp hfirst hfirst') (hq hsecond hsecond')

theorem Exact.alt (hp : Exact p) (hq : Exact q) (hapart : Apart p q) (hpnull : p.nullable = false)
    (hqnull : q.nullable = false) : Exact (alt p q) := by
  intro t u hu hfront
  cases hu with
  | first hu => simp only [reach, hp hu hfront]
  | second hu =>
    have hne : u ≠ [] := by
      rintro rfl
      exact Bool.eq_false_iff.mp hqnull (nullable_of_denotes hu)
    have hnone : p.reach t = none := by
      cases hr : p.reach t with
      | none => rfl
      | some n =>
        cases n with
        | zero => exact absurd (nullable_of_reach hr) (Bool.eq_false_iff.mp hpnull)
        | succ n => exact absurd hr (hapart.reach_ne hu hne hfront n)
    simp only [reach, hnone, hq hu hfront]

/-- A repetition ends where something follows that starts like none of its pieces. -/
theorem Exact.stops_many (hp : Exact p) (hapart : Apart p q) (hnull : q.nullable = false) :
    Stops (many p) q := by
  intro t u v hu hv hfront
  rw [reach]
  generalize hmany : many p = r at hu
  induction hu generalizing t with
  | lit | one | seq | first | second | absent | present => cases hmany
  | stop =>
    have hne : v ≠ [] := by
      rintro rfl
      exact Bool.eq_false_iff.mp hnull (nullable_of_denotes hv)
    rw [covered_of_not_reach (hapart.reach_ne hv hne hfront)]
    rfl
  | @again _ piece more hpiece _ _ ihmore =>
    cases hmany
    rw [List.append_assoc, prefix_append_iff] at hfront
    have hcovered := Option.some.inj (ihmore hfront.2 rfl)
    have hreach := hp hpiece hfront.1
    cases piece with
    | nil => exact congrArg some hcovered
    | cons d piece =>
      rw [covered_of_reach hreach, List.length_append]
      rw [List.length_cons] at hcovered ⊢
      rw [hcovered]

theorem Exact.stops_seq (hp : Exact p) (h : Stops p' q) : Stops (Pattern.seq p p') q := by
  intro t u v hu hv hfront
  cases hu with
  | seq hfirst hsecond =>
    rw [List.append_assoc, prefix_append_iff] at hfront
    rw [List.length_append]
    exact reach_seq (hp hfirst hfront.1) (h hsecond hv hfront.2)

/-! ### Patterns that take as much as they can -/

/-- Takes at least what it describes wherever that stands at the front. -/
def Greedy (p : Pattern) : Prop :=
  ∀ ⦃t u : Text⦄, p.Denotes u → u <+: t → ∃ n, p.reach t = some n ∧ u.length ≤ n

/-- Where one pattern takes something, the other describes nothing longer. -/
def Before (p q : Pattern) : Prop :=
  ∀ ⦃t u : Text⦄ ⦃n : Nat⦄, p.reach? t = some n → q.Denotes u → u <+: t → u.length ≤ n

theorem Exact.greedy (h : Exact p) : Greedy p := fun _ _ hu hfront =>
  ⟨_, h hu hfront, Nat.le_refl _⟩

theorem Stops.seq (h : Stops p q) (hq : Greedy q) : Greedy (seq p q) := by
  intro t u hu hfront
  cases hu with
  | seq hfirst hsecond =>
    obtain ⟨n, hn, hle⟩ := hq hsecond (prefix_append_iff.mp hfront).2
    refine ⟨_, reach_seq (h hfirst hsecond hfront) hn, ?_⟩
    rw [List.length_append]
    exact Nat.add_le_add_left hle _

theorem Exact.many (hp : Exact p) : Greedy (many p) := by
  intro t u hu hfront
  refine ⟨_, rfl, ?_⟩
  generalize hmany : Pattern.many p = r at hu
  induction hu generalizing t with
  | lit | one | seq | first | second | absent | present => cases hmany
  | stop => exact Nat.zero_le _
  | @again _ piece more hpiece _ _ ihmore =>
    cases hmany
    rw [prefix_append_iff] at hfront
    have hle := ihmore hfront.2 rfl
    have hreach := hp hpiece hfront.1
    cases piece with
    | nil => exact hle
    | cons d piece =>
      rw [covered_of_reach hreach, List.length_append]
      exact Nat.add_le_add_left hle _

theorem Exact.some1 (hp : Exact p) : Greedy (some1 p) := hp.stops.seq hp.many

theorem Greedy.alt (hp : Greedy p) (hq : Greedy q) (hbefore : Before p q)
    (hnull : p.nullable = false) : Greedy (alt p q) := by
  intro t u hu hfront
  cases hu with
  | first hu =>
    obtain ⟨n, hn, hle⟩ := hp hu hfront
    exact ⟨n, by simp only [reach, hn], hle⟩
  | second hu =>
    cases hr : p.reach t with
    | none =>
      obtain ⟨n, hn, hle⟩ := hq hu hfront
      exact ⟨n, by simp only [reach, hr, hn], hle⟩
    | some n =>
      have hpos : 0 < n := by
        rcases Nat.eq_zero_or_pos n with rfl | hpos
        · exact absurd (nullable_of_reach hr) (Bool.eq_false_iff.mp hnull)
        · exact hpos
      exact ⟨n, by simp only [reach, hr], hbefore (reach?_eq_some_iff.mpr ⟨hr, hpos⟩) hu hfront⟩

/-! ### Patterns that cut no other short -/

theorem Apart.before (h : Apart p q) : Before p q := by
  intro t u n hn hu hfront
  obtain ⟨hreach, hpos⟩ := reach?_eq_some_iff.mp hn
  obtain ⟨k, rfl⟩ := Nat.exists_eq_add_of_lt hpos
  rw [Nat.zero_add] at hreach
  by_cases hne : u = []
  · rw [hne]
    exact Nat.zero_le _
  · exact absurd hreach (h.reach_ne hu hne hfront k)

theorem Before.alt (hp : Before p p') (hq : Before p q) : Before p (alt p' q) := by
  intro t u n hn hu hfront
  cases hu with
  | first hu => exact hp hn hu hfront
  | second hu => exact hq hn hu hfront

/-- A pattern with something behind it takes no less than it does alone. -/
theorem Greedy.before_seq (hp : Greedy p) : Before (Pattern.seq p q) p := by
  intro t u n hn hu hfront
  obtain ⟨m, hm, hle⟩ := hp hu hfront
  obtain ⟨hreach, -⟩ := reach?_eq_some_iff.mp hn
  simp only [reach, hm, Option.bind_eq_bind, Option.bind_some, Option.bind_eq_some_iff,
    Option.pure_def, Option.some.injEq] at hreach
  obtain ⟨k, -, rfl⟩ := hreach
  exact Nat.le_add_right_of_le hle

/-- Behind one character, two patterns are as they are alone. -/
theorem Before.seq_one (h : Before p q) (hnull : p.nullable = false) (d : Char)
    (test : Char → Bool) : Before (Pattern.seq (lit [d]) p) (Pattern.seq (one test) q) := by
  intro t u n hn hu hfront
  obtain ⟨hreach, -⟩ := reach?_eq_some_iff.mp hn
  simp only [reach, Option.bind_eq_bind, Option.bind_eq_some_iff, Option.ite_none_right_eq_some,
    Option.pure_def, Option.some.injEq] at hreach
  obtain ⟨_, ⟨-, rfl⟩, k, hk, rfl⟩ := hreach
  cases hu with
  | @seq _ _ _ v hc hv =>
    cases hc
    have hpos : 0 < k := by
      rcases Nat.eq_zero_or_pos k with rfl | hpos
      · exact absurd (nullable_of_reach hk) (Bool.eq_false_iff.mp hnull)
      · exact hpos
    have hle := h (reach?_eq_some_iff.mpr ⟨hk, hpos⟩) hv (prefix_append_iff.mp hfront).2
    rw [List.length_append]
    exact Nat.add_le_add_left hle _

theorem Before.seq_assoc {r r' : Pattern} (h : Before r (Pattern.seq p (Pattern.seq q r'))) :
    Before r (Pattern.seq (Pattern.seq p q) r') := by
  intro t u n hn hu hfront
  refine h hn ?_ hfront
  cases hu with
  | seq hpq hr =>
    cases hpq with
    | seq hp hq =>
      rw [List.append_assoc]
      exact .seq hp (.seq hq hr)

end Pattern

end ShellGrammar
