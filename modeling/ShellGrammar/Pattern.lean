import ShellGrammar.Text.Basic

/-! Patterns: what the front of a text can look like.

`Pattern.reach` says how many characters a pattern takes from the front of a
text. Choices are made once, from left to right: of two alternatives the first
that fits is taken, an optional part is taken if it fits, and a repetition goes
on as long as it can. -/
namespace ShellGrammar

inductive Pattern where
  /-- A fixed text. -/
  | lit (t : Text)
  /-- One character that passes a test. -/
  | one (test : Char → Bool)
  | seq (p q : Pattern)
  | alt (p q : Pattern)
  | opt (p : Pattern)
  /-- Any number of times, as often as possible. -/
  | many (p : Pattern)

namespace Pattern

/-- How many characters of a text are covered by pieces of at least one character
each, laid end to end, where `piece` gives the length of the piece that starts a
text. The first argument counts the characters left of the piece under way. -/
def covered (piece : Text → Option Nat) : Nat → Text → Nat
  | _, [] => 0
  | k + 1, _ :: t => covered piece k t + 1
  | 0, c :: t =>
    match piece (c :: t) with
    | some (k + 1) => covered piece k t + 1
    | _ => 0

/-- How many characters a pattern takes from the front of a text. -/
def reach : Pattern → Text → Option Nat
  | lit l, t => if l.isPrefixOf t then some l.length else none
  | one _, [] => none
  | one test, c :: _ => if test c then some 1 else none
  | seq p q, t => do
    let n ← p.reach t
    let m ← q.reach (t.drop n)
    return n + m
  | alt p q, t =>
    match p.reach t with
    | some n => some n
    | none => q.reach t
  | opt p, t => some ((p.reach t).getD 0)
  | many p, t => some (covered p.reach 0 t)

/-- As `reach`, when at least one character is taken. -/
def reach? (p : Pattern) (t : Text) : Option Nat :=
  (p.reach t).filter (0 < ·)

/-! ### What is taken is there -/

theorem covered_le (piece : Text → Option Nat) :
    ∀ (k : Nat) (t : Text), covered piece k t ≤ t.length
  | _, [] => by simp [covered]
  | k + 1, _ :: t => by simp [covered, covered_le piece k t]
  | 0, c :: t => by
    unfold covered
    split
    · rename_i k _
      simp [covered_le piece k t]
    · simp

/-- A pattern takes no more than there is. -/
theorem reach_le {p : Pattern} {t : Text} {n : Nat} (h : p.reach t = some n) : n ≤ t.length := by
  induction p generalizing t n with
  | lit l =>
    simp only [reach, Option.ite_none_right_eq_some, Option.some.injEq] at h
    rw [← h.2]
    exact (List.isPrefixOf_iff_prefix.mp h.1).length_le
  | one test =>
    cases t with
    | nil => simp [reach] at h
    | cons c t =>
      simp only [reach, Option.ite_none_right_eq_some, Option.some.injEq] at h
      simp only [List.length_cons]
      omega
  | seq p q ihp ihq =>
    simp only [reach, Option.bind_eq_bind, Option.bind_eq_some_iff, Option.pure_def,
      Option.some.injEq] at h
    obtain ⟨a, ha, b, hb, rfl⟩ := h
    have h1 := ihp ha
    have h2 := ihq hb
    rw [List.length_drop] at h2
    omega
  | alt p q ihp ihq =>
    unfold reach at h
    split at h
    · rename_i m hm
      exact Option.some.inj h ▸ ihp hm
    · exact ihq h
  | opt p ih =>
    simp only [reach, Option.some.injEq] at h
    cases hp : p.reach t with
    | none => simp [hp] at h; omega
    | some m => simp [hp] at h; exact h ▸ ih hp
  | many p _ =>
    simp only [reach, Option.some.injEq] at h
    exact h ▸ covered_le p.reach 0 t

/-- What `reach?` yields is at least one. -/
theorem reach?_eq_some_iff {p : Pattern} {t : Text} {n : Nat} :
    p.reach? t = some n ↔ p.reach t = some n ∧ 0 < n := by
  simp [reach?, Option.filter_eq_some_iff]

/-! ### Common shapes -/

/-- At least once, as often as possible. -/
def some1 (p : Pattern) : Pattern := seq p (many p)

/-- One character out of a list. -/
def oneOf (cs : Text) : Pattern := one cs.contains

/-- One character that is not in a list. -/
def noneOf (cs : Text) : Pattern := one fun c => !cs.contains c

/-- Any one character. -/
def any : Pattern := one fun _ => true

/-- One decimal digit. -/
def digit : Pattern := one Char.isDigit

/-- The name of a variable. -/
def variableName : Pattern := seq (one Text.isNameStart) (many (one Text.isNameRest))

/-- Any one character after a backslash. -/
def escaped : Pattern := seq (lit ['\\']) any

/-- Literal text: characters that pass a test, and escaped characters. -/
def run (test : Char → Bool) : Pattern :=
  some1 (alt (one fun c => test c && c != '\\') escaped)

end Pattern

end ShellGrammar
