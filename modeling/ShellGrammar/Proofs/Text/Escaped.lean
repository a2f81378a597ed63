import Mathlib
import ShellGrammar.Json.Read
import ShellGrammar.Json.Written
import ShellGrammar.Text.Quoted

/-! Strings that can be told from their written form.

Between double quotes a character stands for itself, or it is named behind a backslash; the
quote and the backslash always are (`Escapes`). If the names can be told from what follows
them, so can the whole string (`Escapes.splits`), whichever characters are named. The quoted
form of a text names characters that would not show (`Text.Quoted.escapes`), JSON those below
the space (`Json.escapes`). -/
namespace ShellGrammar

/-- What is written in front of a tail can be told from the whole, and the tail too. -/
def Splits {α : Type} (write : α → Text → Text) : Prop :=
  ∀ a b s t, write a s = write b t → a = b ∧ s = t

namespace Text

/-- A text between double quotes, where `escape` writes a character, in front of `tail`. -/
def writeWith (escape : Char → Text) (t tail : Text) : Text :=
  '"' :: t.foldr (fun c r => escape c ++ r) ('"' :: tail)

end Text

/-- Characters are written as they are or by a name behind a backslash. -/
structure Escapes (escape : Char → Text) : Prop where
  verbatim_or_named : ∀ c, (escape c = [c] ∧ c ≠ '"' ∧ c ≠ '\\') ∨ ∃ name, escape c = '\\' :: name
  /-- A name can be told from what follows it, and the character from the name. -/
  named : ∀ {c d m n}, escape c = '\\' :: m → escape d = '\\' :: n →
    ∀ s t, m ++ s = n ++ t → c = d ∧ s = t

namespace Escapes
variable {escape : Char → Text}

/-- One character. -/
theorem split (h : Escapes escape) {c d : Char} {s t : Text}
    (heq : escape c ++ s = escape d ++ t) : c = d ∧ s = t := by
  rcases h.verbatim_or_named c with ⟨hc, _, hslash⟩ | ⟨m, hm⟩ <;>
    rcases h.verbatim_or_named d with ⟨hd, _, hslash'⟩ | ⟨n, hn⟩
  · rw [hc, hd] at heq
    exact List.cons.inj heq
  · rw [hc, hn] at heq
    exact absurd (List.cons.inj heq).1 hslash
  · rw [hm, hd] at heq
    exact absurd (List.cons.inj heq).1.symm hslash'
  · rw [hm, hn] at heq
    exact h.named hm hn s t (List.cons.inj heq).2

/-- No character is written so that it could be the closing quote. -/
theorem ne_quote (h : Escapes escape) (c : Char) (s t : Text) : escape c ++ s ≠ '"' :: t := by
  rcases h.verbatim_or_named c with ⟨hc, hquote, _⟩ | ⟨m, hm⟩
  · rw [hc]
    exact fun heq => hquote (List.cons.inj heq).1
  · rw [hm]
    exact fun heq => absurd (List.cons.inj heq).1 (by decide)

/-- A string can be told from what follows it. -/
theorem splits (h : Escapes escape) : Splits (Text.writeWith escape) := by
  intro a b s t heq
  replace heq := (List.cons.inj heq).2
  induction a generalizing b with
  | nil =>
    cases b with
    | nil => exact ⟨rfl, (List.cons.inj heq).2⟩
    | cons d b => exact absurd heq.symm (h.ne_quote d _ _)
  | cons c a ih =>
    cases b with
    | nil => exact absurd heq (h.ne_quote c _ _)
    | cons d b =>
      obtain ⟨rfl, hrest⟩ := h.split heq
      obtain ⟨rfl, htail⟩ := ih b hrest
      exact ⟨rfl, htail⟩

end Escapes

/-- Names that can be read back. -/
theorem Escapes.of_reader {escape : Char → Text} (read : Text → Option (Char × Text))
    (hform : ∀ c, (escape c = [c] ∧ c ≠ '"' ∧ c ≠ '\\') ∨ ∃ name, escape c = '\\' :: name ∧
      ∀ s, read (name ++ s) = some (c, s)) : Escapes escape where
  verbatim_or_named c := (hform c).imp id fun ⟨name, hname, _⟩ => ⟨name, hname⟩
  named := by
    have hread : ∀ {c m}, escape c = '\\' :: m → ∀ s, read (m ++ s) = some (c, s) := by
      intro c m hm
      rcases hform c with ⟨hc, _, hslash⟩ | ⟨name, hname, hread⟩
      · exact absurd (List.cons.inj (hc.symm.trans hm)).1 hslash
      · exact (List.cons.inj (hname.symm.trans hm)).2 ▸ hread
    intro c d m n hm hn s t heq
    have hsame := (hread hm s).symm.trans (heq ▸ hread hn t)
    exact ⟨congrArg Prod.fst (Option.some.inj hsame), congrArg Prod.snd (Option.some.inj hsame)⟩

/-! ### JSON -/

namespace Json

theorem hexValue?_digitChar : ∀ d < 16, hexValue? d.digitChar = some d := by decide

theorem hexNumber?_byte : ∀ n < 0x20, hexNumber? ('0' :: '0' :: hexByte n) = some n := by decide

/-- Reads the name of a character, and what follows it. -/
def readName : Text → Option (Char × Text)
  | 'u' :: a :: b :: c :: d :: t => (hexNumber? [a, b, c, d]).map fun n => (Char.ofNat n, t)
  | e :: t => (shortEscape? e).map fun c => (c, t)
  | [] => none

/-- The characters with a short name. -/
def short : Text := ['"', '\\', '\x08', '\x0c', '\n', '\r', '\t']

theorem escape_of_not_short {c : Char} (h : c ∉ short) :
    escape c = if c.toNat < 0x20 then ['\\', 'u', '0', '0'] ++ hexByte c.toNat else [c] := by
  simp only [short, List.mem_cons, List.not_mem_nil, or_false, not_or] at h
  simp [escape, h]

theorem escapes : Escapes escape := by
  refine .of_reader readName fun c => ?_
  by_cases hshort : c ∈ short
  · right
    simp only [short, List.mem_cons, List.not_mem_nil, or_false] at hshort
    rcases hshort with rfl | rfl | rfl | rfl | rfl | rfl | rfl <;> exact ⟨_, rfl, fun s => rfl⟩
  · rw [escape_of_not_short hshort]
    split
    case isTrue hlt =>
      refine .inr ⟨_, rfl, fun s => ?_⟩
      have hread := hexNumber?_byte c.toNat hlt
      simp only [hexByte] at hread
      simp [readName, hexByte, hread]
    case isFalse =>
      have hne : ∀ d ∈ short, c ≠ d := fun d hd heq => hshort (heq ▸ hd)
      exact .inl ⟨rfl, hne _ (by decide), hne _ (by decide)⟩

end Json

/-! ### Quoted text -/

namespace Text.Quoted
open Json

theorem hexNumber?_append_digit {digits : Text} {n d : Nat} (h : hexNumber? digits = some n)
    (hd : d < 16) : hexNumber? (digits ++ [d.digitChar]) = some (16 * n + d) := by
  rw [hexNumber?] at h
  simp [hexNumber?, h, hexValue?_digitChar d hd]

/-- The digits of a number stand for it. -/
theorem hexNumber?_toDigits (n : Nat) : hexNumber? (Nat.toDigits 16 n) = some n := by
  induction n using Nat.strongRecOn with
  | ind n ih =>
    rw [Nat.toDigits_eq_if (by decide)]
    split
    case isTrue hlt =>
      have hnone : hexNumber? [] = some 0 := rfl
      simpa using hexNumber?_append_digit hnone hlt
    case isFalse hge =>
      rw [hexNumber?_append_digit (ih (n / 16) (by omega)) (Nat.mod_lt n (by decide)),
        Nat.div_add_mod]

/-- No digit is a brace. -/
theorem ne_brace_of_mem {n : Nat} {c : Char} (h : c ∈ Nat.toDigits 16 n) : c ≠ '\x7d' := by
  have hdigit : ∀ d : Nat, d.digitChar ≠ '\x7d' := fun d => Nat.digitChar_ne '\x7d' (by decide)
  induction n using Nat.strongRecOn with
  | ind n ih =>
    rw [Nat.toDigits_eq_if (by decide)] at h
    split at h
    · exact List.mem_singleton.mp h ▸ hdigit n
    · obtain h | h := List.mem_append.mp h
      · exact ih (n / 16) (by omega) h
      · exact List.mem_singleton.mp h ▸ hdigit _

/-- Reads the name of a character, and what follows it. -/
def readName : Text → Option (Char × Text)
  | '0' :: t => some ('\x00', t)
  | 't' :: t => some ('\t', t)
  | 'r' :: t => some ('\r', t)
  | 'n' :: t => some ('\n', t)
  | 'u' :: '\x7b' :: t =>
    (hexNumber? (t.takeWhile (· != '\x7d'))).map fun n =>
      (Char.ofNat n, (t.dropWhile (· != '\x7d')).drop 1)
  | c :: t => some (c, t)
  | [] => none

theorem readName_number (c : Char) (s : Text) :
    readName ('u' :: '\x7b' :: (Nat.toDigits 16 c.toNat ++ '\x7d' :: s)) = some (c, s) := by
  have hdigits : ∀ d ∈ Nat.toDigits 16 c.toNat, (d != '\x7d') = true :=
    fun d hd => bne_iff_ne.mpr (ne_brace_of_mem hd)
  simp [readName, List.takeWhile_append_of_pos hdigits, List.dropWhile_append_of_pos hdigits,
    hexNumber?_toDigits]

/-- The characters with a short name. -/
def short : Text := ['\x00', '\t', '\r', '\n', '\\', '"']

theorem escape_of_not_short {c : Char} (h : c ∉ short) : escape '"' c =
    if isNumbered c then ['\\', 'u', '\x7b'] ++ Nat.toDigits 16 c.toNat ++ ['\x7d'] else [c] := by
  simp only [short, List.mem_cons, List.not_mem_nil, or_false, not_or] at h
  simp [escape, h]

theorem escapes : Escapes (escape '"') := by
  refine .of_reader readName fun c => ?_
  by_cases hshort : c ∈ short
  · right
    simp only [short, List.mem_cons, List.not_mem_nil, or_false] at hshort
    rcases hshort with rfl | rfl | rfl | rfl | rfl | rfl <;> exact ⟨_, rfl, fun s => rfl⟩
  · rw [escape_of_not_short hshort]
    split
    · refine .inr ⟨_, rfl, fun s => ?_⟩
      simpa using readName_number c s
    · have hne : ∀ d ∈ short, c ≠ d := fun d hd heq => hshort (heq ▸ hd)
      exact .inl ⟨rfl, hne _ (by decide), hne _ (by decide)⟩

end Text.Quoted

end ShellGrammar
