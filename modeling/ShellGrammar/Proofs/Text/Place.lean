import ShellGrammar.Text.Position
import ShellGrammar.Text.Span

/-! Where a position lies in a text.

Offsets count bytes, texts are lists of characters, and the two cutters refuse to
cut inside a character. A text that is split into two pieces can always be cut
where the first one ends, by its number of bytes (`takeBytes?_append`,
`dropBytes?_append`), so a span between two such places has the text in between
(`slice_append`). A position that was reached by going over a text counts that
text's lines and the characters of its last one (`line_advance`, `col_advance`). -/
namespace ShellGrammar

namespace Text

theorem bytes_cons_eq_succ (c : Char) (t : Text) :
    bytes (c :: t) = (c.utf8Size - 1 + bytes t) + 1 := by
  have := Char.utf8Size_pos c
  rw [bytes_cons]
  omega

theorem bytes_reverse (t : Text) : bytes t.reverse = bytes t := by
  induction t with
  | nil => rfl
  | cons c t ih =>
    rw [List.reverse_cons, bytes_append, ih]
    simp [Nat.add_comm]

theorem takeBytes?_zero (t : Text) : takeBytes? 0 t = some [] := by
  cases t <;> rfl

theorem dropBytes?_zero (t : Text) : dropBytes? 0 t = some t := by
  cases t <;> rfl

/-- The first piece of a text is cut off by its number of bytes. -/
theorem takeBytes?_append (a b : Text) : takeBytes? (bytes a) (a ++ b) = some a := by
  induction a with
  | nil => exact takeBytes?_zero b
  | cons c a ih =>
    have hc := Char.utf8Size_pos c
    have hle : c.utf8Size ≤ c.utf8Size - 1 + bytes a + 1 := by omega
    have hrest : c.utf8Size - 1 + bytes a + 1 - c.utf8Size = bytes a := by omega
    rw [bytes_cons_eq_succ, List.cons_append, takeBytes?, if_pos hle, hrest, ih]
    rfl

theorem dropBytes?_append (a b : Text) : dropBytes? (bytes a) (a ++ b) = some b := by
  induction a with
  | nil => exact dropBytes?_zero b
  | cons c a ih =>
    have hc := Char.utf8Size_pos c
    have hle : c.utf8Size ≤ c.utf8Size - 1 + bytes a + 1 := by omega
    have hrest : c.utf8Size - 1 + bytes a + 1 - c.utf8Size = bytes a := by omega
    rw [bytes_cons_eq_succ, List.cons_append, dropBytes?, if_pos hle, hrest, ih]

end Text

/-- A span that starts and stops between pieces of a text has the piece in between. -/
theorem Span.slice_append (a b c : Text) :
    Span.slice ⟨Text.bytes a, Text.bytes a + Text.bytes b⟩ (a ++ (b ++ c)) = b := by
  have hle : Text.bytes a ≤ Text.bytes a + Text.bytes b := by omega
  have hbytes : Span.bytes ⟨Text.bytes a, Text.bytes a + Text.bytes b⟩ = Text.bytes b := by
    show Text.bytes a + Text.bytes b - Text.bytes a = Text.bytes b
    omega
  rw [slice, if_pos hle, hbytes, Text.dropBytes?_append, Option.bind_some, Text.takeBytes?_append]
  rfl

namespace Position

/-- Every newline passed is a line. -/
theorem line_advance (p : Position) (t : Text) :
    (p.advance t).line = p.line + t.count '\n' := by
  induction t generalizing p with
  | nil => rfl
  | cons c t ih =>
    rw [advance_cons, ih]
    by_cases hc : c = '\n'
    · simp [step, hc]
      omega
    · simp [step, hc]

/-- The column counts the characters since the last newline. The text passed is
given nearest first, as a scan keeps it. -/
theorem col_advance (before : Text) :
    (start.advance before.reverse).col = 1 + (before.takeWhile (· != '\n')).length := by
  induction before with
  | nil => rfl
  | cons c before ih =>
    rw [List.reverse_cons, advance_append, advance_cons, advance_nil]
    by_cases hc : c = '\n'
    · simp [step, hc]
    · simp [step, hc, ih]
      omega

/-- A position says where it is: what stands before it in a text is as many bytes
long as its offset, and its line and column are counted from one over that text. -/
def Locates (p : Position) (source : Text) : Prop :=
  ∃ before, Text.takeBytes? p.offset source = some before ∧
    p.line = 1 + before.count '\n' ∧ p.col = 1 + (before.reverse.takeWhile (· != '\n')).length

/-- A position reached by going over the first piece of a text. -/
theorem locates_advance (a b : Text) : (start.advance a).Locates (a ++ b) := by
  have hoffset : (start.advance a).offset = Text.bytes a := by
    rw [offset_advance]
    exact Nat.zero_add _
  refine ⟨a, ?_, line_advance start a, ?_⟩
  · rw [hoffset, Text.takeBytes?_append]
  · have := col_advance a.reverse
    rwa [List.reverse_reverse] at this

end Position

end ShellGrammar
