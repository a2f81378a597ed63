import ShellGrammar.Text.Basic

/-! Where a reader stands in a text.

A `Position` is what a message shows: a byte offset with the line and the column
it corresponds to, the last two counted from one and the column in characters. A
`Scan` is what a lexer works with: a position together with the text already
read and the text still to come. Moving a scan forward loses nothing, so the
text it runs over stays the same (`Scan.source_forward`). -/
namespace ShellGrammar

structure Position where
  offset : Nat
  line : Nat
  col : Nat
deriving DecidableEq

namespace Position

/-- The position before the first character of a text. -/
def start : Position := ⟨0, 1, 1⟩

/-- Past one character. Only a newline starts a line. -/
def step (p : Position) (c : Char) : Position :=
  if c = '\n' then ⟨p.offset + c.utf8Size, p.line + 1, 1⟩
  else ⟨p.offset + c.utf8Size, p.line, p.col + 1⟩

/-- Past a text. -/
def advance (p : Position) (t : Text) : Position :=
  t.foldl step p

@[simp] theorem advance_nil (p : Position) : p.advance [] = p := rfl

@[simp] theorem advance_cons (p : Position) (c : Char) (t : Text) :
    p.advance (c :: t) = (p.step c).advance t := rfl

theorem advance_append (p : Position) (a b : Text) :
    p.advance (a ++ b) = (p.advance a).advance b := by
  simp [advance]

theorem offset_step (p : Position) (c : Char) : (p.step c).offset = p.offset + c.utf8Size := by
  unfold step
  split <;> rfl

/-- The offset grows by the bytes passed. -/
theorem offset_advance (p : Position) (t : Text) :
    (p.advance t).offset = p.offset + Text.bytes t := by
  induction t generalizing p with
  | nil => rfl
  | cons c t ih => simp [ih, offset_step, Nat.add_assoc]

end Position

/-! ### Scans -/

/-- A place in a text: the characters before it, nearest first, and those after. -/
structure Scan where
  pos : Position
  before : Text
  rest : Text
deriving DecidableEq

namespace Scan

/-- At the start of a text. -/
def ofText (t : Text) : Scan := ⟨.start, [], t⟩

/-- The whole text, read and unread. -/
def source (s : Scan) : Text := s.before.reverse ++ s.rest

/-- How many bytes of the text were read. -/
def bytesRead (s : Scan) : Nat := s.before.foldl (fun n c => n + c.utf8Size) 0

/-- Whether the scan's offset is where the text before it ends, so that the source can
be cut there: an offset inside a character or past the end is not. -/
def isCut (s : Scan) : Bool := s.bytesRead == s.pos.offset

/-- Whether at least `n` characters are left. -/
def has (s : Scan) (n : Nat) : Bool := (s.rest.take n).length == n

/-- Past the next `n` characters, or past all that are left. -/
def forward : Nat → Scan → Scan
  | 0, s => s
  | n + 1, s =>
    match s.rest with
    | [] => s
    | c :: t => forward n ⟨s.pos.step c, c :: s.before, t⟩

@[simp] theorem source_ofText (t : Text) : (ofText t).source = t := rfl

@[simp] theorem source_forward (n : Nat) (s : Scan) : (forward n s).source = s.source := by
  induction n generalizing s with
  | zero => rfl
  | succ n ih =>
    obtain ⟨p, before, rest⟩ := s
    cases rest with
    | nil => rfl
    | cons c t =>
      show (forward n ⟨p.step c, c :: before, t⟩).source = _
      rw [ih]
      simp [source]

@[simp] theorem rest_forward (n : Nat) (s : Scan) : (forward n s).rest = s.rest.drop n := by
  induction n generalizing s with
  | zero => rfl
  | succ n ih =>
    obtain ⟨p, before, rest⟩ := s
    cases rest with
    | nil => rfl
    | cons c t => simp [forward, ih]

@[simp] theorem pos_forward (n : Nat) (s : Scan) :
    (forward n s).pos = s.pos.advance (s.rest.take n) := by
  induction n generalizing s with
  | zero => rfl
  | succ n ih =>
    obtain ⟨p, before, rest⟩ := s
    cases rest with
    | nil => rfl
    | cons c t => simp [forward, ih]

end Scan

end ShellGrammar
