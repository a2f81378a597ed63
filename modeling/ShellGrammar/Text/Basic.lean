/-! Source text.

A script is a list of characters, so that a lexer can take it apart from the
front and a proof can follow it. Offsets into a script are counted in bytes of
its UTF-8 encoding, as editors and other tools count them; `Text.bytes` is that
measure, and the two cutters below refuse to cut inside a character. -/
namespace ShellGrammar

abbrev Text := List Char

namespace Text

/-- How many bytes the UTF-8 encoding of a text takes. -/
def bytes : Text → Nat
  | [] => 0
  | c :: t => c.utf8Size + bytes t

@[simp] theorem bytes_nil : bytes [] = 0 := rfl

@[simp] theorem bytes_cons (c : Char) (t : Text) : bytes (c :: t) = c.utf8Size + bytes t := rfl

@[simp] theorem bytes_append (a b : Text) : bytes (a ++ b) = bytes a + bytes b := by
  induction a with
  | nil => simp
  | cons c a ih => simp [ih, Nat.add_assoc]

/-- What is left after the first `n` bytes, if a character ends there. -/
def dropBytes? : Nat → Text → Option Text
  | 0, t => some t
  | _ + 1, [] => none
  | n + 1, c :: t => if c.utf8Size ≤ n + 1 then dropBytes? (n + 1 - c.utf8Size) t else none

/-- The first `n` bytes, if a character ends there. -/
def takeBytes? : Nat → Text → Option Text
  | 0, _ => some []
  | _ + 1, [] => none
  | n + 1, c :: t =>
    if c.utf8Size ≤ n + 1 then (takeBytes? (n + 1 - c.utf8Size) t).map (c :: ·) else none

/-! ### Lines -/

/-- The line that stands `n` lines below the start of a text, without its
newline. Lines past the end of the text are empty. -/
def lineBelow : Nat → Text → Text
  | 0, t => t.takeWhile (· != '\n')
  | n + 1, t =>
    match t.dropWhile (· != '\n') with
    | [] => []
    | _ :: rest => lineBelow n rest

/-- The line with a number counted from one; zero asks for the first line too. -/
def line (t : Text) (number : Nat) : Text :=
  lineBelow (number - 1) t

/-! ### Names -/

/-- A letter or an underscore. Letters are the ASCII ones: names are written in
no other alphabet. -/
def isNameStart (c : Char) : Bool := c.isAlpha || c == '_'

/-- A letter, a digit or an underscore. -/
def isNameRest (c : Char) : Bool := c.isAlphanum || c == '_'

/-- Whether a text is the name of a variable. -/
def isVariableName : Text → Bool
  | [] => false
  | c :: t => isNameStart c && t.all isNameRest

/-! ### Numbers in decimal, padded on the left -/

/-- A number in decimal. -/
def ofNat (n : Nat) : Text := Nat.toDigits 10 n

/-- A text with blanks put in front until it is at least `width` characters long. -/
def padLeft (width : Nat) (t : Text) : Text :=
  List.replicate (width - t.length) ' ' ++ t

end Text

end ShellGrammar
