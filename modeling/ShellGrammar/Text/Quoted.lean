import ShellGrammar.Text.Basic
import ShellGrammar.Text.Combining
import ShellGrammar.Text.Ignorable
import ShellGrammar.Text.Printable

/-! Quoted text, as messages and the debug form of a tree show it.

The quote that surrounds the text, the backslash and the line and tab characters
are written with a backslash. A character that would not show, or would change
the one before it, is written by its number in hexadecimal. All others stand for
themselves. -/
namespace ShellGrammar.Text.Quoted

/-- Whether a character is written by its number: it is not printable, nothing is
shown for it, or it is a mark that extends the character before it. -/
def isNumbered (c : Char) : Bool :=
  isExtendingMark c || isIgnorable c || !isPrintable c

/-- One character between two `quote`s. -/
def escape (quote c : Char) : Text :=
  if c = '\x00' then ['\\', '0']
  else if c = '\t' then ['\\', 't']
  else if c = '\r' then ['\\', 'r']
  else if c = '\n' then ['\\', 'n']
  else if c = '\\' || c = quote then ['\\', c]
  else if isNumbered c then
    ['\\', 'u', '\x7b'] ++ Nat.toDigits 16 c.toNat ++ ['\x7d']
  else [c]

/-- A text between double quotes, written in front of `tail`. -/
def write (t tail : Text) : Text :=
  '"' :: t.foldr (fun c r => escape '"' c ++ r) ('"' :: tail)

/-- A text between double quotes. -/
def ofText (t : Text) : Text := write t []

/-- A character between single quotes. -/
def ofChar (c : Char) : Text := '\'' :: (escape '\'' c ++ ['\''])

end ShellGrammar.Text.Quoted
