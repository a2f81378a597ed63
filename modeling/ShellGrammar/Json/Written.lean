import ShellGrammar.Text.Basic

/-! Strings as compact JSON writes them.

The double quote, the backslash and the control characters below the space are
escaped, the five that have a short form by it and the others by four lower-case
hexadecimal digits. Every other character stands for itself. -/
namespace ShellGrammar.Json

/-- The two lowest hexadecimal digits of a number. -/
def hexByte (n : Nat) : Text :=
  [Nat.digitChar (n / 16 % 16), Nat.digitChar (n % 16)]

/-- One character inside a JSON string. -/
def escape (c : Char) : Text :=
  if c = '"' then ['\\', '"']
  else if c = '\\' then ['\\', '\\']
  else if c = '\x08' then ['\\', 'b']
  else if c = '\x0c' then ['\\', 'f']
  else if c = '\n' then ['\\', 'n']
  else if c = '\r' then ['\\', 'r']
  else if c = '\t' then ['\\', 't']
  else if c.toNat < 0x20 then ['\\', 'u', '0', '0'] ++ hexByte c.toNat
  else [c]

/-- A text as a JSON string, written in front of `tail`. -/
def writeString (t tail : Text) : Text :=
  '"' :: t.foldr (fun c r => escape c ++ r) ('"' :: tail)

end ShellGrammar.Json
