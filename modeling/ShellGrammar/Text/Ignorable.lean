import ShellGrammar.Text.Range

/-! Characters that nothing is shown for.

These are the characters with the property `Default_Ignorable_Code_Point`: joiners,
directional marks, variation selectors and fillers. Most are format characters or
combining marks as well; the fillers of the Hangul scripts are letters, and only
this property tells that they are invisible. -/
namespace ShellGrammar.Text

/-- The characters with the property `Default_Ignorable_Code_Point`. -/
def defaultIgnorable : List Range := [
  (0xad, 0xad), (0x34f, 0x34f), (0x61c, 0x61c), (0x115f, 0x1160), (0x17b4, 0x17b5),
  (0x180b, 0x180f), (0x200b, 0x200f), (0x202a, 0x202e), (0x2060, 0x206f), (0x3164, 0x3164),
  (0xfe00, 0xfe0f), (0xfeff, 0xfeff), (0xffa0, 0xffa0), (0xfff0, 0xfff8), (0x1bca0, 0x1bca3),
  (0x1d173, 0x1d17a), (0xe0000, 0xe0fff)]

/-- No ASCII character is ignorable. -/
def isIgnorable (c : Char) : Bool :=
  0x80 ≤ c.toNat && Range.holds defaultIgnorable c

end ShellGrammar.Text
