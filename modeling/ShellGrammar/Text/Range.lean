/-! Ranges of characters, for the tables of character properties. -/
namespace ShellGrammar.Text

/-- The characters from one code point to another, both included. -/
abbrev Range := Nat × Nat

/-- Whether a character lies in one of the ranges of a table. -/
def Range.holds (table : List Range) (c : Char) : Bool :=
  table.any fun r => r.1 ≤ c.toNat && c.toNat ≤ r.2

end ShellGrammar.Text
