import ShellGrammar.Rules.Basic

/-! What a parse reports while it runs. -/
namespace ShellGrammar

/-- One thing a parse reports. -/
inductive Event where
  /-- A source of so many bytes is about to be parsed. -/
  | parsing (bytes : Nat)
  /-- A source was parsed into so many entries. -/
  | parsed (entries : Nat)
  /-- A rule set was entered; so many are in force now. -/
  | pushRules (rules : Rules) (allowBlank : Bool) (depth : Nat)
  /-- A rule set was left for the one given; so many are in force now. -/
  | popRules (rules : Rules) (depth : Nat)
  /-- So many tokens read ahead were dropped. -/
  | discardLookahead (dropped : Nat)
deriving DecidableEq

/-- The value of a field of an event. -/
inductive Datum where
  | text (s : String)
  | number (n : Nat)
  | flag (b : Bool)
deriving DecidableEq

namespace Event

/-- The level an event is reported at. -/
def level : Event → String
  | parsing .. | parsed .. => "DEBUG"
  | pushRules .. | popRules .. | discardLookahead .. => "TRACE"

def message : Event → String
  | parsing .. => "parsing"
  | parsed .. => "parsed"
  | pushRules .. => "push rules"
  | popRules .. => "pop rules"
  | discardLookahead .. => "discard lookahead"

/-- The fields of an event in order, for a source known by a label. -/
def fields (label : String) : Event → List (String × Datum)
  | parsing bytes => [("name", .text label), ("bytes", .number bytes)]
  | parsed entries => [("name", .text label), ("entries", .number entries)]
  | pushRules rules allowBlank depth =>
    [("rules", .text rules.name), ("allow_blank", .flag allowBlank), ("depth", .number depth)]
  | popRules rules depth => [("rules", .text rules.name), ("depth", .number depth)]
  | discardLookahead dropped => [("dropped", .number dropped)]

end Event

end ShellGrammar
