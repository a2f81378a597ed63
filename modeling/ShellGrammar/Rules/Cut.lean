import ShellGrammar.Rules.Basic
import ShellGrammar.Token.Basic

/-! Cutting one token off a text.

`Rules.tokenAt` is the whole of tokenization: what the token at a scan is depends
on the rule set and the scan alone. Where the text has ended the token is the end
of the source; where no rule takes anything the character there is at fault.
`Rules.takeAt` cuts a token of a given shape instead, whatever the table says. -/
namespace ShellGrammar

/-- A character that starts no token of the rule set in force. -/
structure LexFault where
  found : Char
  start : Position
deriving DecidableEq

namespace LexFault

/-- Past the character. -/
def stop (f : LexFault) : Position := f.start.step f.found

/-- The bytes of the character. -/
def span (f : LexFault) : Span := ⟨f.start.offset, f.stop.offset⟩

/-- The message, for a source known by a label. -/
def message (label : String) (f : LexFault) : Text :=
  label.toList ++ ':' :: Text.ofNat f.start.line ++ ':' :: Text.ofNat f.start.col ++
    ": unrecognized character ".toList ++ Text.Quoted.ofChar f.found

end LexFault

namespace Rules

/-! ### Blank -/

/-- The characters after which a word can start without blank. -/
def isBoundary (c : Char) : Bool :=
  ['\n', ';', '|', '&', '(', ')', '`'].contains c

/-- How many blank characters stand at the front of a text. -/
def blankLength (rules : Rules) (t : Text) : Nat :=
  ((rules.set.blank.bind (·.reach t)).getD 0)

/-- Whether a comment may start after `blank`, at a scan. -/
def commentMayStart (blank : Nat) (scan : Scan) : Bool :=
  0 < blank || (scan.before.head?.map isBoundary).getD true

/-- The length of the comment at the front of a text. -/
def commentLength (t : Text) : Nat := (comment.reach t).getD 0

/-- How many characters to skip before the token at a scan: blank, and a comment
after it where the rule set has comments. -/
def skipLength (rules : Rules) (scan : Scan) : Nat :=
  let blank := rules.blankLength scan.rest
  if rules.set.comments && commentMayStart blank scan then
    blank + commentLength (scan.rest.drop blank)
  else blank

/-! ### Tokens -/

/-- The kind and length of what the first fitting rule takes. -/
def firstFit : List Rule → Text → Option (Kind × Nat)
  | [], _ => none
  | r :: rs, t =>
    match r.pattern.reach? t with
    | some n => some (r.kind, n)
    | none => firstFit rs t

/-- A token of `length` characters after `skip` characters of blank. -/
def cut (kind : Kind) (skip length : Nat) (scan : Scan) : Token :=
  { kind
    origin := scan
    blank := scan.rest.take skip
    body := (scan.rest.drop skip).take length }

/-- The token at a scan. -/
def tokenAt (rules : Rules) (scan : Scan) : Except LexFault Token :=
  let skip := rules.skipLength scan
  match scan.rest.drop skip with
  | [] => .ok (cut .eos skip 0 scan)
  | c :: t =>
    match firstFit rules.set.rules (c :: t) with
    | some (kind, length) => .ok (cut kind skip length scan)
    | none => .error ⟨c, scan.pos.advance (scan.rest.take skip)⟩

/-- The token of a given shape at a scan, if it is there. Blank before it is
skipped when allowed; a comment never is. -/
def takeAt (rules : Rules) (pattern : Pattern) (kind : Kind) (allowBlank : Bool) (scan : Scan) :
    Option Token :=
  let skip := rules.blankLength scan.rest
  if 0 < skip && !allowBlank then none
  else (pattern.reach? (scan.rest.drop skip)).map fun length => cut kind skip length scan

end Rules

end ShellGrammar
