import ShellGrammar.Json.Read
import ShellGrammar.Text.Span

/-! Spans read from JSON.

A span is an object with the members `start` and `end`, in any order and among
others, or an array of the two. A member is given once. Offsets fit in 64 bits,
and nothing asks them to be in order. -/
namespace ShellGrammar.Span
open Json

/-- An offset, past the blank before it. -/
def readOffset (t : Text) : Option (Nat × Text) := readNatural UInt64.size (skipBlank t)

/-- The two offsets of an array after its bracket. -/
def readPair (t : Text) : Option (Span × Text) := do
  let (start, t) ← readOffset t
  match skipBlank t with
  | ',' :: t =>
    let (stop, t) ← readOffset t
    match skipBlank t with
    | ']' :: t => return (⟨start, stop⟩, t)
    | _ => none
  | _ => none

/-- The members of an object, of which at least one is left, given the offsets
read so far. At most `bound` members are read. -/
def readMembers : (bound : Nat) → Option Nat → Option Nat → Text → Option (Span × Text)
  | 0, _, _, _ => none
  | bound + 1, start, stop, t => do
    let '"' :: t := skipBlank t | none
    let (key, t) ← readString t
    let ':' :: t := skipBlank t | none
    let (start, stop, t) ←
      if key = "start".toList then do
        guard start.isNone
        let (n, t) ← readOffset t
        pure (some n, stop, t)
      else if key = "end".toList then do
        guard stop.isNone
        let (n, t) ← readOffset t
        pure (start, some n, t)
      else do
        pure (start, stop, ← skipValue (2 * t.length + 2) t)
    match skipBlank t with
    | ',' :: t => readMembers bound start stop t
    | '}' :: t => return (⟨← start, ← stop⟩, t)
    | _ => none

/-- The span that a JSON text holds. -/
def ofJson? (t : Text) : Option Span := do
  let (span, rest) ←
    match skipBlank t with
    | '[' :: t => readPair t
    | '{' :: t => readMembers (t.length + 1) none none t
    | _ => none
  guard (skipBlank rest).isEmpty
  return span

end ShellGrammar.Span
