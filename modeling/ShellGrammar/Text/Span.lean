import ShellGrammar.Text.Basic

/-! Spans: ranges of bytes in a text.

A span from which nothing can be cut, because it lies outside the text, runs
backwards or ends inside a character, cuts out the empty text. -/
namespace ShellGrammar

structure Span where
  start : Nat
  stop : Nat
deriving DecidableEq

namespace Span

/-- The span at the start of a text that holds nothing. -/
instance : Inhabited Span := ⟨⟨0, 0⟩⟩

/-- A span between two offsets; none if they are in the wrong order. -/
def between? (start stop : Nat) : Option Span :=
  if start ≤ stop then some ⟨start, stop⟩ else none

/-- The span at an offset that holds nothing. -/
def point (offset : Nat) : Span := ⟨offset, offset⟩

/-- How many bytes a span holds; none if it runs backwards. -/
def bytes (s : Span) : Nat := s.stop - s.start

/-- Whether a span starts where it stops. -/
def isPoint (s : Span) : Bool := s.start == s.stop

/-- The text of a span. -/
def slice (s : Span) (source : Text) : Text :=
  if s.start ≤ s.stop then
    (((Text.dropBytes? s.start source).bind (Text.takeBytes? s.bytes)).getD [])
  else []

/-- A span as a JSON object. -/
def json (s : Span) : Text :=
  "\x7b\"start\":".toList ++ Text.ofNat s.start ++ ",\"end\":".toList ++
    Text.ofNat s.stop ++ "\x7d".toList

end Span

end ShellGrammar
