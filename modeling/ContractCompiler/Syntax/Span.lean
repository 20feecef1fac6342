import ContractCompiler.Text.Blank
import ContractCompiler.Text.Bytes
import ContractCompiler.Token.Basic

/-!
# Spans

The part of the source that a piece of syntax comes from.
-/

namespace ContractCompiler

/-- The place of one token: `offset` and `len` count bytes. -/
structure Extent where
  offset : Nat
  len : Nat
deriving DecidableEq, Repr, Inhabited

/-- The offset right after an extent. -/
def Extent.stop (e : Extent) : Nat :=
  e.offset + e.len

/-- The place of a token. -/
def Token.extent (t : Token) : Extent :=
  ⟨t.offset, t.len⟩

/-- The source of a piece of syntax, from its first to its last token. `main` is the token
that names it, such as its operator. -/
structure Span where
  first : Extent
  main : Extent
  last : Extent
deriving DecidableEq, Repr, Inhabited

namespace Span

/-- The span of a single token. -/
def single (e : Extent) : Span := ⟨e, e, e⟩

/-- The span of a program without tokens. -/
def empty : Span := single ⟨0, 0⟩

/-- The offset a span starts at. -/
def start (s : Span) : Nat := s.first.offset

/-- The offset right after a span. -/
def stop (s : Span) : Nat := s.last.stop

/-- Whether a span lies within another. -/
def encloses (s other : Span) : Bool :=
  s.start ≤ other.start && other.stop ≤ s.stop

/-- The source text of a span, empty if the span is no part of the text. -/
def extract (s : Span) (text : List Char) : List Char :=
  (Text.slice text s.start s.stop).getD []

/-- The source text of a span for a diagnostic: of several lines only the first, with dots
in place of the others. -/
def quote (s : Span) (text : List Char) : List Char :=
  let piece := s.extract text
  if piece.contains '\n' then
    Text.trimEnd (piece.takeWhile (· ≠ '\n')) ++ " ...".toList
  else piece

end Span

end ContractCompiler
