import ContractCompiler.Text.Bytes

/-!
# Positions

Where an offset lies in a text, as a person counts: lines and columns start at one,
only a line feed ends a line, and a column counts characters.
-/

namespace ContractCompiler.Text

/-- A place in a text. -/
structure Position where
  offset : Nat
  line : Nat
  column : Nat
deriving DecidableEq, Repr

namespace Position

/-- The start of every text. -/
def origin : Position := ⟨0, 1, 1⟩

/-- The position after the character `c`. -/
def advance (p : Position) (c : Char) : Position :=
  if c = '\n' then ⟨p.offset + c.utf8Size, p.line + 1, 1⟩
  else ⟨p.offset + c.utf8Size, p.line, p.column + 1⟩

/-- Advances from `p` over the characters that end at or before `target`. -/
def advanceTo (target : Nat) : Position → List Char → Position
  | p, [] => p
  | p, c :: cs =>
    if p.offset + c.utf8Size ≤ target then advanceTo target (p.advance c) cs else p

/-- The position of the last boundary of `text` that is not after `target`. -/
def locate (text : List Char) (target : Nat) : Position :=
  advanceTo target origin text

/-- Line and column, separated by a colon. -/
def display (p : Position) : String :=
  toString p.line ++ ":" ++ toString p.column

end Position

end ContractCompiler.Text
