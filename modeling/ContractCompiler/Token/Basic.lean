import ContractCompiler.Token.Symbol

/-!
# Tokens

The units of the source text.
-/

namespace ContractCompiler

/-- Whether a character may start an identifier: an ASCII letter or an underscore. -/
def isIdentStart (c : Char) : Bool :=
  c.isAlpha || c == '_'

/-- Whether a character may continue an identifier: an ASCII letter or digit or an underscore. -/
def isIdentContinue (c : Char) : Bool :=
  c.isAlphanum || c == '_'

/-- The base of an integer literal. -/
inductive Radix where
  | binary | octal | decimal | hexadecimal
deriving DecidableEq, Repr

namespace Radix

/-- The number of digits of a base. -/
def base : Radix → Nat
  | binary => 2
  | octal => 8
  | decimal => 10
  | hexadecimal => 16

/-- The value of a digit in any base up to sixteen. -/
def digitValue (c : Char) : Nat :=
  if c.isDigit then c.toNat - '0'.toNat
  else if 'a' ≤ c ∧ c ≤ 'f' then c.toNat - 'a'.toNat + 10
  else if 'A' ≤ c ∧ c ≤ 'F' then c.toNat - 'A'.toNat + 10
  else 16

/-- Whether a character is a digit of the base. -/
def isDigit (r : Radix) (c : Char) : Bool :=
  digitValue c < r.base

/-- The number that some digits denote, most significant digit first. -/
def value (r : Radix) (digits : List Char) : Nat :=
  digits.foldl (fun n c => n * r.base + digitValue c) 0

end Radix

/-- What a token says. -/
inductive Lexeme where
  /-- A name or keyword. -/
  | identifier (name : String)
  /-- An integer literal: its digits without the mark of its base. -/
  | number (radix : Radix) (digits : String)
  /-- A string literal: what stands between the quotes, as written. -/
  | string (body : String)
  | symbol (s : Symbol)
  /-- A comment with its delimiters. -/
  | comment (text : String)
deriving DecidableEq, Repr

namespace Lexeme

/-- The text that a token carries. -/
def text : Lexeme → String
  | identifier name => name
  | number _ digits => digits
  | string body => body
  | symbol s => s.text
  | comment text => text

/-- How a diagnostic names a token. -/
def describe : Lexeme → String
  | identifier name => "`" ++ name ++ "`"
  | number _ digits => "number `" ++ digits ++ "`"
  | string body => "string \"" ++ body ++ "\""
  | symbol s => "'" ++ s.text ++ "'"
  | comment _ => "comment"

end Lexeme

/-- A lexeme at its place: `offset` and `len` count bytes of the source. -/
structure Token where
  lexeme : Lexeme
  offset : Nat
  len : Nat
deriving DecidableEq, Repr

namespace Token

/-- The offset right after a token. -/
def stop (t : Token) : Nat :=
  t.offset + t.len

/-- The symbol that a token is, if it is one. -/
def symbol? (t : Token) : Option Symbol :=
  match t.lexeme with
  | .symbol s => some s
  | _ => none

/-- Whether a token is the symbol `s`. -/
def isSymbol (t : Token) (s : Symbol) : Bool :=
  t.lexeme == .symbol s

/-- Whether a token is the identifier `name`. -/
def isIdentifier (t : Token) (name : String) : Bool :=
  t.lexeme == .identifier name

/-- Whether a token is a comment. -/
def isComment (t : Token) : Bool :=
  match t.lexeme with
  | .comment _ => true
  | _ => false

end Token

/-- The identifiers with a meaning of their own. -/
def keywords : List String :=
  ["def", "if", "else", "for", "in", "while", "do", "switch", "case", "default", "continue",
   "break", "true", "false", "return", "exit", "throw"]

/-- Whether an identifier is a keyword. -/
def isKeyword (name : String) : Bool :=
  keywords.contains name

/-- Identifiers that are no keywords, but cannot be defined. -/
def reservedNames : List String := ["txn"]

/-- A source may have at most this many tokens, comments included. -/
def maxTokens : Nat := 200000

end ContractCompiler
