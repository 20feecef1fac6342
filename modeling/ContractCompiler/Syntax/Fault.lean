import ContractCompiler.Token.Basic

/-!
# Faults of syntax

Why tokens form no program.
-/

namespace ContractCompiler

/-- What the grammar asks for. -/
inductive Expected where
  | symbol (s : Symbol)
  | keyword (word : String)
  | functionName
  | parameterName
  | statement
  | expression
  | operator
  | closingBracket
  | memberName
  | byteValue
  | byteInRange
  | commaOrBracket
  | wordLiteral
  | caseOrDefault
deriving DecidableEq, Repr

/-- How a diagnostic names what is expected. -/
def Expected.describe : Expected → String
  | symbol s => "'" ++ s.text ++ "'"
  | keyword word => "`" ++ word ++ "`"
  | functionName => "function name"
  | parameterName => "parameter name"
  | statement => "statement"
  | expression => "expression"
  | operator => "operator"
  | closingBracket => "closing bracket"
  | memberName => "member name"
  | byteValue => "byte value"
  | byteInRange => "byte value in 0..=255"
  | commaOrBracket => "',' or ']'"
  | wordLiteral => "an integer literal that fits in 64 bits"
  | caseOrDefault => "`case`, `default` or '\x7d'"

/-- Why tokens form no program. -/
inductive SyntaxFault where
  /-- Something else stands where the grammar asks for `expected`. -/
  | unexpected (expected : Expected) (found : Option Token)
  /-- A statement that is reserved, but not part of the language. -/
  | unsupported (word : String) (offset : Nat)
  /-- Blocks, brackets and unary operators are nested too deeply. -/
  | tooDeep
deriving DecidableEq, Repr

/-- A program may nest blocks, brackets and unary operators at most this deeply. -/
def maxDepth : Nat := 256

end ContractCompiler
