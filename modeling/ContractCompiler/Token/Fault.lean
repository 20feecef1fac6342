import ContractCompiler.Token.Basic

/-!
# Faults of tokens

Why a text has no tokens.
-/

namespace ContractCompiler

/-- What is wrong with a text that cannot be cut into tokens. -/
inductive LexFault where
  | unclosedComment
  | unclosedString
  /-- A character that would continue the literal, but is no digit of its base. -/
  | badDigit (c : Char) (radix : Radix)
  | noDigits
  | strayCharacter (c : Char)
deriving DecidableEq, Repr

/-- The wording of a fault. -/
def LexFault.message : LexFault → String
  | unclosedComment => "unterminated block comment"
  | unclosedString => "unterminated string literal"
  | badDigit c radix =>
    "invalid digit '" ++ String.singleton c ++ "' in base " ++ toString radix.base ++ " literal"
  | noDigits => "numeric literal has no digits after its prefix"
  | strayCharacter c => "unexpected character '" ++ String.singleton c ++ "'"

end ContractCompiler
