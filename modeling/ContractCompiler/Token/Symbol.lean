/-!
# Symbols

The punctuation and operators of the language.
-/

namespace ContractCompiler

/-- A punctuation mark or operator of the source language. -/
inductive Symbol where
  | ellipsis | dotDot | starStar | star | slash | percent | plus | minus
  | shiftLeft | shiftRight | lessEqual | greaterEqual | less | greater
  | equalEqual | bangEqual | ampAmp | barBar | caret | amp | bar
  | question | colon | equal | dot
  | lbrace | rbrace | lparen | rparen | lbracket | rbracket
  | atSign | comma | semicolon | bang | tilde
deriving DecidableEq, Repr

namespace Symbol

/-- How a symbol is spelled. -/
def chars : Symbol → List Char
  | ellipsis => ['.', '.', '.']
  | dotDot => ['.', '.']
  | starStar => ['*', '*']
  | star => ['*']
  | slash => ['/']
  | percent => ['%']
  | plus => ['+']
  | minus => ['-']
  | shiftLeft => ['<', '<']
  | shiftRight => ['>', '>']
  | lessEqual => ['<', '=']
  | greaterEqual => ['>', '=']
  | less => ['<']
  | greater => ['>']
  | equalEqual => ['=', '=']
  | bangEqual => ['!', '=']
  | ampAmp => ['&', '&']
  | barBar => ['|', '|']
  | caret => ['^']
  | amp => ['&']
  | bar => ['|']
  | question => ['?']
  | colon => [':']
  | equal => ['=']
  | dot => ['.']
  | lbrace => ['\x7b']
  | rbrace => ['\x7d']
  | lparen => ['(']
  | rparen => [')']
  | lbracket => ['[']
  | rbracket => [']']
  | atSign => ['@']
  | comma => [',']
  | semicolon => [';']
  | bang => ['!']
  | tilde => ['~']

/-- The spelling of a symbol as a string. -/
def text (s : Symbol) : String :=
  String.ofList s.chars

/-- All symbols, longer ones first. -/
def all : List Symbol :=
  [ellipsis,
   dotDot, starStar, shiftLeft, shiftRight, lessEqual, greaterEqual, equalEqual, bangEqual,
   ampAmp, barBar,
   star, slash, percent, plus, minus, less, greater, caret, amp, bar, question, colon, equal,
   dot, lbrace, rbrace, lparen, rparen, lbracket, rbracket, atSign, comma, semicolon, bang,
   tilde]

/-- The longest symbol that `cs` starts with. -/
def read? (cs : List Char) : Option Symbol :=
  all.find? fun s => s.chars.isPrefixOf cs

/-- Whether a symbol opens a bracket inside an expression. -/
def isOpening : Symbol → Bool
  | lparen | lbracket => true
  | _ => false

/-- Whether a symbol closes a bracket inside an expression. -/
def isClosing : Symbol → Bool
  | rparen | rbracket => true
  | _ => false

/-- Every symbol is listed. -/
theorem mem_all (s : Symbol) : s ∈ all := by
  cases s <;> decide

/-- No symbol is spelled with nothing. -/
theorem chars_ne_nil (s : Symbol) : s.chars ≠ [] := by
  cases s <;> decide

/-- The symbol that is read stands at the front of the text. -/
theorem chars_isPrefixOf_of_read? {cs : List Char} {s : Symbol} (h : read? cs = some s) :
    s.chars.isPrefixOf cs = true := by
  have found := (List.find?_eq_some_iff_append.1 h).1
  exact found

end Symbol

end ContractCompiler
