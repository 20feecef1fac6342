import ContractCompiler.Token.Symbol

/-!
# Operators

The unary and binary operators of expressions, and how tightly they bind.
-/

namespace ContractCompiler

/-- An operator before its operand. -/
inductive UnaryOperator where
  | not | complement
deriving DecidableEq, Repr

namespace UnaryOperator

/-- The operator of a symbol. -/
def ofSymbol? : Symbol → Option UnaryOperator
  | .bang => some not
  | .tilde => some complement
  | _ => none

/-- The symbol of an operator. -/
def symbol : UnaryOperator → Symbol
  | not => .bang
  | complement => .tilde

end UnaryOperator

/-- An operator between two operands. A choice `c ? a : b` is the operator `?` with the
operator `:` on its right; `:` alone is a cast. -/
inductive BinaryOperator where
  | assign | ternary | colon | or | and | bitOr | bitXor | bitAnd
  | eq | ne | lt | gt | le | ge | shl | shr | add | sub | mul | div | mod | pow
  | range | rangeInclusive
deriving DecidableEq, Repr

namespace BinaryOperator

/-- The operator of a symbol. -/
def ofSymbol? : Symbol → Option BinaryOperator
  | .equal => some assign
  | .question => some ternary
  | .colon => some colon
  | .barBar => some or
  | .ampAmp => some and
  | .bar => some bitOr
  | .caret => some bitXor
  | .amp => some bitAnd
  | .equalEqual => some eq
  | .bangEqual => some ne
  | .less => some lt
  | .greater => some gt
  | .lessEqual => some le
  | .greaterEqual => some ge
  | .shiftLeft => some shl
  | .shiftRight => some shr
  | .plus => some add
  | .minus => some sub
  | .star => some mul
  | .slash => some div
  | .percent => some mod
  | .starStar => some pow
  | .dotDot => some range
  | .ellipsis => some rangeInclusive
  | _ => none

/-- The symbol of an operator. -/
def symbol : BinaryOperator → Symbol
  | assign => .equal
  | ternary => .question
  | colon => .colon
  | or => .barBar
  | and => .ampAmp
  | bitOr => .bar
  | bitXor => .caret
  | bitAnd => .amp
  | eq => .equalEqual
  | ne => .bangEqual
  | lt => .less
  | gt => .greater
  | le => .lessEqual
  | ge => .greaterEqual
  | shl => .shiftLeft
  | shr => .shiftRight
  | add => .plus
  | sub => .minus
  | mul => .star
  | div => .slash
  | mod => .percent
  | pow => .starStar
  | range => .dotDot
  | rangeInclusive => .ellipsis

/-- The spelling of an operator. -/
def text (op : BinaryOperator) : String :=
  op.symbol.text

/-- Whether an operator compares its operands. -/
def isComparison : BinaryOperator → Bool
  | eq | ne | lt | gt | le | ge => true
  | _ => false

/-- Whether an operator joins truth values. -/
def isLogical : BinaryOperator → Bool
  | and | or => true
  | _ => false

/-- Whether an operator works on integers only. -/
def needsIntegers : BinaryOperator → Bool
  | and | or | pow | shl | shr => true
  | _ => false

/-- An operator is found again by its symbol. -/
theorem ofSymbol?_symbol (op : BinaryOperator) : ofSymbol? op.symbol = some op := by
  cases op <;> rfl

/-- The symbol of an operator is the one it is found by. -/
theorem symbol_of_ofSymbol? {s : Symbol} {op : BinaryOperator} (h : ofSymbol? s = some op) :
    op.symbol = s := by
  cases s <;> simp only [ofSymbol?, Option.some.injEq, reduceCtorEq] at h <;> subst h <;> rfl

end BinaryOperator

/-- The side from which operators of one level group. -/
inductive Assoc where
  | left | right
deriving DecidableEq, Repr

/-- Operators that bind equally tightly. -/
structure Level where
  operators : List BinaryOperator
  assoc : Assoc
deriving DecidableEq, Repr

/-- The levels from the loosest to the tightest. -/
def Level.all : List Level :=
  [⟨[.assign], .right⟩,
   ⟨[.ternary, .colon], .right⟩,
   ⟨[.or], .left⟩,
   ⟨[.and], .left⟩,
   ⟨[.bitOr], .left⟩,
   ⟨[.bitXor], .left⟩,
   ⟨[.bitAnd], .left⟩,
   ⟨[.eq, .ne], .left⟩,
   ⟨[.lt, .gt, .le, .ge], .left⟩,
   ⟨[.shl, .shr], .left⟩,
   ⟨[.add, .sub], .left⟩,
   ⟨[.mul, .div, .mod], .left⟩,
   ⟨[.pow], .right⟩,
   ⟨[.range, .rangeInclusive], .right⟩]

end ContractCompiler
