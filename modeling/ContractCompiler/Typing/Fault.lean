import ContractCompiler.Syntax.Operator

/-!
# Faults of meaning

Why a program that can be read makes no sense. Types and expressions stand in a fault as
the text that names them.
-/

namespace ContractCompiler

/-- What is wrong with the meaning of a program. -/
inductive TypeFault where
  | duplicateFunction (name : String)
  | missingEntry (name : String)
  | entryTakesParameters (name : String)
  | duplicateParameter (name : String)
  | caseType (tested : String)
  | conditionType (found : String)
  | throwNeedsLiteral
  | exitNeedsValue
  | exitType
  | entryReturnType
  | returnType (found : String)
  | missingReturnValue
  | noValue
  | notOperand
  | complementOperand
  | unreadable (place : String)
  | choiceWithoutArms
  | choiceArmTypes
  | castTarget
  | badCast (expr target : String)
  | rangeOperator (op : BinaryOperator)
  | typeTestOperand
  | notTransactionType (name : String)
  | typeTestMismatch (expr target : String)
  | integerOperands (op : BinaryOperator)
  | nonBasicOperands
  | operandTypes (left right : String)
  | notAssignable
  | assignThroughAccess
  | storeType (found name : String)
  | constant (name : String)
  | assignType (found name declared : String)
  | unknownFunction (name : String)
  | entryCalled (name : String)
  | argumentCount (name : String) (takes got : Nat)
  | argumentType (found : String)
  | hashInput
  | hashAlgorithm
  | undeclared (name : String)
  | noMember (member owner : String)
  | noAccessor (base : String)
  | indexType (base index : String)
deriving DecidableEq, Repr

/-- The wording of a fault. -/
def TypeFault.message : TypeFault → String
  | duplicateFunction name => s!"function `{name}` is already defined"
  | missingEntry name => s!"missing entry function `{name}`"
  | entryTakesParameters name => s!"entry function `{name}` cannot take parameters"
  | duplicateParameter name => s!"duplicate parameter `{name}`"
  | caseType tested => s!"must be of the same type as the tested value `{tested}`"
  | conditionType found => s!"condition must be Uint64, found `{found}`"
  | throwNeedsLiteral => "`throw` needs a string or byte list literal"
  | exitNeedsValue => "`exit` needs a value"
  | exitType => "`exit` value must be Uint64"
  | entryReturnType => "entry function must return Uint64"
  | returnType found => s!"cannot return a value of type `{found}`"
  | missingReturnValue => "missing return value in a function that returns a value"
  | noValue => "function does not return a value"
  | notOperand => "operation `!` can only be done on Uint64"
  | complementOperand => "operation `~` can only be done on Uint64 or Bytes"
  | unreadable place => s!"`{place}` cannot be read by a program"
  | choiceWithoutArms => "`?` must be followed by `then : else` arms"
  | choiceArmTypes => "ternary arms must have the same type"
  | castTarget => "cast target must be a type"
  | badCast expr target => s!"can't cast `{expr}` to `{target}`"
  | rangeOperator op => s!"range operator `{op.text}` is not supported here"
  | typeTestOperand => "type test needs `Txn` or `TxnGroup[i]` on the left"
  | notTransactionType name => s!"`{name}` is not a transaction type"
  | typeTestMismatch expr target => s!"can't compare `{expr}` with type `{target}`"
  | integerOperands op => s!"operator `{op.text}` needs Uint64 operands"
  | nonBasicOperands => "can't operate on non-basic type operands"
  | operandTypes left right =>
    s!"can't operate on different type operands `{left}` and `{right}`"
  | notAssignable => "left part is not assignable"
  | assignThroughAccess => "assignment through member or array access is not supported"
  | storeType found name => s!"can't store a value of type `{found}` in `{name}`"
  | constant name => s!"`{name}` is not assignable"
  | assignType found name declared =>
    s!"can't assign `{found}` to `{name}` of type `{declared}`"
  | unknownFunction name => s!"unknown function `{name}`"
  | entryCalled name => s!"entry function `{name}` cannot be called"
  | argumentCount name takes got =>
    s!"wrong number of arguments: `{name}` takes {takes}, got {got}"
  | argumentType found => s!"can't pass a value of type `{found}`"
  | hashInput => "`Hash` input must be Uint64 or Bytes"
  | hashAlgorithm => "second argument of `Hash` must be one of SHA256, Keccak256, SHA512_256"
  | undeclared name => s!"`{name}` is not declared before first use"
  | noMember member owner => s!"`{member}` is not part of `{owner}`"
  | noAccessor base => s!"`{base}` doesn't have a [] accessor"
  | indexType base index => s!"index of `{base}` must be `{index}`"

end ContractCompiler
