import ContractCompiler.Assembly.Opcode
import ContractCompiler.Syntax.Operator

/-!
# Faults of code

Why no code can be produced for a program. Expressions stand in a fault as the text that
shows them.
-/

namespace ContractCompiler

/-- What stands in the way of producing code. -/
inductive CodeFault where
  | unavailable (op : Opcode) (version : Nat)
  | signatureOnly (op : Opcode)
  | applicationOnly (op : Opcode)
  | operandCount (op : Opcode) (got : Nat)
  | needsInteger (op : Opcode)
  | underflow (op : Opcode) (needs has : Nat)
  | operandType (op : Opcode) (want : StackType) (index : Nat) (found : StackType)
  | callUnderflow (needs has : Nat)
  | unbalancedBranches (depth other : Nat)
  | duplicateLabel (name : String)
  | undefinedLabel (name : String)
  | noBlock
  | unbalancedBlock (depth expected : Nat)
  | noProgram
  | missingEntry (name : String)
  | emptyCase
  | throwNeedsLiteral
  | exitNeedsValue
  | tooManyBelow (count : Nat)
  | slotAboveTop
  | slotOnTop
  | slotTooDeep (distance : Nat)
  | noSlot (name : String)
  | notPlainVariable (expr : String)
  | rangeOperator (op : BinaryOperator)
  | noBytesForm (op : BinaryOperator)
  | noOpcode (op : BinaryOperator)
  | noBytesOpcode (op : BinaryOperator)
  | typeTest (expr : String)
  | missingArm (expr : String)
  | castTarget (expr : String)
  | unknownType (name : String)
  | noCast (name : String)
  | unknownFunction (name : String)
  | argumentWithoutValue (arg callee : String)
  | hashArguments
  | notHashAlgorithm (expr : String)
  | cannotLoad (place : String)
  | argumentCountMode
  /-- A cause put in words by whoever drives the generator. -/
  | stated (text : String)
deriving DecidableEq, Repr

/-- The wording of a fault. -/
def CodeFault.message : CodeFault → String
  | unavailable op version => s!"`{op.name}` is not available in TEAL v{version}"
  | signatureOnly op => s!"`{op.name}` is only available in signature mode"
  | applicationOnly op => s!"`{op.name}` is only available in application mode"
  | operandCount op got => s!"`{op.name}` takes {op.params.length} operand(s), got {got}"
  | needsInteger op => s!"`{op.name}` needs an integer operand"
  | underflow op needs has => s!"stack underflow at `{op.name}`: needs {needs}, has {has}"
  | operandType op want index found =>
    s!"`{op.name}` expects {want.word} in operand {index}, found {found.word}"
  | callUnderflow needs has => s!"stack underflow at call: needs {needs}, has {has}"
  | unbalancedBranches depth other => s!"unbalanced branches: depth {depth} vs {other}"
  | duplicateLabel name => s!"label `{name}` is defined twice"
  | undefinedLabel name => s!"undefined label `{name}`"
  | noBlock => "block frame underflow"
  | unbalancedBlock depth expected =>
    s!"unbalanced block: depth {depth} but {expected} expected"
  | noProgram => "no entry program was generated"
  | missingEntry name => s!"missing entry function `{name}`"
  | emptyCase => "switch case without values"
  | throwNeedsLiteral => "`throw` needs a literal message"
  | exitNeedsValue => "`exit` needs a value"
  | tooManyBelow count =>
    s!"{count} slots below the return value, at most 255 can be dropped"
  | slotAboveTop => "variable slot above the stack top"
  | slotOnTop => "variable slot at the stack top"
  | slotTooDeep distance => s!"variable is {distance} slots deep, at most 255 are reachable"
  | noSlot name => s!"`{name}` has no stack slot"
  | notPlainVariable expr => s!"`{expr}` is not a plain variable"
  | rangeOperator op => s!"range operator `{op.text}` cannot be lowered"
  | noBytesForm op => s!"operator `{op.text}` has no byte-string form"
  | noOpcode op => s!"operator `{op.text}` has no opcode"
  | noBytesOpcode op => s!"operator `{op.text}` has no byte-string opcode"
  | typeTest expr => s!"type test `{expr}` cannot be lowered"
  | missingArm expr => s!"`{expr}` is missing its `:` arm"
  | castTarget expr => s!"cast target `{expr}` is not a type"
  | unknownType name => s!"unknown type `{name}`"
  | noCast name => s!"cast to `{name}` cannot be lowered"
  | unknownFunction name => s!"unknown function `{name}`"
  | argumentWithoutValue arg callee => s!"argument `{arg}` of `{callee}` has no value"
  | hashArguments => "`Hash` takes two arguments"
  | notHashAlgorithm expr => s!"`{expr}` is not a hash algorithm"
  | cannotLoad place => s!"cannot load `{place}`"
  | argumentCountMode => "`args.len` is only available in application mode"
  | stated text => text

end ContractCompiler
