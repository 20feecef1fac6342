import ContractCompiler.Assembly.Opcode
import ContractCompiler.Text.Base64

/-!
# Instructions and programs

The code of a program, as data and as assembly text.
-/

namespace ContractCompiler

/-- An immediate operand. -/
inductive Operand where
  | uint (value : UInt64)
  | bytes (value : List UInt8)
  | label (name : String)
  | field (name : String)
deriving DecidableEq, Repr

/-- An operand in assembly. -/
def Operand.text : Operand → String
  | uint value => toString value.toNat
  | bytes value => "base64(" ++ String.ofList (Text.Base64.encode value) ++ ")"
  | label name => name
  | field name => name

/-- A line of code. -/
inductive Instruction where
  | op (code : Opcode) (operands : List Operand)
  | label (name : String)
  | comment (text : String)
deriving DecidableEq, Repr

namespace Instruction

/-- The label that an instruction refers to. -/
def target? : Instruction → Option String
  | op _ operands => operands.findSome? fun o =>
    match o with
    | .label name => some name
    | _ => none
  | label _ | comment _ => none

/-- The label that an instruction defines. -/
def label? : Instruction → Option String
  | label name => some name
  | op _ _ | comment _ => none

/-- An instruction in assembly. -/
def text : Instruction → String
  | op code operands => operands.foldl (fun line o => line ++ " " ++ o.text) code.name
  | label name => name ++ ":"
  | comment text => "//" ++ text

end Instruction

/-- What is counted while code is produced. -/
structure Metrics where
  ops : Nat
  labels : Nat
  /-- Slots that were made for local variables. -/
  placeholders : Nat
  curDepth : Nat
  peakDepth : Nat
  staticCost : Nat
  subroutines : Nat
  /-- Functions that were left out because nothing calls them. -/
  pruned : Nat
deriving DecidableEq, Repr

namespace Metrics

/-- Nothing counted yet. -/
def zero : Metrics := ⟨0, 0, 0, 0, 0, 0, 0, 0⟩

/-- Counts an operation. -/
def addOp (m : Metrics) (cost : Nat) : Metrics :=
  { m with ops := m.ops + 1, staticCost := m.staticCost + cost }

/-- Notes the depth of the stack. -/
def setDepth (m : Metrics) (depth : Nat) : Metrics :=
  { m with curDepth := depth, peakDepth := max depth m.peakDepth }

end Metrics

/-- The finished code of one entry. -/
structure Assembly where
  entry : String
  version : Nat
  code : List Instruction
  metrics : Metrics
deriving DecidableEq, Repr

/-- The text of a program: a line for the version, then a line for each instruction. -/
def Assembly.text (a : Assembly) : String :=
  let first := "#pragma version " ++ toString a.version ++ "\n"
  a.code.foldl (fun out i => out ++ i.text ++ "\n") first

end ContractCompiler
