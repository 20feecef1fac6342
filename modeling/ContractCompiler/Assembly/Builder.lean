import ContractCompiler.Assembly.Fault
import ContractCompiler.Assembly.Instruction
import ContractCompiler.Entry

/-!
# Building code

Code is produced one instruction at a time, along with the types of the stack slots after it.
An instruction that the machine version, the mode or the stack does not admit is refused.
-/

namespace ContractCompiler

/-- The types on the stack, top first. -/
abbrev StackShape := List StackType

/-! ## Stack effects -/

namespace StackEffect

/-- What lies `depth` slots below the top, for an operation that needs it. -/
def peek (op : Opcode) (depth : Nat) (stack : StackShape) : Except CodeFault StackType :=
  match stack[depth]? with
  | some t => .ok t
  | none => .error (.underflow op (depth + 1) stack.length)

/-- The integer operand that an operation needs. -/
def depthOperand (op : Opcode) : List Operand → Except CodeFault Nat
  | .uint n :: _ => .ok n.toNat
  | _ => .error (.needsInteger op)

/-- Whether slots, from the bottom up, are what an operation wants; `index` counts them. -/
def checkTypes (op : Opcode) : (wanted slots : List StackType) → (index : Nat) →
    Except CodeFault Unit
  | want :: wanted, have_ :: slots, index =>
    if want.accepts have_ then checkTypes op wanted slots (index + 1)
    else .error (.operandType op want index have_)
  | _, _, _ => .ok ()

/-- The stack after an operation that takes and leaves slots of fixed types. -/
def replace (op : Opcode) (stack : StackShape) : Except CodeFault StackShape := do
  let count := op.pops.length
  if stack.length < count then
    throw (.underflow op count stack.length)
  checkTypes op op.pops (stack.take count).reverse 1
  return op.pushes.reverse ++ stack.drop count

/-- The stack after an operation. Operations that copy or move slots keep their types. -/
def apply (op : Opcode) (operands : List Operand) (stack : StackShape) :
    Except CodeFault StackShape :=
  match op with
  | .dup => do
    let t ← peek op 0 stack
    return t :: stack
  | .dup2 => do
    let a ← peek op 1 stack
    let b ← peek op 0 stack
    return b :: a :: stack
  | .dig => do
    let n ← depthOperand op operands
    let t ← peek op n stack
    return t :: stack
  | .swap => do
    let a ← peek op 1 stack
    let b ← peek op 0 stack
    return a :: b :: stack.drop 2
  | .cover => do
    let n ← depthOperand op operands
    let _ ← peek op n stack
    let t ← peek op 0 stack
    return stack.tail.take n ++ t :: stack.tail.drop n
  | .uncover => do
    let n ← depthOperand op operands
    let t ← peek op n stack
    return t :: stack.eraseIdx n
  | _ => replace op stack

end StackEffect

/-! ## The builder -/

/-- Code in the making. -/
structure Builder where
  /-- The instructions so far, newest first. -/
  emitted : List Instruction
  stack : StackShape
  version : Nat
  mode : Mode
  metrics : Metrics
  nextLabel : Nat
deriving DecidableEq, Repr

/-- A step of building: it changes the builder, or fails. -/
abbrev Build := EStateM CodeFault Builder

namespace Builder

/-- A builder for a version of the machine and a mode. -/
def new (version : Nat) (mode : Mode) : Builder :=
  ⟨[], [], version, mode, .zero, 0⟩

/-- The instructions so far, in order. -/
def code (b : Builder) : List Instruction :=
  b.emitted.reverse

/-- The number of slots on the stack. -/
def depth (b : Builder) : Nat :=
  b.stack.length

/-- What is known of the slot `n` below the top. -/
def typeAt? (b : Builder) (n : Nat) : Option StackType :=
  b.stack[n]?

/-- What is known of the top slot. -/
def top? (b : Builder) : Option StackType :=
  b.typeAt? 0

/-- Whether a mode admits an operation. -/
def checkMode (op : Opcode) (mode : Mode) : Except CodeFault Unit :=
  match op.mode with
  | .any => .ok ()
  | .signature => if mode.contains .signature then .ok () else .error (.signatureOnly op)
  | .application => if mode.isApplication then .ok () else .error (.applicationOnly op)

/-- The builder after one more operation. -/
def pushed (b : Builder) (op : Opcode) (operands : List Operand) : Except CodeFault Builder := do
  match op.costAt b.version with
  | none => throw (.unavailable op b.version)
  | some cost =>
    checkMode op b.mode
    if operands.length ≠ op.params.length then
      throw (.operandCount op operands.length)
    let stack ← StackEffect.apply op operands b.stack
    return { b with
      emitted := .op op operands :: b.emitted
      stack
      metrics := (b.metrics.addOp cost).setDepth stack.length }

/-- Makes a step of building from the builder after it. -/
def step (f : Builder → Except CodeFault Builder) : Build Unit := fun b =>
  match f b with
  | .ok b' => .ok () b'
  | .error e => .error e b

/-- Appends an operation. -/
def push (op : Opcode) (operands : List Operand) : Build Unit :=
  step fun b => b.pushed op operands

/-- Appends a label. -/
def label (name : String) : Build Unit :=
  modify fun b =>
    { b with
      emitted := .label name :: b.emitted
      metrics := { b.metrics with labels := b.metrics.labels + 1 } }

/-- Appends a comment. -/
def comment (text : String) : Build Unit :=
  modify fun b => { b with emitted := .comment text :: b.emitted }

/-- A label that was not handed out before, made from a word that tells its purpose. -/
def freshLabel (purpose : String) : Build String :=
  modifyGet fun b =>
    ("__" ++ purpose ++ "__" ++ toString b.nextLabel, { b with nextLabel := b.nextLabel + 1 })

/-- Changes what is known of the top slot, if there is one. -/
def retypeTop (t : StackType) : Build Unit :=
  modify fun b =>
    match b.stack with
    | [] => b
    | _ :: rest => { b with stack := t :: rest }

/-- The effect of a call on the stack: it takes its arguments and may leave a value. -/
def callEffect (args : Nat) (returnsValue : Bool) : Build Unit :=
  step fun b =>
    if b.stack.length < args then .error (.callUnderflow args b.stack.length)
    else
      let rest := b.stack.drop args
      let stack := if returnsValue then .any :: rest else rest
      .ok { b with stack, metrics := b.metrics.setDepth stack.length }

/-- Replaces the stack. -/
def restore (stack : StackShape) : Build Unit :=
  modify fun b => { b with stack }

/-- Joins the stack with that of another way to the same place. -/
def merge (other : StackShape) : Build Unit :=
  step fun b =>
    if other.length ≠ b.stack.length then
      .error (.unbalancedBranches b.stack.length other.length)
    else .ok { b with stack := List.zipWith StackType.join b.stack other }

/-- Forgets all slots but the lowest `depth`. -/
def forget (depth : Nat) : Build Unit :=
  modify fun b => { b with stack := b.stack.drop (b.stack.length - depth) }

/-- Changes the counters. -/
def count (f : Metrics → Metrics) : Build Unit :=
  modify fun b => { b with metrics := f b.metrics }

/-! ## Finishing -/

/-- The first name in a list that was there before, or is in `seen`. -/
def firstRepeated? : List String → (seen : List String) → Option String
  | [], _ => none
  | n :: ns, seen => if seen.contains n then some n else firstRepeated? ns (n :: seen)

/-- The labels that some code defines. -/
def definedLabels (code : List Instruction) : List String :=
  code.filterMap Instruction.label?

/-- The labels that some code refers to. -/
def usedLabels (code : List Instruction) : List String :=
  code.filterMap Instruction.target?

/-- The finished program of an entry: no label may be defined twice, and every label that is
referred to must be defined. -/
def finish (b : Builder) (entry : String) : Except CodeFault Assembly :=
  let defined := definedLabels b.code
  match firstRepeated? defined [] with
  | some name => .error (.duplicateLabel name)
  | none =>
    match (usedLabels b.code).find? (!defined.contains ·) with
    | some name => .error (.undefinedLabel name)
    | none => .ok ⟨entry, b.version, b.code, b.metrics⟩

end Builder

end ContractCompiler
