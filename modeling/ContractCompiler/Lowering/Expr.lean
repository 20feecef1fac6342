import ContractCompiler.Lowering.Context

/-!
# Lowering expressions

The code of an expression leaves its value on top of the stack. Operands are lowered from left
to right; what is known of them on the stack decides between the integer and the byte-string
form of an operator.
-/

namespace ContractCompiler

/-- The largest immediate operand of operations that reach into the stack or an array. -/
def maxImmediate : Nat := 255

/-- The operation for an operator on integers. -/
def BinaryOperator.uintOpcode? : BinaryOperator → Option Opcode
  | .or => some .logicOr
  | .and => some .logicAnd
  | .bitOr => some .bitOr
  | .bitXor => some .bitXor
  | .bitAnd => some .bitAnd
  | .eq => some .eq
  | .ne => some .ne
  | .lt => some .lt
  | .gt => some .gt
  | .le => some .le
  | .ge => some .ge
  | .shl => some .shl
  | .shr => some .shr
  | .add => some .add
  | .sub => some .sub
  | .mul => some .mul
  | .div => some .div
  | .mod => some .mod
  | .pow => some .exp
  | .assign | .ternary | .colon | .range | .rangeInclusive => none

/-- The operation for an operator on byte strings. -/
def BinaryOperator.bytesOpcode? : BinaryOperator → Option Opcode
  | .bitOr => some .bytesOr
  | .bitXor => some .bytesXor
  | .bitAnd => some .bytesAnd
  | .eq => some .bytesEq
  | .ne => some .bytesNe
  | .lt => some .bytesLt
  | .gt => some .bytesGt
  | .le => some .bytesLe
  | .ge => some .bytesGe
  | .add => some .bytesAdd
  | .sub => some .bytesSub
  | .mul => some .bytesMul
  | .div => some .bytesDiv
  | .mod => some .bytesMod
  | .or | .and | .shl | .shr | .pow
  | .assign | .ternary | .colon | .range | .rangeInclusive => none

/-- The value of an index that fits in an immediate operand. -/
def Expr.constIndex? : Expr → Option UInt64
  | .uint v _ => if v.toNat ≤ maxImmediate then some v else none
  | _ => none

/-- An index: its value if that is an immediate operand, and its code. -/
structure IndexCode where
  constant? : Option UInt64
  code : Lower Unit

namespace Lower

/-! ## Operators -/

/-- The integer form of an operator. -/
def uintOperator (o : BinaryOperator) : Lower Unit :=
  match o.uintOpcode? with
  | some code => op₀ code
  | none => fail (.noOpcode o)

/-- The byte-string form of an operator. -/
def bytesOperator (o : BinaryOperator) : Lower Unit :=
  match o.bytesOpcode? with
  | some code => op₀ code
  | none => fail (.noBytesOpcode o)

/-- An operator whose operands are on the stack. If one of them is known to be a byte string,
an integer beside it is turned into one; equal types are compared as they are. -/
def operator (o : BinaryOperator) : Lower Unit := do
  let b ← builder
  let left := (b.typeAt? 1).getD .any
  let right := (b.typeAt? 0).getD .any
  if left ≠ .bytes ∧ right ≠ .bytes then
    uintOperator o
  else if o.needsIntegers then
    fail (.noBytesForm o)
  else if (o = .eq ∨ o = .ne) ∧
      ¬((left = .uint64 ∧ right = .bytes) ∨ (left = .bytes ∧ right = .uint64)) then
    uintOperator o
  else
    if left = .uint64 then
      op₀ .swap
      op₀ .itob
      op₀ .swap
    if right = .uint64 then
      op₀ .itob
    bytesOperator o

/-- A unary operator whose operand is on the stack. -/
def unaryOperator (o : UnaryOperator) : Lower Unit := do
  match o with
  | .not => op₀ .logicNot
  | .complement =>
    if (← builder).top? = some .bytes then op₀ .bytesNot else op₀ .bitNot

/-- A choice: the code of one of two arms runs, as the condition says. -/
def choice (condition left right : Lower Unit) : Lower Unit := do
  let elseLabel ← build (Builder.freshLabel "ternary_else")
  let endLabel ← build (Builder.freshLabel "ternary_end")
  condition
  op .bz [.label elseLabel]
  let before := (← builder).stack
  left
  let after := (← builder).stack
  op .branch [.label endLabel]
  build (Builder.label elseLabel)
  build (Builder.restore before)
  right
  build (Builder.label endLabel)
  build (Builder.merge after)

/-- A cast to the type that an expression names. -/
def cast (target : Expr) (operand : Lower Unit) : Lower Unit := do
  match target.asName? with
  | none => fail (.castTarget target.display)
  | some name =>
    match Builtin.types.lookup? name with
    | none => fail (.unknownType name)
    | some type =>
      operand
      let source := (← builder).top?
      if type = .uint64 then
        if source = some .bytes then op₀ .btoi else build (Builder.retypeTop .uint64)
      else if type = .bytes then
        if source = some .uint64 then op₀ .itob else build (Builder.retypeTop .bytes)
      else if type = .any then
        build (Builder.retypeTop .any)
      else if Builtin.types.isEnum type then
        if source = some .bytes then
          op₀ .btoi
        build (Builder.retypeTop .uint64)
      else fail (.noCast name)

/-! ## Local variables -/

/-- How far below the top the slot at height `pos` is. -/
def distance (pos : Nat) : Lower Nat := do
  let depth := (← builder).depth
  if depth < pos then
    fail .slotAboveTop
  let n := depth - pos
  if n > maxImmediate then
    fail (.slotTooDeep n)
  return n

/-- Moves the top value into the slot `n` below it, and drops what was there. The top itself is
no slot to replace. -/
def replaceSlot : (n : Nat) → Lower Unit
  | 0 => fail .slotOnTop
  | 1 => do
    op₀ .swap
    op₀ .pop
  | n + 2 => do
    op .cover [.uint (UInt64.ofNat (n + 2))]
    op .uncover [.uint (UInt64.ofNat (n + 1))]
    op₀ .pop

/-- Stores a value in the slot of the name that `target` is. With `keep`, the value stays on
the stack as well. -/
def store (target : Expr) (value : Lower Unit) (keep : Bool) : Lower Unit := do
  match target.asName? with
  | none => fail (.notPlainVariable target.display)
  | some name =>
    match ← slot? name with
    | none => fail (.noSlot name)
    | some slot =>
      value
      let type := (← builder).top?.getD .any
      if keep then
        op₀ .dup
      replaceSlot (← distance slot.pos)
      noteStore name type

/-- The value of a name that is no local variable. -/
def constant? (entry : Entry) (name : String) : Option UInt64 :=
  if name = "true" then some 1
  else if name = "false" then some 0
  else (enumValue? entry name).map UInt64.ofNat

/-- Reads a name at an offset; `place` is the text that shows it. -/
def loadName (name : String) (offset : Nat) (place : String) : Lower Unit := do
  match ← slot? name with
  | some slot =>
    let n ← distance slot.pos
    op .dig [.uint (UInt64.ofNat n)]
    if let some t ← readType? offset slot then
      build (Builder.retypeTop t)
  | none =>
    match constant? (← read).entry name with
    | some v => pushUint v
    | none => fail (.cannotLoad place)

/-! ## Places -/

/-- An operation whose result is known to be of some type. -/
def typed (code : Opcode) (operands : List Operand) (type : StackType) : Lower Unit := do
  op code operands
  build (Builder.retypeTop type)

/-- An element of an array of the transaction. -/
def loadElement (a : LedgerArray) (i : IndexCode) : Lower Unit := do
  match i.constant? with
  | some k => typed .txna [.field a.elements, .uint k] a.type
  | none =>
    i.code
    typed .txnas [.field a.elements] a.type

/-- Reads a place; `text` shows it, and `offset` is where it starts. -/
def load (text : String) (offset : Nat) : Option (Load IndexCode) → Lower Unit
  | none => fail (.cannotLoad text)
  | some (.named name) => loadName name offset text
  | some (.field code field type) => typed code [.field field] type
  | some (.account code i) => do
    i.code
    op₀ code
  | some (.element a i) => loadElement a i
  | some (.scratch i) =>
    match i.constant? with
    | some k => op .load [.uint k]
    | none => do
      i.code
      op₀ .loads
  | some (.group i f) =>
    match i.constant? with
    | some k => typed .gtxn [.uint k, .field f.field] f.type
    | none => do
      i.code
      typed .gtxns [.field f.field] f.type
  | some .argumentCount => do
    if !(← read).entry.isApplication then
      fail .argumentCountMode
    typed .txn [.field LedgerArray.arguments.count] .uint64
  | some (.argument i) => do
    if (← read).entry.isApplication then
      loadElement LedgerArray.arguments i
    else
      match i.constant? with
      | some k => op .arg [.uint k]
      | none =>
        i.code
        op₀ .args

/-- Whether an expression names a type and no local variable. -/
def isTypeName (e : Expr) : Lower Bool := do
  match e.asName? with
  | none => return false
  | some name => return (← slot? name).isNone && (Builtin.types.lookup? name).isSome

/-- Tests whether a transaction, given by its steps, is of the type that `right` names; `text`
shows the test. -/
def typeTest (o : BinaryOperator) (left : Option (List (Step IndexCode))) (right : Expr)
    (text : String) : Lower Unit := do
  match right.asName?.bind transactionCode? with
  | none => fail (.typeTest text)
  | some code =>
    match left with
    | some [.name "Txn"] => op .txn [.field "TypeEnum"]
    | some [.name "TxnGroup", .index i] =>
      match i.constant? with
      | some k => op .gtxn [.uint k, .field "TypeEnum"]
      | none =>
        i.code
        op .gtxns [.field "TypeEnum"]
    | _ => fail (.typeTest text)
    build (Builder.retypeTop .uint64)
    pushUint code
    op₀ (if o = .ne then .ne else .eq)

/-! ## Calls -/

/-- The operation of the hash algorithm that an expression names. -/
def hashOpcode? (algorithm : Expr) : Option Opcode :=
  match algorithm.asName?.bind fun n => Builtin.hashValues.idxOf? n with
  | some 0 => some .sha256
  | some 1 => some .keccak256
  | some 2 => some .sha512x256
  | _ => none

/-- A hash of a value. -/
def hash (input : Lower Unit) (algorithm : Expr) : Lower Unit := do
  match hashOpcode? algorithm with
  | none => fail (.notHashAlgorithm algorithm.display)
  | some code =>
    input
    if (← builder).top? = some .uint64 then
      op₀ .itob
    op₀ code

/-- An argument of a call, which must leave one value. -/
def argument (callee : String) (e : Expr) (code : Lower Unit) : Lower Unit := do
  let depth := (← builder).depth
  code
  if (← builder).depth ≠ depth + 1 then
    fail (.argumentWithoutValue e.display callee)

/-- A call of a function of the program, given the code of its arguments. -/
def call (callee : String) (count : Nat) (args : Lower Unit) : Lower Unit := do
  match (← read).signatures.lookup callee with
  | none => fail (.unknownFunction callee)
  | some sig =>
    args
    op .callsub [.label callee]
    build (Builder.callEffect count sig.returnsValue)

end Lower

/-! ## Expressions -/

mutual

/-- The code of an expression. -/
def Expr.lower : Expr → Lower Unit
  | .uint value _ => Lower.pushUint value
  | .bytes value _ => Lower.op .pushbytes [.bytes value]
  | .unary op operand _ => do
    operand.lower
    Lower.unaryOperator op
  | .binary .assign left right _ => Lower.store left right.lower true
  | .binary .ternary condition (.binary .colon left right _) _ =>
    Lower.choice condition.lower left.lower right.lower
  | .binary .ternary condition right span =>
    Lower.fail (.missingArm (Expr.binary .ternary condition right span).display)
  | .binary .colon left right _ => Lower.cast right left.lower
  | .binary .range _ _ _ => Lower.fail (.rangeOperator .range)
  | .binary .rangeInclusive _ _ _ => Lower.fail (.rangeOperator .rangeInclusive)
  | .binary op left right span => do
    if (op = .eq ∨ op = .ne) ∧ (← Lower.isTypeName right) = true then
      let steps := match left with
        | .var place => some place.codeSteps
        | _ => none
      Lower.typeTest op steps right (Expr.binary op left right span).display
    else
      left.lower
      right.lower
      Lower.operator op
  | .call callee args _ =>
    if callee = Builtin.hashFunction.1 then
      match args with
      | [input, algorithm] => Lower.hash input.lower algorithm
      | _ => Lower.fail .hashArguments
    else Lower.call callee args.length (Expr.lowerArguments callee args)
  | .var place => Lower.load place.display place.span.start (Load.ofSteps? place.codeSteps)

/-- The code of the arguments of a call. -/
def Expr.lowerArguments (callee : String) : List Expr → Lower Unit
  | [] => return ()
  | e :: es => do
    Lower.argument callee e e.lower
    Expr.lowerArguments callee es

/-- The steps of a place, with the code of its indexes. -/
def Variable.codeSteps : Variable → List (Step IndexCode)
  | .name n _ => [.name n]
  | .index base i _ => base.codeSteps ++ [.index ⟨i.constIndex?, i.lower⟩]
  | .member owner m _ => owner.codeSteps ++ [.name m]

end

/-- The code of an expression whose value is not wanted. -/
def Expr.lowerStmt : Expr → Lower Unit
  | .binary .assign left right _ => Lower.store left right.lower false
  | e => do
    let depth := (← Lower.builder).depth
    e.lower
    Lower.popMany ((← Lower.builder).depth - depth)

end ContractCompiler
