import Std.Data.TreeMap
import ContractCompiler.Assembly.Load
import ContractCompiler.Diagnostic
import ContractCompiler.Syntax.Node
import ContractCompiler.Syntax.Printer
import ContractCompiler.Typing.Builtin

/-!
# Typing rules

A program makes sense if its functions have different names, its entries are there, and every
function body follows the typing rules. A variable is declared by its first assignment and is
known until the end of the block.

A body is checked on its own: of the other functions it only sees how many arguments they take
and whether they return a value.
-/

namespace ContractCompiler

open TypeTable (isBasic isInteger)

/-- What callers know of a function. -/
structure Signature where
  arity : Nat
  returnsValue : Bool
deriving DecidableEq, Repr

/-- What a body is checked against. -/
structure CheckEnv where
  mode : Mode
  types : TypeTable
  builtin : Builtin
  /-- What is known of the functions of the program, by name. -/
  signatures : List (String × Signature)
  /-- The name of the function that the body belongs to. -/
  current : String
  /-- Whether that function returns a value somewhere. -/
  currentReturns : Bool

namespace CheckEnv

/-- Whether a function is an entry of the mode. -/
def isEntry (env : CheckEnv) (name : String) : Bool :=
  env.mode.entryPoints.contains name

/-- What is known of a stack slot that holds a value of a type. -/
def stackType (env : CheckEnv) (type : TypeId) : StackType :=
  if type = .uint64 then .uint64
  else if type = .bytes then .bytes
  else if env.types.isEnum type then .uint64
  else .any

end CheckEnv

/-- What changes while a body is checked: the names in scope, the number of locals, and for
each read of a local, by its offset, what is known of its value. -/
structure CheckState where
  scopes : Scopes
  locals : Nat
  localTypes : Std.TreeMap Nat StackType

/-- A fault and the piece of source to blame. -/
structure TypeFaultAt where
  span : Span
  fault : TypeFault
deriving DecidableEq, Repr

/-- Checking can fail, and changes the state as it goes along. -/
abbrev Check := StateT CheckState (Except TypeFaultAt)

namespace Check

/-- Fails with a fault of a piece of source. -/
def fail {α : Type} (span : Span) (fault : TypeFault) : Check α :=
  throw ⟨span, fault⟩

/-- Finds a name. -/
def lookup? (name : String) : Check (Option Field) := do
  return (← get).scopes.lookup? name

/-- Enters a frame of names. -/
def enter (boundary : Boundary) : Check Unit :=
  modify fun s => { s with scopes := s.scopes.push boundary }

/-- Leaves a frame of names. -/
def leave : Check Unit :=
  modify fun s => { s with scopes := s.scopes.pop }

/-- Declares a local variable. -/
def declareLocal (name : String) (type : TypeId) : Check Unit :=
  modify fun s =>
    { s with scopes := s.scopes.declare name (.var type), locals := s.locals + 1 }

/-- Notes what is known of the value read at an offset. -/
def noteRead (offset : Nat) (type : StackType) : Check Unit :=
  modify fun s => { s with localTypes := s.localTypes.insert offset type }

end Check

/-- The type that an expression names, if it names one. -/
def Expr.typeOperand? (env : CheckEnv) (e : Expr) : Check (Option TypeId) :=
  match e.asName? with
  | none => return none
  | some name => do
    match ← Check.lookup? name with
    | some f => return if f.type = .type then env.types.lookup? name else none
    | none => return none

/-- An expression of type `type` must have a value. -/
def expectValue (e : Expr) (type : TypeId) : Check TypeId :=
  if type = .void then Check.fail e.span .noValue else return type

/-- An expression of type `type` must be a condition. -/
def expectCondition (env : CheckEnv) (e : Expr) (type : TypeId) : Check Unit := do
  let type ← expectValue e type
  unless isInteger type do
    Check.fail e.span (.conditionType (env.types.name type))

/-- The type of an operator's result, from those of its operands. -/
def operatorType (env : CheckEnv) (op : BinaryOperator) (span : Span) (left right : TypeId) :
    Check TypeId := do
  if op.needsIntegers && !(isInteger left && isInteger right) then
    Check.fail span (.integerOperands op)
  if !env.types.isValue left || !env.types.isValue right then
    Check.fail span .nonBasicOperands
  unless env.types.isCompatible left right do
    Check.fail span (.operandTypes (env.types.name left) (env.types.name right))
  return if op.isComparison || op.isLogical then .uint64 else left

/-- The type of a cast, from that of its operand. -/
def castType (env : CheckEnv) (left right : Expr) (span : Span) (source : TypeId) :
    Check TypeId := do
  match ← right.typeOperand? env with
  | none => Check.fail right.span .castTarget
  | some target =>
    if env.types.isAssignableFrom target source || env.types.isAssignableFrom source target ||
        (env.types.isValue source && env.types.isValue target) then
      return target
    else Check.fail span (.badCast left.display (env.types.name target))

/-- The type of a test whether a transaction of type `source` is one of type `target`. -/
def typeTestType (env : CheckEnv) (left right : Expr) (span : Span) (source target : TypeId) :
    Check TypeId := do
  if (transactionCode? (env.types.name target)).isNone then
    Check.fail right.span (.notTransactionType (env.types.name target))
  if !env.types.isAssignableFrom source target && !env.types.isAssignableFrom target source then
    Check.fail span (.typeTestMismatch left.display (env.types.name target))
  return .uint64

/-- Assigns a value to a name that may or may not be declared. -/
def assignTo (env : CheckEnv) (name : String) (span : Span) (value : Check TypeId) :
    Check TypeId := do
  match ← Check.lookup? name with
  | none =>
    let type ← value
    unless env.types.isValue type do
      Check.fail span (.storeType (env.types.name type) name)
    Check.declareLocal name type
    return type
  | some f =>
    if f.constReference || f.constMembers then
      Check.fail span (.constant name)
    let type ← value
    unless env.types.isCompatible f.type type do
      Check.fail span (.assignType (env.types.name type) name (env.types.name f.type))
    return f.type

/-- The algorithm of a hash must be one of the built-in names for them. -/
def expectAlgorithm (env : CheckEnv) (algorithm : Expr) : Check Unit := do
  let field ← match algorithm.asName? with
    | some name => Check.lookup? name
    | none => pure none
  unless field.map Field.type = some env.builtin.hash do
    Check.fail algorithm.span .hashAlgorithm

/-- What a call of a function of the program gives. -/
def resultType (sig : Signature) : TypeId :=
  if sig.returnsValue then .any else .void

mutual

/-- The type of an expression. -/
def Expr.check (env : CheckEnv) : Expr → Check TypeId
  | .uint _ _ => return .uint64
  | .bytes _ _ => return .bytes
  | .unary op operand span => do
    let type ← expectValue operand (← operand.check env)
    match op with
    | .not => if isInteger type then return .uint64 else Check.fail span .notOperand
    | .complement => if isBasic type then return type else Check.fail span .complementOperand
  | .binary .assign (.var (.name name _)) right span =>
    assignTo env name span (do expectValue right (← right.check env))
  | .binary .assign (.var _) _ span => Check.fail span .assignThroughAccess
  | .binary .assign _ _ span => Check.fail span .notAssignable
  | .binary .ternary condition (.binary .colon left right _) span => do
    expectCondition env condition (← condition.check env)
    let thenType ← expectValue left (← left.check env)
    let elseType ← expectValue right (← right.check env)
    unless env.types.isCompatible thenType elseType do
      Check.fail span .choiceArmTypes
    return if thenType = .any then elseType else thenType
  | .binary .ternary _ _ span => Check.fail span .choiceWithoutArms
  | .binary .colon left right span => do
    let source ← expectValue left (← left.check env)
    castType env left right span source
  | .binary .range _ _ span => Check.fail span (.rangeOperator .range)
  | .binary .rangeInclusive _ _ span => Check.fail span (.rangeOperator .rangeInclusive)
  | .binary op left right span => do
    match ← (if op = .eq ∨ op = .ne then right.typeOperand? env else pure none) with
    | some target =>
      match left with
      | .var place =>
        if (Expr.var place).isTransaction then
          let source ← place.check env
          typeTestType env (.var place) right span source.type target
        else Check.fail place.span .typeTestOperand
      | _ => Check.fail left.span .typeTestOperand
    | none =>
      let leftType ← expectValue left (← left.check env)
      let rightType ← expectValue right (← right.check env)
      operatorType env op span leftType rightType
  | .call callee args span => do
    let builtinCall := callee == Builtin.hashFunction.1
    let sig? :=
      if builtinCall then some ⟨Builtin.hashFunction.2, true⟩
      else env.signatures.lookup callee
    match sig? with
    | none => Check.fail span (.unknownFunction callee)
    | some sig =>
      if env.isEntry callee then
        Check.fail span (.entryCalled callee)
      if args.length ≠ sig.arity then
        Check.fail span (.argumentCount callee sig.arity args.length)
      if builtinCall then
        Expr.checkHash env args
      else
        Expr.checkArguments env args
        return resultType sig
  | .var (.name name span) => do
    return (← (Variable.name name span).check env).type
  | .var place => do
    let field ← place.check env
    unless place.isLoadable do
      Check.fail place.span (.unreadable place.display)
    return field.type

/-- The rules for the arguments of a call. -/
def Expr.checkArguments (env : CheckEnv) : List Expr → Check Unit
  | [] => return ()
  | e :: es => do
    let type ← expectValue e (← e.check env)
    unless env.types.isValue type do
      Check.fail e.span (.argumentType (env.types.name type))
    Expr.checkArguments env es

/-- The rules for the arguments of a hash: its input and its algorithm. -/
def Expr.checkHash (env : CheckEnv) : List Expr → Check TypeId
  | [input, algorithm] => do
    let type ← expectValue input (← input.check env)
    unless isBasic type do
      Check.fail input.span .hashInput
    expectAlgorithm env algorithm
    return .bytes
  | _ => return .bytes

/-- The field that a place is. -/
def Variable.check (env : CheckEnv) : Variable → Check Field
  | .name n span => do
    match ← Check.lookup? n with
    | none => Check.fail span (.undeclared n)
    | some f =>
      unless f.constReference do
        Check.noteRead span.start (env.stackType f.type)
      return f
  | .member owner m span => do
    let ownerField ← owner.check env
    match env.types.member? ownerField.type m with
    | none => Check.fail span (.noMember m (env.types.name ownerField.type))
    | some f => return f.inside ownerField
  | .index base i span => do
    let baseField ← base.check env
    match env.types.accessor? baseField.type with
    | none => Check.fail span (.noAccessor (env.types.name baseField.type))
    | some accessor =>
      let indexType ← expectValue i (← i.check env)
      if !env.types.isCompatible indexType accessor.index &&
          !env.types.isAssignableFrom accessor.index indexType then
        Check.fail i.span
          (.indexType (env.types.name baseField.type) (env.types.name accessor.index))
      return accessor.element.inside baseField

end

/-- An expression with a value. -/
def Expr.checkValue (env : CheckEnv) (e : Expr) : Check TypeId := do
  expectValue e (← e.check env)

/-- An expression used as a condition. -/
def Expr.checkCondition (env : CheckEnv) (e : Expr) : Check Unit := do
  expectCondition env e (← e.check env)

/-- The rules for leaving a function. -/
def checkLeaving (env : CheckEnv) (kind : Leaving) (value : Option Expr) (span : Span) :
    Check Unit :=
  match kind, value with
  | .throwing, some (.bytes _ _) => return ()
  | .throwing, _ => Check.fail span .throwNeedsLiteral
  | .exiting, some e => do
    unless isInteger (← e.checkValue env) do
      Check.fail e.span .exitType
  | .exiting, none => Check.fail span .exitNeedsValue
  | .returning, some e => do
    let type ← e.checkValue env
    if env.isEntry env.current && !isInteger type then
      Check.fail e.span .entryReturnType
    unless env.types.isValue type do
      Check.fail e.span (.returnType (env.types.name type))
  | .returning, none =>
    if !env.isEntry env.current && env.currentReturns then
      Check.fail span .missingReturnValue
    else return ()

/-- The rule for the values of a case. -/
def checkCaseValues (env : CheckEnv) (tested : TypeId) : List Expr → Check Unit
  | [] => return ()
  | e :: es => do
    let type ← e.checkValue env
    unless env.types.isCompatible type tested do
      Check.fail e.span (.caseType (env.types.name tested))
    checkCaseValues env tested es

mutual

/-- The rules for a statement. -/
def Stmt.check (env : CheckEnv) : Stmt → Check Unit
  | .ifElse condition thenBlock none _ => do
    condition.checkCondition env
    thenBlock.check env
  | .ifElse condition thenBlock (some elseBlock) _ => do
    condition.checkCondition env
    thenBlock.check env
    elseBlock.check env
  | .whileDo condition body _ => do
    condition.checkCondition env
    body.check env
  | .doWhile body condition _ => do
    body.check env
    condition.checkCondition env
  | .switch tested cases none _ => do
    let type ← tested.checkValue env
    Case.checkList env type cases
  | .switch tested cases (some otherwise) _ => do
    let type ← tested.checkValue env
    Case.checkList env type cases
    otherwise.check env
  | .leave kind value span => checkLeaving env kind value span
  | .expr e => do
    let _ ← e.check env

/-- The rules for statements in a row. -/
def Stmt.checkList (env : CheckEnv) : List Stmt → Check Unit
  | [] => return ()
  | s :: ss => do
    s.check env
    Stmt.checkList env ss

/-- The rules for a block, which has names of its own. -/
def Block.check (env : CheckEnv) : Block → Check Unit
  | ⟨stmts, _⟩ => do
    Check.enter .clear
    Stmt.checkList env stmts
    Check.leave

/-- The rules for the cases of a switch on a value of type `tested`. -/
def Case.checkList (env : CheckEnv) (tested : TypeId) : List Case → Check Unit
  | [] => return ()
  | ⟨values, block, _⟩ :: cs => do
    checkCaseValues env tested values
    block.check env
    Case.checkList env tested cs

end

/-! ## Functions and programs -/

/-- Declares the parameters of a function. -/
def declareParams (span : Span) : List String → Check Unit
  | [] => return ()
  | p :: ps => do
    match (← get).scopes.declare? p (.var .any) with
    | none => Check.fail span (.duplicateParameter p)
    | some scopes =>
      modify fun s => { s with scopes }
      declareParams span ps

/-- What is learned from a body: the number of its locals, and what is known of each read. -/
structure BodyFacts where
  locals : Nat
  localTypes : Std.TreeMap Nat StackType

/-- What callers know of a function. -/
def Function.signature (f : Function) : Signature :=
  ⟨f.params.length, f.returnsValue⟩

/-- Checks a function against the mode and what is known of the others. -/
def Function.check (mode : Mode) (signatures : List (String × Signature)) (f : Function) :
    Except TypeFaultAt BodyFacts := do
  let env : CheckEnv :=
    { mode, signatures
      types := Builtin.checkedTypes
      builtin := Builtin.ids
      current := f.name
      currentReturns := f.returnsValue }
  let start : CheckState :=
    { scopes := (Builtin.scopes mode).push .sealed, locals := 0, localTypes := ∅ }
  let body : Check Unit := do
    declareParams f.span f.params
    f.body.check env
  let ((), s) ← body.run start
  return ⟨s.locals, s.localTypes⟩

/-- The names of functions must differ from each other and from the built-in one. -/
def checkNames : List Function → (seen : List String) → Except TypeFaultAt Unit
  | [], _ => .ok ()
  | f :: fs, seen =>
    if seen.contains f.name then .error ⟨f.span, .duplicateFunction f.name⟩
    else checkNames fs (f.name :: seen)

/-- Every entry must be there, without parameters. -/
def checkEntries (p : Program) : List String → Except TypeFaultAt Unit
  | [] => .ok ()
  | entry :: entries =>
    match p.function? entry with
    | none => .error ⟨p.span, .missingEntry entry⟩
    | some f =>
      if f.params.isEmpty then checkEntries p entries
      else .error ⟨f.span, .entryTakesParameters entry⟩

/-- What is known of the functions of a program, by name. -/
def Program.signatures (p : Program) : List (String × Signature) :=
  p.functions.map fun f => (f.name, f.signature)

/-- What is known under a name is what is known of the first function of that name. -/
theorem Program.lookup_signatures (p : Program) (name : String) :
    p.signatures.lookup name = (p.function? name).map Function.signature := by
  unfold signatures function?
  induction p.functions with
  | nil => rfl
  | cons f fs ih =>
    by_cases h : f.name = name
    · simp [h]
    · have h' : (name == f.name) = false := by simpa using fun e => h e.symm
      simp [List.lookup_cons, h, h', ih]

/-- What is learned from a program that makes sense. -/
structure Analysis where
  entryPoints : List String
  functions : Nat
  locals : Nat
  localTypes : Std.TreeMap Nat StackType

/-- Adds what was learned from one more body. -/
def BodyFacts.combine (a b : BodyFacts) : BodyFacts :=
  ⟨a.locals + b.locals, b.localTypes.foldl (fun m k v => m.insert k v) a.localTypes⟩

/-- Checks functions one by one, adding up what is learned. -/
def checkBodies (mode : Mode) (signatures : List (String × Signature)) :
    List Function → BodyFacts → Except TypeFaultAt BodyFacts
  | [], facts => .ok facts
  | f :: fs, facts =>
    match f.check mode signatures with
    | .error e => .error e
    | .ok body => checkBodies mode signatures fs (facts.combine body)

/-- The rules for a whole program in a mode that makes sense. -/
def Program.checkRules (p : Program) (mode : Mode) : Except TypeFaultAt Analysis := do
  checkNames p.functions [Builtin.hashFunction.1]
  checkEntries p mode.entryPoints
  let facts ← checkBodies mode p.signatures p.functions ⟨0, ∅⟩
  return ⟨mode.entryPoints, p.functions.length, facts.locals, facts.localTypes⟩

/-- A fault of meaning, placed in its source. -/
def Diagnostic.ofTypeFault (text : List Char) (e : TypeFaultAt) : Diagnostic :=
  .meaning e.fault (String.ofList (e.span.quote text)) (Text.Position.locate text e.span.start)

/-- Checks a program that was read from `text`. -/
def Program.check (p : Program) (mode : Mode) (text : List Char) :
    Except Diagnostic Analysis := do
  if let some fault := mode.fault? then
    throw (.mode fault)
  (p.checkRules mode).mapError (Diagnostic.ofTypeFault text)

end ContractCompiler
