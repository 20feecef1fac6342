import ContractCompiler.Entry
import ContractCompiler.Syntax.Node
import ContractCompiler.Proofs.Assembly.Machine

/-!
# What programs mean

An evaluator for the part of the language that computes with integers. Operands are evaluated from
left to right, and both always are. A block binds the names that its own expressions assign, if
they are not bound yet, and unbinds them at its end. A switch evaluates the tested expression anew
for every value of a case.

A program need not end. So there is a bound on the iterations of each loop and on the depth of
calls, and an evaluation that gets to it gives no answer.
-/

namespace ContractCompiler

/-! ## Evaluations -/

/-- The values of the names that are bound. -/
abbrev Store := String → Option UInt64

namespace Store

/-- A store in which a name has another value. -/
def set (σ : Store) (n : String) (v : UInt64) : Store :=
  fun m => if m = n then some v else σ m

/-- A store in which names that were not bound are bound to zero. -/
def bind (σ : Store) (names : List String) : Store :=
  fun n => if n ∈ names ∧ σ n = none then some 0 else σ n

/-- A store in which names that were not bound before are not bound any more. -/
def unbind (σ before : Store) (names : List String) : Store :=
  fun n => if n ∈ names ∧ before n = none then none else σ n

/-- The store that a function starts with. -/
def ofArguments (params : List String) (args : List UInt64) : Store :=
  fun n => (params.zip args).lookup n

end Store

/-- Why an evaluation stops before its end. -/
inductive Stop where
  /-- The whole program ends. -/
  | ended (r : Report)
  /-- The bound was reached. -/
  | timeout
  /-- There is no meaning to go on with. -/
  | stuck
deriving DecidableEq, Repr

/-- An evaluation can change the store, and can stop. -/
abbrev Eval := StateT Store (Except Stop)

/-- What a statement does to the control of a function: it goes on, or leaves the function. -/
inductive Flow where
  | next
  | leave (value : Option UInt64)
deriving DecidableEq, Repr

namespace Eval

/-- Stops for lack of a meaning. -/
def stuck {α : Type} : Eval α :=
  throw .stuck

/-- Stops since the program fails. -/
def fail {α : Type} (logs : List (List UInt8)) : Eval α :=
  throw (.ended ⟨.failed, logs⟩)

/-- An evaluation that must give a value. -/
def value (x : Eval (Option UInt64)) : Eval UInt64 := do
  match ← x with
  | some v => return v
  | none => stuck

/-- The value of a name. The names of truth values can be read unless they are bound. -/
def read (n : String) : Eval UInt64 := do
  match (← get) n with
  | some v => return v
  | none => if n = "true" then return 1 else if n = "false" then return 0 else stuck

/-- An evaluation with some more names bound. -/
def inBlock {α : Type} (names : List String) (x : Eval α) : Eval α := do
  let before ← get
  set (before.bind names)
  let a ← x
  modify fun σ => σ.unbind before names
  return a

/-- One evaluation after another, unless the first leaves the function. -/
def andThen (x y : Eval Flow) : Eval Flow := do
  match ← x with
  | .next => y
  | .leave v => return .leave v

/-- A loop that tests first, with a bound on its iterations. -/
def whileDo (condition : Eval UInt64) (body : Eval Flow) : Nat → Eval Flow
  | 0 => throw .timeout
  | n + 1 => do
    if (← condition) = 0 then return .next
    else andThen body (whileDo condition body n)

/-- A loop that tests last, with a bound on its iterations. -/
def doWhile (body : Eval Flow) (condition : Eval UInt64) : Nat → Eval Flow
  | 0 => throw .timeout
  | n + 1 =>
    andThen body do
      if (← condition) = 0 then return .next
      else doWhile body condition n

/-- Whether the tested value is another one. -/
def equal (tested v : Eval UInt64) : Eval Bool := do
  let x ← tested
  let y ← v
  return x == y

/-- Whether the tested value is one of some values. All of them are evaluated, and the tested value
before each. -/
def anyEqual (tested : Eval UInt64) : List (Eval UInt64) → Eval Bool
  | [] => return false
  | v :: vs => do
    let first ← equal tested v
    let rest ← anyEqual tested vs
    return first || rest

end Eval

/-- What an evaluation takes as given. -/
structure EvalEnv where
  entry : Entry
  /-- The functions of the program. -/
  calls : String → List UInt64 → Except Stop (Option UInt64)
  /-- The bound on the iterations of a loop. -/
  bound : Nat

/-! ## Operators -/

/-- The result of an operator on an integer. -/
def UnaryOperator.result (o : UnaryOperator) (x : UInt64) : UInt64 :=
  match o with
  | .not => if x = 0 then 1 else 0
  | .complement => ~~~x

/-- A result that must fit in 64 bits. -/
def exactly (n : Nat) : Except Stop UInt64 :=
  if n < UInt64.size then .ok (.ofNat n) else .error (.ended ⟨.failed, []⟩)

/-- A truth value as an integer. -/
def ofTruth (p : Prop) [Decidable p] : Except Stop UInt64 :=
  .ok (if p then 1 else 0)

/-- The result of an operator on two integers. The program fails if it is no integer of 64 bits. -/
def BinaryOperator.result (o : BinaryOperator) (x y : UInt64) : Except Stop UInt64 :=
  let failed := .error (.ended ⟨.failed, []⟩)
  match o with
  | .or => ofTruth (x ≠ 0 ∨ y ≠ 0)
  | .and => ofTruth (x ≠ 0 ∧ y ≠ 0)
  | .bitOr => .ok (x ||| y)
  | .bitXor => .ok (x ^^^ y)
  | .bitAnd => .ok (x &&& y)
  | .eq => ofTruth (x = y)
  | .ne => ofTruth (x ≠ y)
  | .lt => ofTruth (x < y)
  | .gt => ofTruth (y < x)
  | .le => ofTruth (x ≤ y)
  | .ge => ofTruth (y ≤ x)
  | .shl => if y < 64 then .ok (x <<< y) else failed
  | .shr => if y < 64 then .ok (x >>> y) else failed
  | .add => exactly (x.toNat + y.toNat)
  | .sub => if y ≤ x then .ok (x - y) else failed
  | .mul => exactly (x.toNat * y.toNat)
  | .div => if y = 0 then failed else .ok (x / y)
  | .mod => if y = 0 then failed else .ok (x % y)
  -- The exponent has 32 bits.
  | .pow => if y.toNat < UInt32.size then exactly (x.toNat.pow y.toNat) else failed
  | .assign | .ternary | .colon | .range | .rangeInclusive => .error .stuck

/-! ## Expressions -/

mutual

/-- The value of an expression, if it has one: a call may have none. -/
def Expr.eval (env : EvalEnv) : Expr → Eval (Option UInt64)
  | .uint v _ => return some v
  | .bytes _ _ => Eval.stuck
  | .unary o e _ => do
    let x ← Eval.value (e.eval env)
    return some (o.result x)
  | .binary .assign (.var (.name n _)) right _ => do
    let v ← Eval.value (right.eval env)
    modify fun σ => σ.set n v
    return some v
  | .binary .ternary condition (.binary .colon left right _) _ => do
    if (← Eval.value (condition.eval env)) = 0 then right.eval env else left.eval env
  | .binary o left right _ => do
    let x ← Eval.value (left.eval env)
    let y ← Eval.value (right.eval env)
    let v ← o.result x y
    return some v
  | .call f args _ => do
    let vs ← Expr.evalArguments env args
    env.calls f vs
  | .var (.name n _) => do
    let v ← Eval.read n
    return some v
  | .var _ => Eval.stuck

/-- The values of the arguments of a call. -/
def Expr.evalArguments (env : EvalEnv) : List Expr → Eval (List UInt64)
  | [] => return []
  | e :: es => do
    let v ← Eval.value (e.eval env)
    let vs ← Expr.evalArguments env es
    return v :: vs

end

/-- The value of an expression that must have one. -/
def Expr.evalValue (env : EvalEnv) (e : Expr) : Eval UInt64 :=
  Eval.value (e.eval env)

/-! ## Statements -/

/-- A failure with a message, which only applications log. -/
def EvalEnv.throwing {α : Type} (env : EvalEnv) (message : List UInt8) : Eval α :=
  Eval.fail (if env.entry.isApplication then [message] else [])

/-- Leaving a function. -/
def EvalEnv.leaving (env : EvalEnv) : Leaving → Option Expr → Eval Flow
  | .throwing, some (.bytes message _) => env.throwing message
  | .throwing, _ => Eval.stuck
  | .exiting, some e => do
    let v ← e.evalValue env
    throw (.ended ⟨.returned v, []⟩)
  | .exiting, none => Eval.stuck
  | .returning, some e => do
    let v ← e.evalValue env
    return .leave (some v)
  | .returning, none => return .leave none

mutual

/-- What a statement does. -/
def Stmt.eval (env : EvalEnv) : Stmt → Eval Flow
  | .ifElse condition thenBlock none _ => do
    if (← condition.evalValue env) = 0 then return .next else thenBlock.eval env
  | .ifElse condition thenBlock (some elseBlock) _ => do
    if (← condition.evalValue env) = 0 then elseBlock.eval env else thenBlock.eval env
  | .whileDo condition body _ =>
    Eval.whileDo (condition.evalValue env) (body.eval env) env.bound
  | .doWhile body condition _ =>
    Eval.doWhile (body.eval env) (condition.evalValue env) env.bound
  | .switch tested cases none _ => Case.evalList env tested (return .next) cases
  | .switch tested cases (some otherwise) _ =>
    Case.evalList env tested (otherwise.eval env) cases
  | .leave kind value _ => env.leaving kind value
  | .expr e => do
    let _ ← e.eval env
    return .next

/-- What statements in a row do. -/
def Stmt.evalList (env : EvalEnv) : List Stmt → Eval Flow
  | [] => return .next
  | s :: ss => Eval.andThen (s.eval env) (Stmt.evalList env ss)

/-- What a block does. -/
def Block.eval (env : EvalEnv) : Block → Eval Flow
  | ⟨ss, _⟩ => Eval.inBlock (Stmt.assignedNames ss) (Stmt.evalList env ss)

/-- What the first case that has the tested value does, or what is done in all other cases. -/
def Case.evalList (env : EvalEnv) (tested : Expr) (otherwise : Eval Flow) :
    List Case → Eval Flow
  | [] => otherwise
  | ⟨values, block, _⟩ :: cs => do
    if ← Eval.anyEqual (tested.evalValue env) (values.map (Expr.evalValue env)) then
      block.eval env
    else
      Case.evalList env tested otherwise cs

end

/-! ## Programs -/

/-- What a function gives for some arguments. A function that should have returned a value fails
at its end. -/
def Function.eval (env : EvalEnv) (f : Function) (args : List UInt64) :
    Except Stop (Option UInt64) := do
  match ← f.body.eval env (.ofArguments f.params args) with
  | (.leave v, _) => return v
  | (.next, _) => if f.returnsValue then throw (.ended ⟨.failed, []⟩) else return none

/-- The functions of a program, with a bound on the depth of calls and on the iterations of
loops. -/
def Program.calls (p : Program) (entry : Entry) :
    Nat → String → List UInt64 → Except Stop (Option UInt64)
  | 0, _, _ => throw .timeout
  | n + 1, name, args =>
    match p.function? name with
    | some f => f.eval ⟨entry, p.calls entry n, n⟩ args
    | none => throw .stuck

/-- How the program of an entry stops, with a bound on the depth of calls and on the iterations of
loops. An entry that returns nothing succeeds, and one that gets to its end is rejected. -/
def Program.run (p : Program) (entry : Entry) (bound : Nat) : Stop :=
  match p.function? entry.functionName with
  | none => .stuck
  | some main =>
    match main.body.eval ⟨entry, p.calls entry bound, bound⟩ (.ofArguments main.params []) with
    | .ok (.leave v, _) => .ended ⟨.returned (v.getD 1), []⟩
    | .ok (.next, _) => .ended ⟨.returned 0, []⟩
    | .error stop => stop

/-- The program of an entry ends with a report. -/
def Program.Evaluates (p : Program) (entry : Entry) (r : Report) : Prop :=
  ∃ bound, p.run entry bound = .ended r

end ContractCompiler
