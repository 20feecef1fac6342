import ContractCompiler.Lowering.Expr

/-!
# Lowering statements

The code of a statement leaves the stack as high as it was. Lowering a statement also tells
whether control never reaches its end.

A block gives a slot to every name that its own expressions assign, before anything else, and
takes the slots off the stack at its end. A switch is a chain of conditionals, one for each
case, which test the value anew.
-/

namespace ContractCompiler

namespace Lower

/-- Statements in a row: what follows one that control does not get past is left out. -/
def andThen (first rest : Lower Bool) : Lower Bool := do
  if ← first then return true else rest

/-- A block with the code of its statements, which assign some names. -/
def block (names : List String) (body : Lower Bool) : Lower Bool := do
  enterBlock
  declareAll names
  let terminated ← body
  leaveBlock terminated
  return terminated

/-- A conditional statement without an alternative. -/
def ifThen (condition : Lower Unit) (thenCode : Lower Bool) : Lower Bool := do
  condition
  let endLabel ← build (Builder.freshLabel "if_end")
  op .bz [.label endLabel]
  let before := (← builder).stack
  let thenEnds ← thenCode
  build (Builder.label endLabel)
  if thenEnds then
    build (Builder.restore before)
  else
    build (Builder.merge before)
  return false

/-- A conditional statement with an alternative. -/
def ifThenElse (condition : Lower Unit) (thenCode elseCode : Lower Bool) : Lower Bool := do
  condition
  let elseLabel ← build (Builder.freshLabel "if_else")
  let endLabel ← build (Builder.freshLabel "if_end")
  op .bz [.label elseLabel]
  let before := (← builder).stack
  let thenEnds ← thenCode
  let after := (← builder).stack
  op .branch [.label endLabel]
  build (Builder.label elseLabel)
  build (Builder.restore before)
  let elseEnds ← elseCode
  build (Builder.label endLabel)
  match thenEnds, elseEnds with
  | false, false => build (Builder.merge after)
  | false, true => build (Builder.restore after)
  | true, _ => pure ()
  return thenEnds && elseEnds

/-- A conditional statement. -/
def ifElse (condition : Lower Unit) (thenCode : Lower Bool) : Option (Lower Bool) → Lower Bool
  | none => ifThen condition thenCode
  | some elseCode => ifThenElse condition thenCode elseCode

/-- A loop that tests first. -/
def whileDo (condition : Lower Unit) (body : Lower Bool) : Lower Bool := do
  let startLabel ← build (Builder.freshLabel "while_start")
  let endLabel ← build (Builder.freshLabel "while_end")
  build (Builder.label startLabel)
  condition
  op .bz [.label endLabel]
  let before := (← builder).stack
  let _ ← body
  op .branch [.label startLabel]
  build (Builder.label endLabel)
  build (Builder.restore before)
  return false

/-- A loop that tests last. -/
def doWhile (body : Lower Bool) (condition : Lower Unit) : Lower Bool := do
  let startLabel ← build (Builder.freshLabel "do_start")
  build (Builder.label startLabel)
  let before := (← builder).stack
  let bodyEnds ← body
  build (Builder.restore before)
  condition
  op .bnz [.label startLabel]
  return bodyEnds

/-- Drops everything below the top of the stack. -/
def dropBelowTop : Lower Unit := do
  match (← builder).depth - 1 with
  | 0 => return ()
  | 1 =>
    op₀ .swap
    op₀ .pop
  | n =>
    if n > maxImmediate then
      fail (.tooManyBelow n)
    op .cover [.uint (UInt64.ofNat n)]
    popMany n

/-- Fails with a message: it is logged by an application, and a comment otherwise. -/
def throwing : Option Expr → Lower Unit
  | some (.bytes message _) => do
    if (← read).entry.isApplication then
      op .pushbytes [.bytes message]
      op₀ .log
    else
      build (Builder.comment (" throw " ++ String.ofList (Text.decodeLossy message)))
    op₀ .err
  | _ => fail .throwNeedsLiteral

/-- Ends the whole program with a value. -/
def exiting : Option Expr → Lower Unit
  | some value => do
    value.lower
    op₀ .exit
  | none => fail .exitNeedsValue

/-- Returns from the function, which for an entry ends the program. An entry that returns
nothing succeeds. -/
def returning (value : Option Expr) : Lower Unit := do
  if (← get).main then
    match value with
    | some e => e.lower
    | none => pushUint 1
    op₀ .exit
  else
    match value with
    | some e =>
      e.lower
      dropBelowTop
    | none => popMany (← builder).depth
    op₀ .retsub

/-- Leaves a function. -/
def leaving : Leaving → Option Expr → Lower Unit
  | .throwing => throwing
  | .exiting => exiting
  | .returning => returning

end Lower

/-! ## Switches -/

/-- The test whether the tested value is one of the values of a case. -/
def Case.condition (tested : Expr) (c : Case) : Expr :=
  let test (v : Expr) : Expr := .binary .eq tested v v.span
  match c.values with
  | [] => .uint 0 c.span
  | v :: vs => vs.foldl (fun e v => .binary .or e (test v) c.span) (test v)

/-- The cases of a switch as a chain of conditionals: each has the next one, in a block of its
own, as its alternative, and the last has what is done in all other cases. -/
def Stmt.ifChain (tested : Expr) (otherwise : Option Block) : List Case → Option Stmt
  | [] => none
  | [c] => some (.ifElse (c.condition tested) c.block otherwise c.span)
  | c :: next :: cs =>
    let rest := (ifChain tested otherwise (next :: cs)).map fun link => ⟨[link], next.span⟩
    some (.ifElse (c.condition tested) c.block rest c.span)

/-- The names that the condition of the first case assigns. -/
def Case.testedNames (tested : Expr) : List Case → List String
  | [] => []
  | c :: _ => Stmt.assignedNames [.expr (c.condition tested)]

/-- A switch with the code of its chain and of what is done in all other cases. -/
def Lower.switch (cases : List Case) (chain otherwise : Option (Lower Bool)) : Lower Bool := do
  if cases.any (·.values.isEmpty) then
    fail .emptyCase
  match chain with
  | some link => link
  | none => otherwise.getD (return false)

/-! ## Statements -/

mutual

/-- The code of a statement. -/
def Stmt.lower : Stmt → Lower Bool
  | .ifElse condition thenBlock none _ =>
    Lower.within "if" (Lower.ifElse condition.lower thenBlock.lower none)
  | .ifElse condition thenBlock (some elseBlock) _ =>
    Lower.within "if" (Lower.ifElse condition.lower thenBlock.lower (some elseBlock.lower))
  | .whileDo condition body _ => Lower.within "while" (Lower.whileDo condition.lower body.lower)
  | .doWhile body condition _ => Lower.within "do" (Lower.doWhile body.lower condition.lower)
  | .switch tested cases none _ =>
    Lower.within "switch" (Lower.switch cases (Case.lowerChain tested none cases) none)
  | .switch tested cases (some otherwise) _ =>
    let otherwise := otherwise.lower
    Lower.within "switch"
      (Lower.switch cases (Case.lowerChain tested (some otherwise) cases) (some otherwise))
  | .leave kind value _ =>
    Lower.within kind.word do
      Lower.leaving kind value
      return true
  | .expr e => do
    e.lowerStmt
    return false

/-- The code of statements in a row. -/
def Stmt.lowerList : List Stmt → Lower Bool
  | [] => return false
  | s :: ss => Lower.andThen s.lower (Stmt.lowerList ss)

/-- The code of a block. -/
def Block.lower : Block → Lower Bool
  | ⟨stmts, _⟩ => Lower.block (Stmt.assignedNames stmts) (Stmt.lowerList stmts)

/-- The code of the chain of conditionals that some cases are, if there are any. -/
def Case.lowerChain (tested : Expr) (otherwise : Option (Lower Bool)) :
    List Case → Option (Lower Bool)
  | [] => none
  | ⟨values, block, span⟩ :: cs =>
    let rest := match Case.lowerChain tested otherwise cs with
      | some link =>
        some (Lower.block (Case.testedNames tested cs) (Lower.andThen link (return false)))
      | none => otherwise
    some (Lower.within "if"
      (Lower.ifElse (Case.condition tested ⟨values, block, span⟩).lower block.lower rest))

end

/-! ## A switch is its chain -/

theorem Case.testedNames_cons (tested : Expr) (c : Case) (cs : List Case) (b : Block)
    (e : Option Block) (span : Span) :
    Case.testedNames tested (c :: cs) =
      Stmt.assignedNames [.ifElse (c.condition tested) b e span] := rfl

/-- A conditional statement lowers to that of its parts. -/
theorem Stmt.lower_ifElse (condition : Expr) (thenBlock : Block) (elseBlock : Option Block)
    (span : Span) :
    (Stmt.ifElse condition thenBlock elseBlock span).lower =
      Lower.within "if"
        (Lower.ifElse condition.lower thenBlock.lower (elseBlock.map Block.lower)) := by
  cases elseBlock <;> simp [Stmt.lower]

/-- The code of the cases of a switch is that of their chain. -/
theorem Case.lowerChain_eq (tested : Expr) (otherwise : Option Block) (cases : List Case) :
    Case.lowerChain tested (otherwise.map Block.lower) cases =
      (Stmt.ifChain tested otherwise cases).map Stmt.lower := by
  fun_induction Stmt.ifChain tested otherwise cases with
  | case1 => simp [Case.lowerChain]
  | case2 c =>
    cases c
    simp [Case.lowerChain, Stmt.lower_ifElse]
  | case3 c next cs rest ih =>
    cases c
    rw [Case.lowerChain, ih]
    cases hl : Stmt.ifChain tested otherwise (next :: cs) with
    | none => cases cs <;> simp [Stmt.ifChain] at hl
    | some link =>
      have hnames : Case.testedNames tested (next :: cs) = Stmt.assignedNames [link] := by
        cases cs <;> simp only [Stmt.ifChain, Option.some.injEq] at hl <;> subst hl <;> rfl
      simp [rest, hl, hnames, Stmt.lower_ifElse, Block.lower, Stmt.lowerList]

/-- If all cases have values, a switch is its chain, or what is done in all other cases. -/
theorem Lower.switch_eq {cases : List Case} (h : ∀ c ∈ cases, c.values ≠ [])
    (chain otherwise : Option (Lower Bool)) :
    Lower.switch cases chain otherwise =
      match chain with
      | some link => link
      | none => otherwise.getD (return false) := by
  have hany : (cases.any fun c => c.values.isEmpty) = false := by simpa using h
  cases chain <;> simp [Lower.switch, hany]

/-- A switch whose cases all have values is lowered as its chain of conditionals; one without
cases is what is done in all other cases. -/
theorem Stmt.lower_switch (tested : Expr) (cases : List Case) (otherwise : Option Block)
    (span : Span) (h : ∀ c ∈ cases, c.values ≠ []) :
    (Stmt.switch tested cases otherwise span).lower =
      Lower.within "switch"
        (match Stmt.ifChain tested otherwise cases with
          | some link => link.lower
          | none => (otherwise.map Block.lower).getD (return false)) := by
  have hchain := Case.lowerChain_eq tested otherwise cases
  cases otherwise with
  | none =>
    rw [Option.map_none] at hchain
    rw [Stmt.lower, Lower.switch_eq h, hchain]
    cases Stmt.ifChain tested none cases <;> rfl
  | some d =>
    rw [Option.map_some] at hchain
    simp only [Stmt.lower]
    rw [Lower.switch_eq h, hchain]
    cases Stmt.ifChain tested (some d) cases <;> rfl

end ContractCompiler
