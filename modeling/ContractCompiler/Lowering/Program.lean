import ContractCompiler.Lowering.Reach
import ContractCompiler.Lowering.Stmt

/-!
# Lowering programs

Each entry has a program of its own. It holds the code of the entry, then that of the functions
it needs, each under a label.
-/

namespace ContractCompiler

/-- What is done at the end of a function's body, if control reaches it. An entry fails there,
and so does a function that should have returned a value. -/
def Function.lowerEnd (f : Function) (main : Bool) : Lower Unit := do
  if main then
    Lower.pushUint 0
    Lower.op₀ .exit
  else if f.returnsValue then
    Lower.op₀ .err
  else
    Lower.popMany (← Lower.builder).depth
    Lower.op₀ .retsub

/-- The code of a function. All but the entry are subroutines, with a label of their own. -/
def Function.lower (f : Function) (main : Bool) : Lower Unit := do
  if !main then
    Lower.build (Builder.comment (" " ++ f.display))
    Lower.build (Builder.label f.name)
    Lower.build (Builder.count fun m => { m with subroutines := m.subroutines + 1 })
  Lower.startFunction f.params main
  unless ← f.body.lower do
    f.lowerEnd main

/-- The code of functions, one after the other. -/
def Function.lowerAll (entry : String) : List Function → Lower Unit
  | [] => return ()
  | f :: fs => do
    Lower.within f.name (f.lower (f.name == entry))
    Function.lowerAll entry fs

/-- What lowering an entry of a program takes as given. -/
def LowerEnv.ofProgram (p : Program) (localType? : Nat → Option StackType) (entry : Entry) :
    LowerEnv :=
  ⟨entry, p.signatures, localType?⟩

/-- The program of an entry, for a version of the machine. -/
def Program.generate (p : Program) (localType? : Nat → Option StackType) (version : Nat)
    (entry : Entry) : Except Diagnostic Assembly := do
  match p.function? entry.functionName with
  | none => throw (.code (.missingEntry entry.functionName) none)
  | some main =>
    let order := p.reachable main
    let builder := Builder.new version (.single entry)
    let pruned := p.functions.length - order.length
    let start := LowerState.start { builder with metrics := { builder.metrics with pruned } }
    match Function.lowerAll entry.functionName order (.ofProgram p localType? entry) start with
    | .error e s => throw (s.annotate e)
    | .ok _ s => (s.builder.finish entry.functionName).mapError (.code · none)

/-- The programs of entries, in order. -/
def Program.generateList (p : Program) (localType? : Nat → Option StackType) (version : Nat) :
    List Entry → Except Diagnostic (List Assembly)
  | [] => .ok []
  | entry :: entries => do
    let first ← p.generate localType? version entry
    return first :: (← p.generateList localType? version entries)

/-- The programs of all entries of a mode. -/
def Program.generateAll (p : Program) (localType? : Nat → Option StackType) (version : Nat)
    (mode : Mode) : Except Diagnostic (List Assembly) :=
  p.generateList localType? version mode.entries

/-- The program of the first entry of a mode. -/
def Program.generateFirst (p : Program) (localType? : Nat → Option StackType) (version : Nat)
    (mode : Mode) : Except Diagnostic Assembly :=
  match mode.entries with
  | [] => .error (.mode .noEntry)
  | entry :: _ => p.generate localType? version entry

end ContractCompiler
