import ContractCompiler.Assembly.LedgerField
import ContractCompiler.Syntax.Tree

/-!
# Loads

Which places a program can read, and by what operation. A place is taken apart into steps: its
name, then members and indexes. What stands for an index is left open, so that the same rules
serve for checking a program and for producing its code.
-/

namespace ContractCompiler

/-- One step of a place, with indexes of type `ι`. -/
inductive Step (ι : Type) where
  | name (n : String)
  | index (i : ι)

/-- The steps of a place. -/
def Variable.steps : Variable → List (Step Expr)
  | .name n _ => [.name n]
  | .index base i _ => base.steps ++ [.index i]
  | .member owner m _ => owner.steps ++ [.name m]

/-- A way to read a place, with indexes of type `ι`. -/
inductive Load (ι : Type) where
  /-- A local variable or a constant. -/
  | named (name : String)
  /-- A field that an operation names. -/
  | field (op : Opcode) (field : String) (type : StackType)
  /-- A property of an account. -/
  | account (op : Opcode) (index : ι)
  /-- An element of an array of the transaction. -/
  | element (array : LedgerArray) (index : ι)
  /-- A slot of scratch space. -/
  | scratch (index : ι)
  /-- A field of another transaction of the group. -/
  | group (index : ι) (field : LedgerField)
  /-- The number of arguments. -/
  | argumentCount
  /-- An argument. -/
  | argument (index : ι)

namespace Load

variable {ι : Type}

/-- The operation that reads a property of an account. -/
def accountOpcode? : String → Option Opcode
  | "Balance" => some .balance
  | "MinBalance" => some .minBalance
  | _ => none

/-- The way to read a place of some steps. -/
def ofSteps? : List (Step ι) → Option (Load ι)
  | [.name n] => some (.named n)
  | [.name "Txn", .name "Accounts", .index i, .name f] => (accountOpcode? f).map (.account · i)
  | [.name "Txn", .name array, .name "len"] =>
    (LedgerArray.find? array).map fun a => .field .txn a.count .uint64
  | [.name "Txn", .name "Scratch", .index i] => some (.scratch i)
  | [.name "Txn", .name array, .index i] => (LedgerArray.find? array).map (.element · i)
  | [.name "Txn", .name f] =>
    (LedgerField.find? LedgerField.transaction f).map fun x => .field .txn x.field x.type
  | [.name "Global", .name "CurrentApplication", .name f] =>
    (LedgerField.find? LedgerField.currentApplication f).map
      fun x => .field .globalField x.field x.type
  | [.name "Global", .name f] =>
    (LedgerField.find? LedgerField.global f).map fun x => .field .globalField x.field x.type
  | [.name "TxnGroup", .name "len"] => some (.field .globalField "GroupSize" .uint64)
  | [.name "TxnGroup", .index i, .name f] =>
    (LedgerField.find? LedgerField.transaction f).map (.group i ·)
  | [.name "args", .name "len"] => some .argumentCount
  | [.name "args", .index i] => some (.argument i)
  | _ => none

end Load

/-- Whether a program can read a place. -/
def Variable.isLoadable (v : Variable) : Bool :=
  (Load.ofSteps? v.steps).isSome

/-- Whether an expression stands for a whole transaction: the program's own, or one of the
group. -/
def Expr.isTransaction : Expr → Bool
  | .var v =>
    match v.steps with
    | [.name "Txn"] => true
    | [.name "TxnGroup", .index _] => true
    | _ => false
  | _ => false

end ContractCompiler
