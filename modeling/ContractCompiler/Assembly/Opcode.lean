/-!
# Opcodes

The operations of the target stack machine: what they take from and leave on the stack,
their immediate parameters, and what they cost in each version of the machine.
-/

namespace ContractCompiler

/-- What is known of the value in a stack slot. -/
inductive StackType where
  | uint64 | bytes | any
deriving DecidableEq, Repr

namespace StackType

/-- Whether a slot of type `other` may be used where `t` is wanted. -/
def accepts (t other : StackType) : Bool :=
  t == any || other == any || t == other

/-- What is known of a slot that holds a value of one type or of the other. -/
def join (a b : StackType) : StackType :=
  if a = b then a else any

/-- The word for a stack type. -/
def word : StackType → String
  | uint64 => "uint64"
  | bytes => "bytes"
  | any => "any"

end StackType

/-- The kind of an immediate parameter. -/
inductive Param where
  | uint | bytes | label | field
deriving DecidableEq, Repr

/-- Where an operation may be used. -/
inductive RunMode where
  | any | signature | application
deriving DecidableEq, Repr

/-- An operation of the stack machine. -/
inductive Opcode where
  | err | sha256 | keccak256 | sha512x256
  | add | sub | div | mul | lt | gt | le | ge | logicAnd | logicOr | eq | ne | logicNot
  | len | itob | btoi | mod | bitOr | bitAnd | bitXor | bitNot
  | arg | txn | globalField | gtxn | load | txna | gtxns | loads
  | bnz | bz | branch | exit | assert | pop | dup | dup2 | dig | swap | select
  | cover | uncover | concat
  | balance | minBalance
  | pushbytes | pushint | callsub | retsub
  | shl | shr | sqrt | bitlen | exp
  | bytesAdd | bytesSub | bytesDiv | bytesMul | bytesLt | bytesGt | bytesLe | bytesGe
  | bytesEq | bytesNe | bytesMod | bytesOr | bytesAnd | bytesXor | bytesNot | bytesZero
  | log | txnas | args
deriving DecidableEq, Repr

/-- The entry of an operation in the table of opcodes. `costs` lists the price in the
versions from 1 on; `pops` and `pushes` list stack slots from the bottom up. -/
structure OpcodeSpec where
  code : Nat
  name : String
  costs : List (Option Nat)
  pops : List StackType
  pushes : List StackType
  params : List Param
  mode : RunMode

/-- The newest version of the machine. -/
def maxVersion : Nat := 5

namespace Opcode

/-- The prices of an operation that exists from version `first` on and then costs `cost`. -/
def priced (first cost : Nat) : List (Option Nat) :=
  (List.range maxVersion).map fun i => if first ≤ i + 1 then some cost else none

/-- An operation without parameters that may be used anywhere. -/
def plain (code : Nat) (name : String) (costs : List (Option Nat))
    (pops pushes : List StackType) : OpcodeSpec :=
  ⟨code, name, costs, pops, pushes, [], .any⟩

open StackType in
/-- The table of opcodes. -/
def spec : Opcode → OpcodeSpec
  | err => plain 0x00 "err" (priced 1 1) [] []
  | sha256 => plain 0x01 "sha256" (some 7 :: (priced 2 35).tail) [bytes] [bytes]
  | keccak256 => plain 0x02 "keccak256" (some 26 :: (priced 2 130).tail) [bytes] [bytes]
  | sha512x256 => plain 0x03 "sha512_256" (some 9 :: (priced 2 45).tail) [bytes] [bytes]
  | add => plain 0x08 "+" (priced 1 1) [uint64, uint64] [uint64]
  | sub => plain 0x09 "-" (priced 1 1) [uint64, uint64] [uint64]
  | div => plain 0x0a "/" (priced 1 1) [uint64, uint64] [uint64]
  | mul => plain 0x0b "*" (priced 1 1) [uint64, uint64] [uint64]
  | lt => plain 0x0c "<" (priced 1 1) [uint64, uint64] [uint64]
  | gt => plain 0x0d ">" (priced 1 1) [uint64, uint64] [uint64]
  | le => plain 0x0e "<=" (priced 1 1) [uint64, uint64] [uint64]
  | ge => plain 0x0f ">=" (priced 1 1) [uint64, uint64] [uint64]
  | logicAnd => plain 0x10 "&&" (priced 1 1) [uint64, uint64] [uint64]
  | logicOr => plain 0x11 "||" (priced 1 1) [uint64, uint64] [uint64]
  | eq => plain 0x12 "==" (priced 1 1) [any, any] [uint64]
  | ne => plain 0x13 "!=" (priced 1 1) [any, any] [uint64]
  | logicNot => plain 0x14 "!" (priced 1 1) [uint64] [uint64]
  | len => plain 0x15 "len" (priced 1 1) [bytes] [uint64]
  | itob => plain 0x16 "itob" (priced 1 1) [uint64] [bytes]
  | btoi => plain 0x17 "btoi" (priced 1 1) [bytes] [uint64]
  | mod => plain 0x18 "%" (priced 1 1) [uint64, uint64] [uint64]
  | bitOr => plain 0x19 "|" (priced 1 1) [uint64, uint64] [uint64]
  | bitAnd => plain 0x1a "&" (priced 1 1) [uint64, uint64] [uint64]
  | bitXor => plain 0x1b "^" (priced 1 1) [uint64, uint64] [uint64]
  | bitNot => plain 0x1c "~" (priced 1 1) [uint64] [uint64]
  | arg => ⟨0x2c, "arg", priced 1 1, [], [bytes], [.uint], .signature⟩
  | txn => ⟨0x31, "txn", priced 1 1, [], [any], [.field], .any⟩
  | globalField => ⟨0x32, "global", priced 1 1, [], [any], [.field], .any⟩
  | gtxn => ⟨0x33, "gtxn", priced 1 1, [], [any], [.uint, .field], .any⟩
  | load => ⟨0x34, "load", priced 1 1, [], [any], [.uint], .any⟩
  | txna => ⟨0x36, "txna", priced 2 1, [], [any], [.field, .uint], .any⟩
  | gtxns => ⟨0x38, "gtxns", priced 3 1, [uint64], [any], [.field], .any⟩
  | loads => plain 0x3e "loads" (priced 5 1) [uint64] [any]
  | bnz => ⟨0x40, "bnz", priced 1 1, [uint64], [], [.label], .any⟩
  | bz => ⟨0x41, "bz", priced 2 1, [uint64], [], [.label], .any⟩
  | branch => ⟨0x42, "b", priced 2 1, [], [], [.label], .any⟩
  | exit => plain 0x43 "return" (priced 2 1) [uint64] []
  | assert => plain 0x44 "assert" (priced 3 1) [uint64] []
  | pop => plain 0x48 "pop" (priced 1 1) [any] []
  | dup => plain 0x49 "dup" (priced 1 1) [any] [any, any]
  | dup2 => plain 0x4a "dup2" (priced 2 1) [any, any] [any, any, any, any]
  | dig => ⟨0x4b, "dig", priced 3 1, [], [any], [.uint], .any⟩
  | swap => plain 0x4c "swap" (priced 3 1) [any, any] [any, any]
  | select => plain 0x4d "select" (priced 3 1) [any, any, uint64] [any]
  | cover => ⟨0x4e, "cover", priced 5 1, [any], [any], [.uint], .any⟩
  | uncover => ⟨0x4f, "uncover", priced 5 1, [], [any], [.uint], .any⟩
  | concat => plain 0x50 "concat" (priced 2 1) [bytes, bytes] [bytes]
  | balance => ⟨0x60, "balance", priced 2 1, [any], [uint64], [], .application⟩
  | minBalance => ⟨0x78, "min_balance", priced 3 1, [any], [uint64], [], .application⟩
  | pushbytes => ⟨0x80, "pushbytes", priced 3 1, [], [bytes], [.bytes], .any⟩
  | pushint => ⟨0x81, "pushint", priced 3 1, [], [uint64], [.uint], .any⟩
  | callsub => ⟨0x88, "callsub", priced 4 1, [], [], [.label], .any⟩
  | retsub => plain 0x89 "retsub" (priced 4 1) [] []
  | shl => plain 0x90 "shl" (priced 4 1) [uint64, uint64] [uint64]
  | shr => plain 0x91 "shr" (priced 4 1) [uint64, uint64] [uint64]
  | sqrt => plain 0x92 "sqrt" (priced 4 4) [uint64] [uint64]
  | bitlen => plain 0x93 "bitlen" (priced 4 1) [any] [uint64]
  | exp => plain 0x94 "exp" (priced 4 1) [uint64, uint64] [uint64]
  | bytesAdd => plain 0xa0 "b+" (priced 4 10) [bytes, bytes] [bytes]
  | bytesSub => plain 0xa1 "b-" (priced 4 10) [bytes, bytes] [bytes]
  | bytesDiv => plain 0xa2 "b/" (priced 4 20) [bytes, bytes] [bytes]
  | bytesMul => plain 0xa3 "b*" (priced 4 20) [bytes, bytes] [bytes]
  | bytesLt => plain 0xa4 "b<" (priced 4 1) [bytes, bytes] [uint64]
  | bytesGt => plain 0xa5 "b>" (priced 4 1) [bytes, bytes] [uint64]
  | bytesLe => plain 0xa6 "b<=" (priced 4 1) [bytes, bytes] [uint64]
  | bytesGe => plain 0xa7 "b>=" (priced 4 1) [bytes, bytes] [uint64]
  | bytesEq => plain 0xa8 "b==" (priced 4 1) [bytes, bytes] [uint64]
  | bytesNe => plain 0xa9 "b!=" (priced 4 1) [bytes, bytes] [uint64]
  | bytesMod => plain 0xaa "b%" (priced 4 20) [bytes, bytes] [bytes]
  | bytesOr => plain 0xab "b|" (priced 4 6) [bytes, bytes] [bytes]
  | bytesAnd => plain 0xac "b&" (priced 4 6) [bytes, bytes] [bytes]
  | bytesXor => plain 0xad "b^" (priced 4 6) [bytes, bytes] [bytes]
  | bytesNot => plain 0xae "b~" (priced 4 4) [bytes] [bytes]
  | bytesZero => plain 0xaf "bzero" (priced 4 1) [uint64] [bytes]
  | log => ⟨0xb0, "log", priced 5 1, [bytes], [], [], .application⟩
  | txnas => ⟨0xc0, "txnas", priced 5 1, [uint64], [any], [.field], .any⟩
  | args => ⟨0xc3, "args", priced 5 1, [uint64], [bytes], [], .signature⟩

/-- The name of an operation in assembly. -/
def name (op : Opcode) : String := op.spec.name

/-- The stack slots an operation takes, from the bottom up. -/
def pops (op : Opcode) : List StackType := op.spec.pops

/-- The stack slots an operation leaves, from the bottom up. -/
def pushes (op : Opcode) : List StackType := op.spec.pushes

/-- The immediate parameters of an operation. -/
def params (op : Opcode) : List Param := op.spec.params

/-- Where an operation may be used. -/
def mode (op : Opcode) : RunMode := op.spec.mode

/-- All operations, by code. -/
def all : List Opcode :=
  [err, sha256, keccak256, sha512x256, add, sub, div, mul, lt, gt, le, ge, logicAnd, logicOr,
   eq, ne, logicNot, len, itob, btoi, mod, bitOr, bitAnd, bitXor, bitNot, arg, txn,
   globalField, gtxn, load, txna, gtxns, loads, bnz, bz, branch, exit, assert, pop, dup, dup2,
   dig, swap, select, cover, uncover, concat, balance, minBalance, pushbytes, pushint, callsub,
   retsub, shl, shr, sqrt, bitlen, exp, bytesAdd, bytesSub, bytesDiv, bytesMul, bytesLt,
   bytesGt, bytesLe, bytesGe, bytesEq, bytesNe, bytesMod, bytesOr, bytesAnd, bytesXor,
   bytesNot, bytesZero, log, txnas, args]

/-- The operation of a name. -/
def ofName? (name : String) : Option Opcode :=
  all.find? (·.name == name)

/-- What an operation costs in a version, none where it does not exist. -/
def costAt (op : Opcode) : (version : Nat) → Option Nat
  | 0 => none
  | v + 1 => (op.spec.costs[v]?).join

/-- Whether an operation exists in a version. -/
def isAvailable (op : Opcode) (version : Nat) : Bool :=
  (op.costAt version).isSome

/-- Every operation is listed. -/
theorem mem_all (op : Opcode) : op ∈ all := by
  cases op <;> decide

end Opcode

end ContractCompiler
