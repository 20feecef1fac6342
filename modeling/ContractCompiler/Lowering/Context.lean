import Std.Data.ExtTreeMap
import ContractCompiler.Assembly.Builder
import ContractCompiler.Typing.Analysis

/-!
# The lowering context

Local variables live in stack slots. While a function is lowered, it is known which slot each
of them has, which names each open block has brought in, and which constructs are around the
one that is being lowered.
-/

namespace ContractCompiler

/-- Where a local variable lives: the height of its slot, counted from one at the bottom of the
frame, and what is known of the values stored in it. -/
structure Slot where
  pos : Nat
  type : Option StackType
deriving DecidableEq, Repr

/-- An open block: the height of the stack when it was entered, and the names it brought in. -/
structure OpenBlock where
  base : Nat
  names : List String
deriving DecidableEq, Repr

/-- What lowering takes as given. -/
structure LowerEnv where
  entry : Entry
  /-- What is known of the functions of the program, by name. -/
  signatures : List (String × Signature)
  /-- What is known of the local that is read at an offset. -/
  localType? : Nat → Option StackType

/-- What lowering changes. -/
structure LowerState where
  builder : Builder
  slots : Std.ExtTreeMap String Slot
  /-- The open blocks, innermost first. -/
  blocks : List OpenBlock
  /-- The constructs around the one that is lowered, innermost first. -/
  site : List String
  /-- The constructs around the first failure, outermost first. -/
  failedAt : Option (List String)
  /-- Whether the function that is lowered is the entry. -/
  main : Bool

/-- A step of lowering: it changes the context, or fails. -/
abbrev Lower := ReaderT LowerEnv (EStateM Diagnostic LowerState)

namespace LowerState

/-- The context before anything is lowered. -/
def start (builder : Builder) : LowerState :=
  ⟨builder, ∅, [], [], none, false⟩

/-- The constructs around the one that is lowered, as text. -/
def showSite (s : LowerState) : String :=
  Diagnostic.showSite s.site.reverse

/-- A diagnostic with the constructs around the first failure, if it is one about code. -/
def annotate (s : LowerState) : Diagnostic → Diagnostic
  | .code fault none => .code fault s.failedAt
  | d => d

end LowerState

namespace Lower

/-- A step of building as a step of lowering. -/
def build {α : Type} (x : Build α) : Lower α := fun _ s =>
  match x s.builder with
  | .ok a b => .ok a { s with builder := b }
  | .error e b => .error (.code e none) { s with builder := b }

/-- Fails for lack of code. -/
def fail {α : Type} (fault : CodeFault) : Lower α :=
  throw (.code fault none)

/-- The code so far. -/
def builder : Lower Builder := do
  return (← get).builder

/-- Appends an operation. -/
def op (code : Opcode) (operands : List Operand) : Lower Unit :=
  build (Builder.push code operands)

/-- Appends an operation without operands. -/
def op₀ (code : Opcode) : Lower Unit :=
  op code []

/-- Puts a constant on the stack. -/
def pushUint (value : UInt64) : Lower Unit :=
  op .pushint [.uint value]

/-- Takes `n` slots off the stack. -/
def popMany : Nat → Lower Unit
  | 0 => return ()
  | n + 1 => do
    op₀ .pop
    popMany n

/-! ## Slots -/

/-- Where a name lives, if it is a local variable. -/
def slot? (name : String) : Lower (Option Slot) := do
  return (← get).slots[name]?

/-- What is known of the value of a slot that is read at an offset. -/
def readType? (offset : Nat) (slot : Slot) : Lower (Option StackType) := do
  match (← read).localType? offset with
  | none | some .any => return slot.type
  | some t => return some t

/-- The slots of parameters, the first of which is at height `pos`. -/
def paramSlots : List String → (pos : Nat) → Std.ExtTreeMap String Slot →
    Std.ExtTreeMap String Slot
  | [], _, slots => slots
  | p :: ps, pos, slots => paramSlots ps (pos + 1) (slots.insert p ⟨pos, some .any⟩)

/-- Starts a function: its arguments are on the stack, and nothing else is known. -/
def startFunction (params : List String) (main : Bool) : Lower Unit := do
  build (Builder.restore (params.map fun _ => .any))
  modify fun s => { s with slots := paramSlots params 1 ∅, blocks := [], main }

/-- Gives a name a slot of its own, filled with zero until it is assigned. -/
def declare (name : String) : Lower Unit := do
  pushUint 0
  build (Builder.count fun m => { m with placeholders := m.placeholders + 1 })
  modify fun s =>
    { s with
      slots := s.slots.insert name ⟨s.builder.depth, none⟩
      blocks := match s.blocks with
        | [] => []
        | b :: bs => { b with names := name :: b.names } :: bs }

/-- Declares the names that have no slot yet. -/
def declareAll : List String → Lower Unit
  | [] => return ()
  | n :: ns => do
    if (← slot? n).isNone then
      declare n
    declareAll ns

/-- What is known of a slot after one more store. -/
def Slot.stored (slot : Slot) (type : StackType) : Slot :=
  { slot with type := some (match slot.type with
      | none => type
      | some before => before.join type) }

/-- Notes that a value of some type was stored in the slot of a name. -/
def noteStore (name : String) (type : StackType) : Lower Unit :=
  modify fun s =>
    match s.slots[name]? with
    | none => s
    | some slot => { s with slots := s.slots.insert name (Slot.stored slot type) }

/-! ## Blocks -/

/-- Enters a block. -/
def enterBlock : Lower Unit :=
  modify fun s => { s with blocks := ⟨s.builder.depth, []⟩ :: s.blocks }

/-- Leaves a block. If control reaches its end, the slots of its names are taken off the stack;
otherwise nothing is known to be there. -/
def leaveBlock (terminated : Bool) : Lower Unit := do
  match (← get).blocks with
  | [] => fail .noBlock
  | block :: outer =>
    modify fun s => { s with
      blocks := outer
      slots := block.names.foldl (fun slots n => slots.erase n) s.slots }
    if terminated then
      build (Builder.forget block.base)
    else
      let depth := (← builder).depth
      let expected := block.base + block.names.length
      if depth ≠ expected then
        fail (.unbalancedBlock depth expected)
      popMany block.names.length

/-! ## Constants and constructs -/

/-- The value of a name that stands for a value of an enumeration. -/
def enumValue? (entry : Entry) (name : String) : Option Nat :=
  let tables := Builtin.hashValues ::
    (if entry.isApplication then [Builtin.onCompleteValues] else [])
  tables.findSome? fun values => values.idxOf? name

/-- Lowers `body` as the construct named `label`. Failures of any kind are noted. -/
def within {ε α : Type} (label : String) (body : ReaderT LowerEnv (EStateM ε LowerState) α) :
    ReaderT LowerEnv (EStateM ε LowerState) α := fun env s =>
  match body env { s with site := label :: s.site } with
  | .ok a s' => .ok a { s' with site := s.site }
  | .error e s' =>
    .error e { s' with
      failedAt := s'.failedAt.or (some (label :: s.site).reverse)
      site := s.site }

end Lower

end ContractCompiler
