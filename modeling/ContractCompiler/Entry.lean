import ContractCompiler.Text.Blank
import ContractCompiler.Text.Split

/-!
# Entry programs and modes

A source can hold up to three programs: the approval and the clear-state program of an
application, or a signature program. A mode says which of them are wanted.
-/

namespace ContractCompiler

/-- A kind of program that a source can define. -/
inductive Entry where
  | approval | clearState | signature
deriving DecidableEq, Repr

namespace Entry

/-- All entries, in the order in which their programs are produced. -/
def all : List Entry := [approval, clearState, signature]

/-- The function that a program starts at. -/
def functionName : Entry → String
  | approval => "ApprovalProgram"
  | clearState => "ClearStateProgram"
  | signature => "Signature"

/-- The word for an entry in a list of modes. -/
def word : Entry → String
  | approval => "approval"
  | clearState => "clear"
  | signature => "signature"

/-- The entry that a word stands for. -/
def ofWord? : String → Option Entry
  | "approval" => some approval
  | "clear" => some clearState
  | "clear-state" => some clearState
  | "signature" => some signature
  | _ => none

/-- The bit of an entry in a mode. -/
def bit : Entry → UInt8
  | approval => 1
  | clearState => 2
  | signature => 4

/-- Whether a program runs as part of an application. -/
def isApplication : Entry → Bool
  | approval | clearState => true
  | signature => false

end Entry

/-- Which entries are wanted, one bit for each. -/
structure Mode where
  bits : UInt8
deriving DecidableEq, Repr

/-- Why a set of entries makes no sense. -/
inductive ModeFault where
  | unknownBits
  | noEntry
  | mixedSignature
deriving DecidableEq, Repr

/-- The wording of a mode fault. -/
def ModeFault.message : ModeFault → String
  | unknownBits => "unknown mode bits"
  | noEntry => "no entry program selected"
  | mixedSignature => "signature mode cannot be combined with application modes"

namespace Mode

/-- The mode with no entry. -/
def empty : Mode := ⟨0⟩

/-- The mode with a single entry. -/
def single (e : Entry) : Mode := ⟨e.bit⟩

/-- Both modes together. -/
def union (a b : Mode) : Mode := ⟨a.bits ||| b.bits⟩

/-- Whether all bits of a mode that has some are set. -/
def includes (m other : Mode) : Bool :=
  other.bits != 0 && m.bits &&& other.bits == other.bits

/-- Whether a mode has an entry. -/
def contains (m : Mode) (e : Entry) : Bool :=
  m.includes (single e)

/-- Whether no bit is set. -/
def isEmpty (m : Mode) : Bool :=
  m.bits == 0

/-- Whether a mode has an entry of an application. -/
def isApplication (m : Mode) : Bool :=
  m.contains .approval || m.contains .clearState

/-- The entries of a mode, in production order. -/
def entries (m : Mode) : List Entry :=
  Entry.all.filter m.contains

/-- The functions that the programs of a mode start at. -/
def entryPoints (m : Mode) : List String :=
  m.entries.map Entry.functionName

/-- What is wrong with a mode, if something is: bits that belong to no entry, no entry
at all, or a signature beside other entries. -/
def fault? (m : Mode) : Option ModeFault :=
  if m.bits &&& ~~~(7 : UInt8) != 0 then some .unknownBits
  else if m.isEmpty then some .noEntry
  else if m.contains .signature && m != single .signature then some .mixedSignature
  else none

/-- The words of the entries, separated by commas. -/
def display (m : Mode) : String :=
  ",".intercalate (m.entries.map Entry.word)

/-- The words of a list of modes: trimmed, and without empty ones. -/
def wordsOf (text : String) : List String :=
  ((Text.split ',' text.toList).map Text.trim).filter (!·.isEmpty) |>.map String.ofList

/-- The mode that has the entries named by some words, or the first word that names none. -/
def ofWords : List String → Mode → Except String Mode
  | [], m => .ok m
  | w :: ws, m =>
    match Entry.ofWord? w with
    | some e => ofWords ws (m.union (single e))
    | none => .error w

end Mode

end ContractCompiler
