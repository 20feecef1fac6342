import ContractCompiler.Lowering.Program
import ContractCompiler.Source

/-!
# Compiling

From the text of a source to the programs it defines.
-/

namespace ContractCompiler

/-- A mode that makes sense. -/
def Mode.validate (m : Mode) : Except Diagnostic Unit :=
  match m.fault? with
  | some fault => .error (.mode fault)
  | none => .ok ()

/-- The mode that a comma-separated list of words asks for. -/
def Mode.ofText (text : String) : Except Diagnostic Mode := do
  match ofWords (wordsOf text) .empty with
  | .error word => throw (.option (.unknownMode word))
  | .ok m =>
    m.validate
    return m

/-- What to compile for. -/
structure Options where
  mode : Mode
  version : Nat
  /-- Whether definitions in the source are applied. -/
  expand : Bool
deriving DecidableEq, Repr

namespace Options

/-- The version of the machine that is meant if none is named. -/
def defaultVersion : Nat := 5

/-- The usual options for a mode. -/
def ofMode (mode : Mode) : Options := ⟨mode, defaultVersion, true⟩

/-- Whether options make sense: the mode must, and the machine must have the version. -/
def validate (o : Options) : Except Diagnostic Unit := do
  o.mode.validate
  if o.version < 1 ∨ maxVersion < o.version then
    throw (.option (.versionOutOfRange o.version))

end Options

/-- What is known of the local that is read at an offset. -/
def Analysis.localType? (a : Analysis) (offset : Nat) : Option StackType :=
  a.localTypes[offset]?

/-- Reads a source as it stands and checks it against the typing rules. -/
def checkText (text : List Char) (mode : Mode) : Except Diagnostic Analysis := do
  let p ← Source.program text
  p.check mode text

/-- Applies the definitions of a source, reads it and checks it. -/
def checkSource (text : List Char) (mode : Mode) : Except Diagnostic Analysis := do
  mode.validate
  checkText (← Source.expand text) mode

/-- The programs of a source, one for each entry of the mode. -/
def compileAll (text : List Char) (o : Options) : Except Diagnostic (List Assembly) := do
  o.validate
  let text ← if o.expand then Source.expand text else pure text
  let p ← Source.program text
  let analysis ← p.check o.mode text
  p.generateAll analysis.localType? o.version o.mode

/-- The first program of a source. -/
def compileFirst (text : List Char) (o : Options) : Except Diagnostic Assembly := do
  match ← compileAll text o with
  | first :: _ => return first
  | [] => throw (.code .noProgram none)

end ContractCompiler
