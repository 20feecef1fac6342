import ContractCompiler.CommandLine.Args
import ContractCompiler.CommandLine.Json
import ContractCompiler.CommandLine.Path

/-!
# Running a command

A command reads one source, compiles or checks it, and reports. Files are reached through a
`Host`, so that a command can be run on any kind of file store.
-/

namespace ContractCompiler.CommandLine

/-- Why a file cannot be read or written. -/
inductive FileFault where
  | missing
  | isDirectory
  | notText
  | other (text : String)
deriving DecidableEq, Repr

/-- The wording of a fault. -/
def FileFault.message : FileFault → String
  | missing => "No such file or directory (os error 2)"
  | isDirectory => "Is a directory (os error 21)"
  | notText => "stream did not contain valid UTF-8"
  | other text => text

/-- Why a command fails. -/
inductive Failure where
  | tooLarge (size limit : Nat)
  /-- A mode or an option that makes no sense. -/
  | request (d : Diagnostic)
  | noFileName (path : String)
  /-- A source at fault. -/
  | source (d : Diagnostic)
  | file (fault : FileFault) (path : String)
deriving DecidableEq, Repr

namespace Failure

/-- The wording of a failure. -/
def message : Failure → String
  | tooLarge size limit => s!"invalid input: file too large: {size} bytes (limit {limit})"
  | request d => s!"invalid input: {d.message}"
  | noFileName path => s!"invalid input: output path has no file name: {path}"
  | source d => s!"compile error: {d.message}"
  | file fault path => s!"io error: {fault.message}: {path}"

/-- The exit code of a failure. -/
def code : Failure → Nat
  | tooLarge _ _ | request _ | noFileName _ => 2
  | source _ => 3
  | file _ _ => 5

end Failure

/-- The exit code of a command line that makes no sense. -/
def usageCode : Nat := 2

/-- Access to files, and the milliseconds since the command was started. -/
structure Host (m : Type → Type) where
  read : String → m (Except FileFault (List UInt8))
  write : String → String → m (Except FileFault Unit)
  elapsed : m Nat

/-- What is left of a command: its exit code and what it printed. -/
structure Outcome where
  code : Nat
  stdout : String
  stderr : String
deriving DecidableEq, Repr

/-! ## Reports -/

/-- The counters of a program, for machines. -/
def metricsJson (m : Metrics) : Json :=
  .obj [("labels", .num m.labels), ("ops", .num m.ops), ("peak_depth", .num m.peakDepth),
    ("placeholders", .num m.placeholders), ("pruned", .num m.pruned),
    ("static_cost", .num m.staticCost), ("subroutines", .num m.subroutines)]

/-- A program, for machines. -/
def assemblyJson (a : Assembly) : Json :=
  .obj [("entry", .str a.entry), ("metrics", metricsJson a.metrics), ("teal", .str a.text)]

/-- The report on compiled programs, for machines. -/
def compiledJson (programs : List Assembly) (written : List String) (elapsed : Nat) : Json :=
  .obj [("ok", .bool true), ("programs", .arr (programs.map assemblyJson)),
    ("time_ms", .num elapsed), ("written", .arr (written.map .str))]

/-- A program under a heading. -/
def headed (a : Assembly) : String :=
  "// " ++ a.entry ++ "\n" ++ a.text

/-- The texts of programs. If there are several, each has a heading, and blank lines stand
between them. -/
def listing : List Assembly → String
  | [a] => a.text
  | as => "\n".intercalate (as.map headed)

/-- The line that tells where a program was written. -/
def writtenLine (a : Assembly) (path : String) : String :=
  let m := a.metrics
  s!"wrote {path} ({a.entry}): ops={m.ops} labels={m.labels} peak_depth={m.peakDepth} " ++
    s!"static_cost={m.staticCost}\n"

/-- The report on compiled programs. -/
def compiledText (programs : List Assembly) : (written : List String) → String
  | [] => listing programs
  | written => String.join (List.zipWith writtenLine programs written)

/-- The report on a checked source, for machines. -/
def checkedJson (mode : Mode) (a : Analysis) : Json :=
  .obj [("entry_points", .arr (a.entryPoints.map .str)), ("functions", .num a.functions),
    ("mode", .str mode.display), ("ok", .bool true), ("variables", .num a.locals)]

/-- The report on a checked source. -/
def checkedText (a : Analysis) : String :=
  let entries := ",".intercalate a.entryPoints
  s!"OK: entries={entries} functions={a.functions} variables={a.locals}\n"

/-- The report on a failure, for machines. -/
def failureJson (f : Failure) : Json :=
  .obj [("code", .num f.code), ("error", .str f.message), ("ok", .bool false)]

/-! ## Running -/

/-- Where programs are written: a single one to the path that was asked for, several to files
next to it that are named for their entries. -/
def outputPaths (out : String) : List Assembly → Except Failure (List String)
  | [_] => .ok [out]
  | programs =>
    let path := Path.ofText out
    match path.fileName? with
    | none => .error (.noFileName out)
    | some name =>
      .ok (programs.map fun a =>
        (path.withFileName (Path.stem name ++ ("." ++ a.entry ++ ".teal").toList)).text)

namespace Invocation

variable {m : Type → Type} [Monad m]

/-- Reads the source of a command. -/
def readSource (host : Host m) (inv : Invocation) : ExceptT Failure m (List Char) := do
  match ← host.read inv.path with
  | .error fault => throw (.file fault inv.path)
  | .ok bytes =>
    if bytes.length > inv.maxBytes then
      throw (.tooLarge bytes.length inv.maxBytes)
    match Text.decode? bytes with
    | some text => return text
    | none => throw (.file .notText inv.path)

/-- Writes programs, each to its path, until one cannot be written. -/
def writeAll (host : Host m) : List (Assembly × String) → ExceptT Failure m Unit
  | [] => return ()
  | (a, path) :: rest => do
    match ← host.write path a.text with
    | .error fault => throw (.file fault path)
    | .ok _ => writeAll host rest

/-- Writes programs where they were asked for, and gives the paths. -/
def writePrograms (host : Host m) (programs : List Assembly) :
    Option String → ExceptT Failure m (List String)
  | none => return []
  | some out => do
    let paths ← outputPaths out programs
    writeAll host (programs.zip paths)
    return paths

/-- Runs a command up to its report. -/
def report (host : Host m) (inv : Invocation) : ExceptT Failure m String := do
  let text ← inv.readSource host
  let mode ← (Mode.ofText inv.mode).mapError Failure.request
  match inv.action with
  | .check =>
    let a ← (checkSource text mode).mapError Failure.source
    return if inv.json then (checkedJson mode a).text ++ "\n" else checkedText a
  | .compile version out expand =>
    let options : Options := ⟨mode, version, expand⟩
    options.validate.mapError Failure.request
    let programs ← (compileAll text options).mapError Failure.source
    let written ← writePrograms host programs out
    if inv.json then
      return (compiledJson programs written (← host.elapsed)).text ++ "\n"
    else return compiledText programs written

/-- Runs a command. -/
def run (host : Host m) (inv : Invocation) : m Outcome := do
  match ← (inv.report host).run with
  | .ok text => return ⟨0, text, ""⟩
  | .error f =>
    if inv.json then return ⟨f.code, (failureJson f).text ++ "\n", ""⟩
    else return ⟨f.code, "", "error: " ++ f.message ++ "\n"⟩

end Invocation

end ContractCompiler.CommandLine
