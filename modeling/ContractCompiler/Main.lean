import ContractCompiler.CommandLine.Run

/-!
# The command line

Reads the arguments, and runs what they ask for on the files of the machine.
-/

namespace ContractCompiler.CommandLine

/-- What went wrong with a file. -/
def FileFault.ofError : IO.Error → FileFault
  | .noFileOrDirectory _ _ _ => .missing
  | .inappropriateType _ _ _ => .isDirectory
  | e => .other (toString e)

/-- The files of the machine. -/
def machineHost (started : Nat) : Host IO where
  read path := do
    try
      return .ok (← IO.FS.readBinFile path).toList
    catch e => return .error (.ofError e)
  write path text := do
    try
      IO.FS.writeFile path text
      return .ok ()
    catch e => return .error (.ofError e)
  elapsed := return (← IO.monoMsNow) - started

/-- The environment variable that names a version. -/
def versionVariable : String := "AZUR_TEAL_VERSION"

/-- How the command is used. -/
def usage : String :=
  "usage: compile PATH [--mode M] [--teal-version N] [--out P] [--no-preprocess]\n" ++
  "       check PATH [--mode M]\n" ++
  "options: --json, --log-level trace|debug|info|warn|error, --max-bytes N\n"

end ContractCompiler.CommandLine

open ContractCompiler.CommandLine in
/-- Runs the command line. -/
def main (args : List String) : IO UInt32 := do
  let started ← IO.monoMsNow
  match Invocation.ofArgs? args (← IO.getEnv versionVariable) with
  | none =>
    IO.eprint usage
    return UInt32.ofNat usageCode
  | some inv =>
    let outcome ← inv.run (machineHost started)
    IO.print outcome.stdout
    IO.eprint outcome.stderr
    return UInt32.ofNat outcome.code
