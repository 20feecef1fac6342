import ContractCompiler.Compile

/-!
# Arguments

What a command line asks for. Options start with two dashes; some take a value, which is the
next argument or follows an equals sign. Some may stand before the command as well as after
it; what stands after it counts.
-/

namespace ContractCompiler.CommandLine

/-- An option. -/
inductive Setting where
  | json | logLevel | maxBytes | mode | version | out | noExpand
deriving DecidableEq, Repr

/-- A command. -/
inductive Command where
  | compile | check
deriving DecidableEq, Repr

namespace Setting

/-- The word for an option, after its dashes. -/
def word : Setting → String
  | json => "json"
  | logLevel => "log-level"
  | maxBytes => "max-bytes"
  | mode => "mode"
  | version => "teal-version"
  | out => "out"
  | noExpand => "no-preprocess"

/-- Whether an option takes a value. -/
def takesValue : Setting → Bool
  | json | noExpand => false
  | logLevel | maxBytes | mode | version | out => true

/-- The options that every command knows, and that may stand before it. -/
def general : List Setting := [json, logLevel, maxBytes]

end Setting

namespace Command

/-- The command of a word. -/
def ofWord? : String → Option Command
  | "compile" => some compile
  | "check" => some check
  | _ => none

/-- The options that a command knows. -/
def settings : Command → List Setting
  | compile => Setting.general ++ [.mode, .version, .out, .noExpand]
  | check => Setting.general ++ [.mode]

end Command

/-! ## Options and operands -/

/-- An option with its value, which is empty for one that takes none. -/
structure Given where
  setting : Setting
  value : String
deriving DecidableEq, Repr

/-- What an argument is. -/
inductive Item where
  | given (g : Given)
  | operand (text : String)
  /-- Everything after this is an operand. -/
  | divider
deriving DecidableEq, Repr

namespace Item

/-- Whether an argument looks like an option, so that it is no value of one. -/
def isDashed (arg : String) : Bool :=
  match arg.toList with
  | '-' :: _ :: _ => true
  | _ => false

/-- What stands before and after the first equals sign, if there is one. -/
def cutValue : List Char → List Char × Option String
  | [] => ([], none)
  | c :: cs =>
    if c = '=' then ([], some (String.ofList cs))
    else
      let (before, value) := cutValue cs
      (c :: before, value)

/-- Reads an option. The flag tells whether the next argument is its value. -/
def readOption (known : List Setting) (text : List Char) (next : Option String) :
    Option (Item × Bool) := do
  let (word, attached) := cutValue text
  let s ← known.find? (·.word.toList = word)
  if s.takesValue then
    match attached, next with
    | some v, _ => return (.given ⟨s, v⟩, false)
    | none, some v => if isDashed v then none else return (.given ⟨s, v⟩, true)
    | none, none => none
  else if attached.isSome then none
  else return (.given ⟨s, ""⟩, false)

/-- Reads an argument. The flag tells whether the next argument belongs to it. -/
def read (known : List Setting) (arg : String) (next : Option String) : Option (Item × Bool) :=
  match arg.toList with
  | ['-', '-'] => some (.divider, false)
  | '-' :: '-' :: text => readOption known text next
  | '-' :: _ :: _ => none
  | _ => some (.operand arg, false)

end Item

/-- Arguments after a command: the options and the operands. -/
def scan (known : List Setting) : List String → Option (List Given × List String)
  | [] => some ([], [])
  | arg :: rest => do
    match ← Item.read known arg rest.head? with
    | (.divider, _) => return ([], rest)
    | (.operand text, _) =>
      let (gs, os) ← scan known rest
      return (gs, text :: os)
    | (.given g, false) =>
      let (gs, os) ← scan known rest
      return (g :: gs, os)
    | (.given g, true) =>
      match rest with
      | [] => none
      | _ :: rest =>
        let (gs, os) ← scan known rest
        return (g :: gs, os)

/-- Arguments up to the first operand: the options before it, the operand, and the rest. -/
def leading (known : List Setting) : List String → Option (List Given × String × List String)
  | [] => none
  | arg :: rest => do
    match ← Item.read known arg rest.head? with
    | (.divider, _) => none
    | (.operand text, _) => return ([], text, rest)
    | (.given g, false) =>
      let (gs, tail) ← leading known rest
      return (g :: gs, tail)
    | (.given g, true) =>
      match rest with
      | [] => none
      | _ :: rest =>
        let (gs, tail) ← leading known rest
        return (g :: gs, tail)

/-! ## Values -/

/-- A number in decimal digits. -/
def digits? (cs : List Char) : Option Nat :=
  if cs.isEmpty ∨ !cs.all Char.isDigit then none
  else some (cs.foldl (fun n c => n * 10 + (c.toNat - '0'.toNat)) 0)

/-- A size: a number of at most 64 bits that may have a plus sign. -/
def readSize? (text : String) : Option Nat := do
  let n ← match text.toList with
    | '+' :: cs => digits? cs
    | cs => digits? cs
  guard (n < UInt64.size)
  return n

/-- A version: a number up to 255 that may have a sign. -/
def readVersion? (text : String) : Option Nat := do
  let n ← match text.toList with
    | '+' :: cs => digits? cs
    | '-' :: cs => (digits? cs).filter (· = 0)
    | cs => digits? cs
  guard (n ≤ 255)
  return n

/-- The words for how much is logged. -/
def logLevels : List String := ["trace", "debug", "info", "warn", "error"]

/-- Whether the value of an option makes sense. -/
def Given.isValid (g : Given) : Bool :=
  match g.setting with
  | .logLevel => logLevels.contains g.value
  | .maxBytes => (readSize? g.value).isSome
  | .version => (readVersion? g.value).isSome
  | .out => !g.value.isEmpty
  | .json | .mode | .noExpand => true

/-- Whether options make sense together: their values do, and none stands twice. -/
def areValid (gs : List Given) : Bool :=
  gs.all Given.isValid && decide (gs.map Given.setting).Nodup

/-- The value of an option, if it is given. -/
def value? (gs : List Given) (s : Setting) : Option String :=
  (gs.find? (·.setting = s)).map Given.value

/-- The value of a size option, or another value if the option is not given. -/
def sizeValue (gs : List Given) (s : Setting) (absent : Nat) : Nat :=
  ((value? gs s).bind readSize?).getD absent

/-! ## Invocations -/

/-- What is done with the source. -/
inductive Action where
  | check
  | compile (version : Nat) (out : Option String) (expand : Bool)
deriving DecidableEq, Repr

/-- What a command line asks for. -/
structure Invocation where
  action : Action
  path : String
  mode : String
  json : Bool
  maxBytes : Nat
deriving DecidableEq, Repr

/-- The greatest size of a source, in bytes, unless another one is given. -/
def defaultMaxBytes : Nat := 1048576

/-- The action of a command. Where no version is given, `environment` says which one to use. -/
def Command.action? (command : Command) (gs : List Given) (environment : Option String) :
    Option Action :=
  match command with
  | .check => some .check
  | .compile => do
    let version ← match (value? gs .version).or environment with
      | some text => readVersion? text
      | none => pure Options.defaultVersion
    return .compile version (value? gs .out) (value? gs .noExpand).isNone

/-- What arguments ask for, if they make sense. -/
def Invocation.ofArgs? (args : List String) (environment : Option String) :
    Option Invocation := do
  let (before, word, rest) ← leading Setting.general args
  let command ← Command.ofWord? word
  let (after, operands) ← scan command.settings rest
  guard (areValid before && areValid after)
  match operands with
  | [path] =>
    guard (!path.isEmpty)
    let action ← command.action? after environment
    return {
      action, path
      mode := (value? after .mode).getD "approval"
      json := (value? after .json).isSome || (value? before .json).isSome
      maxBytes := sizeValue after .maxBytes (sizeValue before .maxBytes defaultMaxBytes) }
  | _ => none

end ContractCompiler.CommandLine
