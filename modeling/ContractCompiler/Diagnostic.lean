import ContractCompiler.Assembly.Fault
import ContractCompiler.Define
import ContractCompiler.Entry
import ContractCompiler.Syntax.Fault
import ContractCompiler.Text.Position
import ContractCompiler.Token.Fault
import ContractCompiler.Typing.Fault

/-!
# Diagnostics

Everything that can go wrong between a source and its programs.
-/

namespace ContractCompiler

open Text (Position)

/-- What is wrong with a compile option. -/
inductive OptionFault where
  | unknownMode (word : String)
  | versionOutOfRange (version : Nat)
deriving DecidableEq, Repr

/-- The wording of a fault. -/
def OptionFault.message : OptionFault → String
  | unknownMode word => s!"unknown mode '{word}'"
  | versionOutOfRange version =>
    s!"TEAL version {version} is out of range 1..={maxVersion}"

/-- A bound that a source exceeds. -/
inductive Limit where
  | tokens
  | depth
  /-- A bound named by whoever drives the compiler. -/
  | named (text : String)
deriving DecidableEq, Repr

/-- The wording of an exceeded bound. -/
def Limit.message : Limit → String
  | tokens => "too many tokens"
  | depth => "parse depth exceeded"
  | named text => text

/-- Why a source has no programs. -/
inductive Diagnostic where
  | define (fault : DefineFault) (pos : Position)
  | lex (fault : LexFault) (pos : Position)
  /-- `found` describes the token, or the end of the text, that stands at `pos`. -/
  | expected (expected : Expected) (found : String) (pos : Position)
  | unsupported (word : String) (pos : Position)
  /-- `extract` is the piece of source to blame. -/
  | meaning (fault : TypeFault) (extract : String) (pos : Position)
  /-- `site` names the constructs around the one that has no code, outermost first. -/
  | code (fault : CodeFault) (site : Option (List String))
  | mode (fault : ModeFault)
  | option (fault : OptionFault)
  | limit (limit : Limit)
deriving DecidableEq, Repr

namespace Diagnostic

/-- The constructs around a place, outermost first. -/
def showSite : List String → String
  | [] => "(root)"
  | site => " -> ".intercalate site

/-- The text of a diagnostic. -/
def message : Diagnostic → String
  | define fault pos => s!"preprocess: {fault.message} at {pos.display}"
  | lex fault pos => s!"lex: {fault.message} at {pos.display}"
  | expected what found pos =>
    s!"syntax: expected {what.describe}, found {found} at {pos.display}"
  | unsupported word pos => s!"syntax: `{word}` is not supported at {pos.display}"
  | meaning fault extract pos =>
    s!"semantic: {fault.message} in `{extract}` at {pos.display}"
  | code fault none => s!"compile: {fault.message}"
  | code fault (some site) => s!"compile: {fault.message} (in {showSite site})"
  | mode fault => s!"invalid mode: {fault.message}"
  | option fault => s!"invalid option: {fault.message}"
  | limit bound => s!"limit: {bound.message}"

/-- The place that a diagnostic points at, if it blames the source. -/
def pos? : Diagnostic → Option Position
  | define _ pos | lex _ pos | expected _ _ pos | unsupported _ pos | meaning _ _ pos => some pos
  | code _ _ | mode _ | option _ | limit _ => none

/-- A fault of syntax, placed in its source. -/
def ofSyntax (text : List Char) : SyntaxFault → Diagnostic
  | .unexpected what (some t) =>
    .expected what t.lexeme.describe (Position.locate text t.offset)
  | .unexpected what none =>
    .expected what "end of input" (Position.locate text (Text.byteLength text))
  | .unsupported word offset => .unsupported word (Position.locate text offset)
  | .tooDeep => .limit .depth

end Diagnostic

end ContractCompiler
