import ContractCompiler.Diagnostic
import ContractCompiler.Syntax.ProgramReader
import ContractCompiler.Token.Reader

/-!
# Sources

From the text of a source to its syntax tree, with faults placed in the text.
-/

namespace ContractCompiler.Source

open Text (Position)

/-- A fault of a definition, placed in its text. -/
def defineFault (text : List Char) (e : DefineFault × Nat) : Diagnostic :=
  .define e.1 (Position.locate text e.2)

/-- A text without its directives, and its definitions. -/
def strip (text : List Char) : Except Diagnostic (List Char × List Define) :=
  (Define.strip text).mapError (defineFault text)

/-- A text with its definitions applied. -/
def expand (text : List Char) : Except Diagnostic (List Char) :=
  (Define.expand text).mapError (defineFault text)

/-- The tokens of a text. A text that cannot be cut into tokens is at fault for that, however
many tokens it has. -/
def tokens (text : List Char) : Except Diagnostic (List Token) :=
  match readTokens text 0 [] with
  | .error (fault, offset) => .error (.lex fault (Position.locate text offset))
  | .ok toks => if toks.length > maxTokens then .error (.limit .tokens) else .ok toks

/-- The program that a text says. -/
def program (text : List Char) : Except Diagnostic Program := do
  let toks ← tokens text
  (Program.ofTokens toks).mapError (Diagnostic.ofSyntax text)

end ContractCompiler.Source
