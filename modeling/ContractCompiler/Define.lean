import ContractCompiler.Text.Blank
import ContractCompiler.Text.Bytes
import ContractCompiler.Text.Split
import ContractCompiler.Token.Basic

/-!
# Definitions

Before anything else, every `#define NAME value` is taken out of the text and its name is
replaced by its value in what is left.

A directive starts at the first `#define` of a line, wherever it stands, and ends with the
line. Only the part of the line before it is kept, so lines keep their numbers.
-/

namespace ContractCompiler

/-- A name and the text that replaces it. -/
structure Define where
  name : List Char
  value : List Char
deriving DecidableEq, Repr

/-- What is wrong with a directive. -/
inductive DefineFault where
  | noName
  | badName
deriving DecidableEq, Repr

/-- The wording of a fault. -/
def DefineFault.message : DefineFault → String
  | noName => "`#define` must be followed by a name"
  | badName => "`#define` name must start with a letter"

namespace Define

/-- The word that starts a directive. -/
def directive : List Char := "#define".toList

/-- The part of a line before its first directive, in reverse onto `acc`, and the text after
the word that starts the directive, if there is one. -/
def cutLine : (line : List Char) → (acc : List Char) → List Char × Option (List Char)
  | [], acc => (acc, none)
  | c :: cs, acc =>
    if directive.isPrefixOf (c :: cs) then (acc, some ((c :: cs).drop directive.length))
    else cutLine cs (c :: acc)

/-- The definition made by a directive, from the text after its first word. Carriage
returns at the end of the line do not count. -/
def read (body : List Char) : Except DefineFault Define :=
  let body := (body.reverse.dropWhile (· = '\r')).reverse
  match body.head? with
  | some c =>
    if c = ' ' ∨ c = '\t' then
      let body := Text.trimStart body
      let name := body.takeWhile isIdentContinue
      match name.head? with
      | some c =>
        if c.isAlpha then .ok ⟨name, Text.trim (body.dropWhile isIdentContinue)⟩
        else .error .badName
      | none => .error .badName
    else .error .noName
  | none => .error .noName

/-- Cuts lines that start at byte `offset`. The kept parts and the definitions are gathered
newest first; a fault comes with the offset of its directive. -/
def stripLines : (lines : List (List Char)) → (offset : Nat) → (kept : List (List Char)) →
    (defines : List Define) → Except (DefineFault × Nat) (List (List Char) × List Define)
  | [], _, kept, defines => .ok (kept.reverse, defines.reverse)
  | line :: rest, offset, kept, defines =>
    let next := offset + Text.byteLength line + 1
    match cutLine line [] with
    | (acc, none) => stripLines rest next (acc.reverse :: kept) defines
    | (acc, some body) =>
      match read body with
      | .ok d => stripLines rest next (acc.reverse :: kept) (d :: defines)
      | .error e => .error (e, offset + Text.byteLength acc)

/-- A text without its directives, and the definitions they make in order. -/
def strip (text : List Char) : Except (DefineFault × Nat) (List Char × List Define) := do
  let (kept, defines) ← stripLines (Text.split '\n' text) 0 [] []
  return (Text.join '\n' kept, defines)

/-- Replaces each occurrence of `name`, from left to right and without overlap, in reverse
onto `acc`. The next `skip` characters belong to an occurrence that was already replaced. -/
def replaceFrom (name value : List Char) :
    (skip : Nat) → List Char → (acc : List Char) → List Char
  | _, [], acc => acc
  | skip + 1, _ :: cs, acc => replaceFrom name value skip cs acc
  | 0, c :: cs, acc =>
    if name.isPrefixOf (c :: cs) then
      replaceFrom name value (name.length - 1) cs (value.reverseAux acc)
    else replaceFrom name value 0 cs (c :: acc)

/-- Replaces each occurrence of a definition's name by its value. -/
def replaceAll (d : Define) (text : List Char) : List Char :=
  (replaceFrom d.name d.value 0 text []).reverse

/-- A text with its definitions applied, in the order in which they were made. -/
def expand (text : List Char) : Except (DefineFault × Nat) (List Char) := do
  let (kept, defines) ← strip text
  return defines.foldl (fun out d => d.replaceAll out) kept

end Define

end ContractCompiler
