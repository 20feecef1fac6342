import ContractCompiler.Text.Split

/-!
# File names

Paths with components between slashes. Empty components and single dots count for nothing,
except for a dot at the very beginning.
-/

namespace ContractCompiler.CommandLine

/-- A path, as the root it may start at and its components. -/
structure Path where
  absolute : Bool
  parts : List (List Char)
deriving DecidableEq, Repr

namespace Path

/-- Drops components at the end that count for nothing. -/
def trimEnd (parts : List (List Char)) : List (List Char) :=
  (parts.reverse.dropWhile fun p => p = [] ∨ p = ['.']).reverse

/-- Components without those at the end that count for nothing. -/
def normalEnd : List (List Char) → List (List Char)
  | ['.'] :: rest => ['.'] :: trimEnd rest
  | parts => trimEnd parts

/-- The path that a text names. -/
def ofText (text : String) : Path :=
  match Text.split '/' text.toList with
  | [] :: rest =>
    if text.isEmpty then ⟨false, []⟩ else ⟨true, trimEnd rest⟩
  | parts => ⟨false, normalEnd parts⟩

/-- The last component, if it names a file. -/
def fileName? (p : Path) : Option (List Char) :=
  match p.parts.getLast? with
  | none | some ['.'] | some ['.', '.'] => none
  | some name => some name

/-- A file name without what follows its last dot, unless the dot is where the name starts. -/
def stem (name : List Char) : List Char :=
  match (name.reverse.dropWhile (· ≠ '.')).tail.reverse with
  | [] => name
  | before => before

/-- A path next to another one, under a different name. -/
def withFileName (p : Path) (name : List Char) : Path :=
  if p.absolute then ⟨true, trimEnd p.parts.dropLast ++ [name]⟩
  else ⟨false, normalEnd p.parts.dropLast ++ [name]⟩

/-- The text of a path. -/
def text (p : Path) : String :=
  String.ofList ((if p.absolute then ['/'] else []) ++ Text.join '/' p.parts)

end Path

end ContractCompiler.CommandLine
