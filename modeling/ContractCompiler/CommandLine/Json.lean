/-!
# Reports for machines

JSON values and their text: no blanks, and in strings only quotes, backslashes and control
characters are escaped.
-/

namespace ContractCompiler.CommandLine

/-- A JSON value. Numbers are never negative here. -/
inductive Json where
  | bool (value : Bool)
  | num (value : Nat)
  | str (value : String)
  | arr (items : List Json)
  | obj (members : List (String × Json))

namespace Json

/-- A character inside a string. -/
def escape (c : Char) : List Char :=
  match c with
  | '"' => ['\\', '"']
  | '\\' => ['\\', '\\']
  | '\n' => ['\\', 'n']
  | '\r' => ['\\', 'r']
  | '\t' => ['\\', 't']
  | '\x08' => ['\\', 'b']
  | '\x0c' => ['\\', 'f']
  | c =>
    if c.toNat < 0x20 then
      ['\\', 'u', '0', '0', Nat.digitChar (c.toNat / 16), Nat.digitChar (c.toNat % 16)]
    else [c]

/-- A string in quotes. -/
def quote (s : String) : String :=
  "\"" ++ String.ofList (s.toList.flatMap escape) ++ "\""

mutual

/-- The text of a value. -/
def text : Json → String
  | bool value => if value then "true" else "false"
  | num value => toString value
  | str value => quote value
  | arr items => "[" ++ ",".intercalate (texts items) ++ "]"
  | obj members => "\x7b" ++ ",".intercalate (memberTexts members) ++ "\x7d"

/-- The texts of several values. -/
def texts : List Json → List String
  | [] => []
  | j :: js => text j :: texts js

/-- The texts of the members of an object. -/
def memberTexts : List (String × Json) → List String
  | [] => []
  | (name, value) :: rest => (quote name ++ ":" ++ text value) :: memberTexts rest

end

end Json

end ContractCompiler.CommandLine
