import ContractCompiler.Syntax.Tree

/-!
# Printing expressions

Expressions as text, with brackets around every operator between two operands.
-/

namespace ContractCompiler

mutual

/-- An expression as text. -/
def Expr.display : Expr → String
  | .uint value _ => toString value.toNat
  | .bytes value _ => "\"" ++ String.ofList (Text.decodeLossy value) ++ "\""
  | .unary op operand _ => op.symbol.text ++ operand.display
  | .binary op left right _ =>
    "(" ++ left.display ++ " " ++ op.text ++ " " ++ right.display ++ ")"
  | .call callee args _ => callee ++ "(" ++ ", ".intercalate (Expr.displayList args) ++ ")"
  | .var place => place.display

/-- Several expressions as text. -/
def Expr.displayList : List Expr → List String
  | [] => []
  | e :: es => e.display :: Expr.displayList es

/-- A place as text. -/
def Variable.display : Variable → String
  | .name name _ => name
  | .index base index _ => base.display ++ "[" ++ index.display ++ "]"
  | .member owner member _ => owner.display ++ "." ++ member

end

/-- The head of a function: its name and parameters. -/
def Function.display (f : Function) : String :=
  f.name ++ "(" ++ ", ".intercalate f.params ++ ")"

end ContractCompiler
