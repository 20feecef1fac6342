import ContractCompiler.Syntax.Operator
import ContractCompiler.Syntax.Span

/-!
# Syntax trees

What a source says, with the span that each part comes from.
-/

namespace ContractCompiler

mutual

/-- An expression. -/
inductive Expr where
  /-- An integer literal. -/
  | uint (value : UInt64) (span : Span)
  /-- A string or a list of bytes. -/
  | bytes (value : List UInt8) (span : Span)
  | unary (op : UnaryOperator) (operand : Expr) (span : Span)
  | binary (op : BinaryOperator) (left right : Expr) (span : Span)
  | call (callee : String) (args : List Expr) (span : Span)
  | var (place : Variable)

/-- A place that can be read: a name, an element of a place, or a member of a place. -/
inductive Variable where
  | name (name : String) (span : Span)
  | index (base : Variable) (index : Expr) (span : Span)
  | member (owner : Variable) (member : String) (span : Span)

end

instance : Inhabited Variable := ⟨.name "" default⟩

instance : Inhabited Expr := ⟨.uint 0 default⟩

namespace Variable

/-- The span of a place. -/
def span : Variable → Span
  | name _ span | index _ _ span | member _ _ span => span

/-- A place with another span. -/
def withSpan (v : Variable) (span : Span) : Variable :=
  match v with
  | name n _ => name n span
  | index base i _ => index base i span
  | member owner m _ => member owner m span

end Variable

namespace Expr

/-- The span of an expression. -/
def span : Expr → Span
  | uint _ span | bytes _ span | unary _ _ span | binary _ _ _ span | call _ _ span => span
  | var place => place.span

/-- An expression with another span. -/
def withSpan (e : Expr) (span : Span) : Expr :=
  match e with
  | uint v _ => uint v span
  | bytes v _ => bytes v span
  | unary op operand _ => unary op operand span
  | binary op left right _ => binary op left right span
  | call callee args _ => call callee args span
  | var place => var (place.withSpan span)

/-- The name that an expression is, if it is just a name. -/
def asName? : Expr → Option String
  | var (.name n _) => some n
  | _ => none

end Expr

/-- How a statement leaves a function: with a result, by failing with a message, or by
ending the whole program. -/
inductive Leaving where
  | returning | throwing | exiting
deriving DecidableEq, Repr

/-- The keyword of a statement that leaves a function. -/
def Leaving.word : Leaving → String
  | returning => "return"
  | throwing => "throw"
  | exiting => "exit"

mutual

/-- A statement. -/
inductive Stmt where
  | ifElse (condition : Expr) (thenBlock : Block) (elseBlock : Option Block) (span : Span)
  | whileDo (condition : Expr) (body : Block) (span : Span)
  | doWhile (body : Block) (condition : Expr) (span : Span)
  | switch (tested : Expr) (cases : List Case) (otherwise : Option Block) (span : Span)
  | leave (kind : Leaving) (value : Option Expr) (span : Span)
  | expr (e : Expr)

/-- A sequence of statements with names of its own. -/
structure Block where
  stmts : List Stmt
  span : Span

/-- One case of a switch: the values that select it, and what is done then. -/
structure Case where
  values : List Expr
  block : Block
  span : Span

end

namespace Stmt

/-- The span of a statement. -/
def span : Stmt → Span
  | ifElse _ _ _ span | whileDo _ _ span | doWhile _ _ span | switch _ _ _ span
  | leave _ _ span => span
  | expr e => e.span

/-- The expressions that belong to a statement itself and not to a block inside it. -/
def ownExpressions : Stmt → List Expr
  | ifElse condition _ _ _ => [condition]
  | whileDo condition _ _ => [condition]
  | doWhile _ condition _ => [condition]
  | switch tested cases _ _ => tested :: cases.flatMap Case.values
  | leave _ value _ => value.toList
  | expr e => [e]

end Stmt

/-- A function. -/
structure Function where
  name : String
  params : List String
  body : Block
  span : Span

/-- A source: its functions in order. -/
structure Program where
  functions : List Function
  span : Span

/-- The first function of a name. -/
def Program.function? (p : Program) (name : String) : Option Function :=
  p.functions.find? (·.name == name)

end ContractCompiler
