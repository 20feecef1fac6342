import ContractCompiler.Syntax.Tree

/-!
# Nodes

The parts of a syntax tree under one type, so that the whole tree can be walked.
-/

namespace ContractCompiler

/-- A part of a syntax tree. -/
inductive Node where
  | program (p : Program)
  | function (f : Function)
  | block (b : Block)
  | stmt (s : Stmt)
  | case (c : Case)
  | expr (e : Expr)
  | place (v : Variable)

/-! ## Weights -/

mutual

/-- The number of nodes of an expression. -/
def Expr.weight : Expr → Nat
  | .uint _ _ => 1
  | .bytes _ _ => 1
  | .unary _ operand _ => 1 + operand.weight
  | .binary _ left right _ => 1 + left.weight + right.weight
  | .call _ args _ => 1 + Expr.weightList args
  | .var place => 1 + place.weight

/-- The number of nodes of several expressions. -/
def Expr.weightList : List Expr → Nat
  | [] => 0
  | e :: es => e.weight + Expr.weightList es

/-- The number of nodes of a place. -/
def Variable.weight : Variable → Nat
  | .name _ _ => 1
  | .index base index _ => 1 + base.weight + index.weight
  | .member owner _ _ => 1 + owner.weight

end

mutual

/-- The number of nodes of a statement. -/
def Stmt.weight : Stmt → Nat
  | .ifElse condition thenBlock none _ => 1 + condition.weight + thenBlock.weight
  | .ifElse condition thenBlock (some elseBlock) _ =>
    1 + condition.weight + thenBlock.weight + elseBlock.weight
  | .whileDo condition body _ => 1 + condition.weight + body.weight
  | .doWhile body condition _ => 1 + body.weight + condition.weight
  | .switch tested cases none _ => 1 + tested.weight + Case.weightList cases
  | .switch tested cases (some otherwise) _ =>
    1 + tested.weight + Case.weightList cases + otherwise.weight
  | .leave _ none _ => 1
  | .leave _ (some value) _ => 1 + value.weight
  | .expr e => 1 + e.weight

/-- The number of nodes of several statements. -/
def Stmt.weightList : List Stmt → Nat
  | [] => 0
  | s :: ss => s.weight + Stmt.weightList ss

/-- The number of nodes of a block. -/
def Block.weight : Block → Nat
  | ⟨stmts, _⟩ => 1 + Stmt.weightList stmts

/-- The number of nodes of a case. -/
def Case.weight : Case → Nat
  | ⟨values, block, _⟩ => 1 + Expr.weightList values + block.weight

/-- The number of nodes of several cases. -/
def Case.weightList : List Case → Nat
  | [] => 0
  | c :: cs => c.weight + Case.weightList cs

end

namespace Node

/-- The number of nodes from a node on downwards. -/
def weight : Node → Nat
  | program p => 1 + p.functions.foldr (fun f w => 1 + f.body.weight + w) 0
  | function f => 1 + f.body.weight
  | block b => b.weight
  | stmt s => s.weight
  | case c => c.weight
  | expr e => e.weight
  | place v => v.weight

/-- The number of nodes from several nodes on downwards. -/
def weightAll (ns : List Node) : Nat :=
  ns.foldr (fun n w => n.weight + w) 0

@[simp] theorem weightAll_nil : weightAll [] = 0 := rfl

@[simp] theorem weightAll_cons (n : Node) (ns : List Node) :
    weightAll (n :: ns) = n.weight + weightAll ns := rfl

@[simp] theorem weightAll_append (ns ms : List Node) :
    weightAll (ns ++ ms) = weightAll ns + weightAll ms := by
  induction ns with
  | nil => simp
  | cons n ns ih => simp [ih, Nat.add_assoc]

@[simp] theorem weightAll_expr (es : List Expr) : weightAll (es.map expr) = Expr.weightList es := by
  induction es with
  | nil => rfl
  | cons e es ih => simp [Expr.weightList, weight, ih]

@[simp] theorem weightAll_stmt (ss : List Stmt) : weightAll (ss.map stmt) = Stmt.weightList ss := by
  induction ss with
  | nil => rfl
  | cons s ss ih => simp [Stmt.weightList, weight, ih]

@[simp] theorem weightAll_case (cs : List Case) : weightAll (cs.map case) = Case.weightList cs := by
  induction cs with
  | nil => rfl
  | cons c cs ih => simp [Case.weightList, weight, ih]

/-! ## Children and descendants -/

/-- The span of a node. -/
def span : Node → Span
  | program p => p.span
  | function f => f.span
  | block b => b.span
  | stmt s => s.span
  | case c => c.span
  | expr e => e.span
  | place v => v.span

/-- The parts of a statement. -/
def ofStmt : Stmt → List Node
  | .ifElse condition thenBlock elseBlock _ =>
    expr condition :: block thenBlock :: elseBlock.toList.map block
  | .whileDo condition body _ => [expr condition, block body]
  | .doWhile body condition _ => [block body, expr condition]
  | .switch tested cases otherwise _ =>
    expr tested :: (cases.map case ++ otherwise.toList.map block)
  | .leave _ value _ => value.toList.map expr
  | .expr e => [expr e]

/-- The parts of an expression. -/
def ofExpr : Expr → List Node
  | .uint _ _ | .bytes _ _ => []
  | .unary _ operand _ => [expr operand]
  | .binary _ left right _ => [expr left, expr right]
  | .call _ args _ => args.map expr
  | .var v => [place v]

/-- The parts of a place. -/
def ofVariable : Variable → List Node
  | .name _ _ => []
  | .index base index _ => [place base, expr index]
  | .member owner _ _ => [place owner]

/-- The nodes right below a node, in source order. -/
def children : Node → List Node
  | program p => p.functions.map function
  | function f => [block f.body]
  | block b => b.stmts.map stmt
  | stmt s => ofStmt s
  | case c => c.values.map expr ++ [block c.block]
  | expr e => ofExpr e
  | place v => ofVariable v

/-- A node counts one more than its children together. -/
theorem weight_eq (n : Node) : n.weight = 1 + weightAll n.children := by
  cases n with
  | program p => simp [weight, weightAll, children, List.foldr_map]
  | function f => simp [weight, children]
  | block b =>
    cases b
    simp [weight, children, Block.weight]
  | stmt s =>
    cases s with
    | ifElse c t e _ => cases e <;> simp [weight, children, ofStmt, Stmt.weight] <;> omega
    | whileDo => simp [weight, children, ofStmt, Stmt.weight]; omega
    | doWhile => simp [weight, children, ofStmt, Stmt.weight]; omega
    | switch t cs d _ =>
      cases d <;>
        simp [weight, children, ofStmt, Stmt.weight] <;> omega
    | leave _ v _ => cases v <;> simp [weight, children, ofStmt, Stmt.weight]
    | expr => simp [weight, children, ofStmt, Stmt.weight]
  | case c =>
    cases c
    simp [weight, children, Case.weight]
    omega
  | expr e =>
    cases e with
    | binary => simp [weight, children, ofExpr, Expr.weight]; omega
    | _ => simp [weight, children, ofExpr, Expr.weight]
  | place v =>
    cases v with
    | index => simp [weight, children, ofVariable, Variable.weight]; omega
    | _ => simp [weight, children, ofVariable, Variable.weight]

/-- Visits the nodes of a stack and everything below them, in source order, onto `acc`. -/
def visit (stack : List Node) (acc : List Node) : List Node :=
  match stack with
  | [] => acc.reverse
  | n :: rest => visit (n.children ++ rest) (n :: acc)
termination_by weightAll stack
decreasing_by
  have := weight_eq n
  simp
  omega

/-- A node and everything below it, in source order. -/
def descendants (n : Node) : List Node :=
  visit [n] []

/-- A call: the function it names, its arguments and its span. -/
structure Call where
  callee : String
  args : List Expr
  span : Span

/-- An assignment: its two sides and its span. -/
structure Assignment where
  target : Expr
  value : Expr
  span : Span

/-- A statement that leaves a function. -/
structure Departure where
  kind : Leaving
  value : Option Expr
  span : Span

/-- The call that a node is, if it is one. -/
def call? : Node → Option Call
  | expr (.call callee args span) => some ⟨callee, args, span⟩
  | _ => none

/-- The assignment that a node is, if it is one. -/
def assignment? : Node → Option Assignment
  | expr (.binary .assign left right span) => some ⟨left, right, span⟩
  | _ => none

/-- The departure that a node is, if it is one. -/
def departure? : Node → Option Departure
  | stmt (.leave kind value span) => some ⟨kind, value, span⟩
  | _ => none

/-- The calls from a node on downwards, in source order. -/
def calls (n : Node) : List Call :=
  n.descendants.filterMap call?

/-- The assignments from a node on downwards, in source order. -/
def assignments (n : Node) : List Assignment :=
  n.descendants.filterMap assignment?

/-- The departures from a node on downwards, in source order. -/
def departures (n : Node) : List Departure :=
  n.descendants.filterMap departure?

end Node

/-- Whether a function returns a value somewhere. -/
def Function.returnsValue (f : Function) : Bool :=
  (Node.function f).departures.any fun d => d.kind == .returning && d.value.isSome

/-- The names that the own expressions of some statements assign to, in source order. -/
def Stmt.assignedNames (ss : List Stmt) : List String :=
  ((ss.flatMap ownExpressions).flatMap fun e => (Node.expr e).assignments).filterMap
    fun a => a.target.asName?

end ContractCompiler
