import ContractCompiler.Proofs.Syntax.Descendants

/-!
# Amended trees

A tree may stand elsewhere in the source, and its constants may say something else. An amendment
says what becomes of places and of constants; the amended tree has the shape of the tree.
-/

namespace ContractCompiler

/-- A change of places and of the constants at them. -/
structure Amendment where
  extent : Extent → Extent
  /-- What becomes of the constant at a place. -/
  constant : Extent → UInt64 → UInt64

namespace Amendment

variable (μ : Amendment)

/-- A amended span. -/
def span (s : Span) : Span :=
  ⟨μ.extent s.first, μ.extent s.main, μ.extent s.last⟩

mutual

/-- A amended expression. A constant is known by the token that names it, not by brackets around. -/
def expr : Expr → Expr
  | .uint value s => .uint (μ.constant s.main value) (μ.span s)
  | .bytes value s => .bytes value (μ.span s)
  | .unary op operand s => .unary op (expr operand) (μ.span s)
  | .binary op left right s => .binary op (expr left) (expr right) (μ.span s)
  | .call callee args s => .call callee (exprs args) (μ.span s)
  | .var v => .var (place v)

/-- Several amended expressions. -/
def exprs : List Expr → List Expr
  | [] => []
  | e :: es => expr e :: exprs es

/-- A amended place. -/
def place : Variable → Variable
  | .name n s => .name n (μ.span s)
  | .index base i s => .index (place base) (expr i) (μ.span s)
  | .member owner m s => .member (place owner) m (μ.span s)

end

mutual

/-- A amended statement. -/
def stmt : Stmt → Stmt
  | .ifElse c t none s => .ifElse (μ.expr c) (block t) none (μ.span s)
  | .ifElse c t (some e) s => .ifElse (μ.expr c) (block t) (some (block e)) (μ.span s)
  | .whileDo c b s => .whileDo (μ.expr c) (block b) (μ.span s)
  | .doWhile b c s => .doWhile (block b) (μ.expr c) (μ.span s)
  | .switch e cs none s => .switch (μ.expr e) (cases cs) none (μ.span s)
  | .switch e cs (some d) s => .switch (μ.expr e) (cases cs) (some (block d)) (μ.span s)
  | .leave kind value s => .leave kind (value.map μ.expr) (μ.span s)
  | .expr e => .expr (μ.expr e)

/-- Several amended statements. -/
def stmts : List Stmt → List Stmt
  | [] => []
  | s :: ss => stmt s :: stmts ss

/-- A amended block. -/
def block : Block → Block
  | ⟨ss, s⟩ => ⟨stmts ss, μ.span s⟩

/-- Several amended cases. -/
def cases : List Case → List Case
  | [] => []
  | ⟨values, b, s⟩ :: cs => ⟨values.map μ.expr, block b, μ.span s⟩ :: cases cs

end

/-- A amended case. -/
def case (c : Case) : Case :=
  ⟨c.values.map μ.expr, μ.block c.block, μ.span c.span⟩

/-- A amended function. -/
def function (f : Function) : Function :=
  ⟨f.name, f.params, μ.block f.body, μ.span f.span⟩

@[simp] theorem exprs_eq (es : List Expr) : μ.exprs es = es.map μ.expr := by
  induction es with
  | nil => rfl
  | cons e es ih => rw [exprs, ih, List.map_cons]

@[simp] theorem stmts_eq (ss : List Stmt) : μ.stmts ss = ss.map μ.stmt := by
  induction ss with
  | nil => rfl
  | cons s ss ih => rw [stmts, ih, List.map_cons]

@[simp] theorem cases_eq (cs : List Case) : μ.cases cs = cs.map μ.case := by
  induction cs with
  | nil => rfl
  | cons c cs ih =>
    cases c
    rw [cases, ih, List.map_cons, case]

theorem block_eq (b : Block) : μ.block b = ⟨b.stmts.map μ.stmt, μ.span b.span⟩ := by
  cases b
  rw [block, stmts_eq]

@[simp] theorem span_place (v : Variable) : (μ.place v).span = μ.span v.span := by
  cases v <;> rfl

@[simp] theorem span_expr (e : Expr) : (μ.expr e).span = μ.span e.span := by
  cases e with
  | var v => exact μ.span_place v
  | _ => rfl

@[simp] theorem span_block (b : Block) : (μ.block b).span = μ.span b.span := by
  cases b
  rfl

@[simp] theorem span_stmt (s : Stmt) : (μ.stmt s).span = μ.span s.span := by
  cases s with
  | ifElse _ _ e _ => cases e <;> rfl
  | switch _ _ d _ => cases d <;> rfl
  | expr e => exact μ.span_expr e
  | _ => rfl

/-- Brackets around an expression leave the token that names it. -/
theorem withSpan_expr (e : Expr) (first last : Extent) :
    (μ.expr e).withSpan ⟨μ.extent first, (μ.span e.span).main, μ.extent last⟩ =
      μ.expr (e.withSpan ⟨first, e.span.main, last⟩) := by
  cases e with
  | var v => cases v <;> rfl
  | _ => rfl

/-! ## Nodes -/

/-- A amended node. -/
def node : Node → Node
  | .program p => .program ⟨p.functions.map μ.function, μ.span p.span⟩
  | .function f => .function (μ.function f)
  | .block b => .block (μ.block b)
  | .stmt s => .stmt (μ.stmt s)
  | .case c => .case (μ.case c)
  | .expr e => .expr (μ.expr e)
  | .place v => .place (μ.place v)

theorem children_node (n : Node) : (μ.node n).children = n.children.map μ.node := by
  cases n with
  | program p => simp [node, Node.children, Function.comp_def]
  | function f => rfl
  | block b =>
    rw [node, block_eq]
    simp [node, Node.children, Function.comp_def]
  | stmt s =>
    cases s with
    | ifElse c t e s => cases e <;> rfl
    | whileDo => rfl
    | doWhile => rfl
    | switch e cs d s =>
      cases d <;>
        simp [node, Node.children, Node.ofStmt, Amendment.stmt, Function.comp_def]
    | leave kind value s => cases value <;> rfl
    | expr e => rfl
  | case c => simp [node, Node.children, case, Function.comp_def]
  | expr e =>
    cases e with
    | call f args s => simp [node, Node.children, Node.ofExpr, Amendment.expr, Function.comp_def]
    | _ => rfl
  | place v => cases v <;> rfl

end Amendment

end ContractCompiler
