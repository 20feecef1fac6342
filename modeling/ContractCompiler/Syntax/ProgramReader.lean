import ContractCompiler.Syntax.ExprReader

/-!
# Reading programs

Statements and functions from tokens. A block, or a statement in place of a block, is one
level of nesting deeper than the statement it belongs to, and the number of levels that are
left is what the readers recurse on.

A list of statements, cases, values or functions is read with `fuel`, a bound on its length.
Each of them takes at least one token, so the number of tokens of the source is enough.
-/

namespace ContractCompiler

/-- Reads something off the front of some tokens and gives the tokens after it. -/
abbrev Reader (α : Type) := List Token → Except SyntaxFault (α × List Token)

/-! ## Single tokens -/

/-- Reads the symbol `s`. -/
def readSymbol (s : Symbol) : Reader Token
  | [] => .error (.unexpected (.symbol s) none)
  | t :: ts => if t.isSymbol s then .ok (t, ts) else .error (.unexpected (.symbol s) (some t))

/-- Reads the keyword `word`. -/
def readWord (word : String) : Reader Token
  | [] => .error (.unexpected (.keyword word) none)
  | t :: ts =>
    if t.isIdentifier word then .ok (t, ts) else .error (.unexpected (.keyword word) (some t))

/-- The name that a token gives to something, if it may be given. -/
def Token.definableName? (t : Token) : Option String :=
  match t.lexeme with
  | .identifier name =>
    if isKeyword name || reservedNames.contains name then none else some name
  | _ => none

/-- Reads a name that is defined here. -/
def readName (what : Expected) : Reader (String × Token)
  | [] => .error (.unexpected what none)
  | t :: ts =>
    match t.definableName? with
    | some name => .ok ((name, t), ts)
    | none => .error (.unexpected what (some t))

/-! ## Statements -/

/-- Reads an expression in brackets. -/
def readCondition (expr : Reader Expr) : Reader Expr := fun toks => do
  let (_, toks) ← readSymbol .lparen toks
  let (e, toks) ← expr toks
  let (_, toks) ← readSymbol .rparen toks
  return (e, toks)

/-- Reads statements up to the brace that closes their block, onto `acc`. -/
def readStmts (stmt : Reader Stmt) : (fuel : Nat) → List Token → (acc : List Stmt) →
    Except SyntaxFault ((List Stmt × Token) × List Token)
  | _, [], _ => .error (.unexpected (.symbol .rbrace) none)
  | 0, t :: _, _ => .error (.unexpected .statement (some t))
  | fuel + 1, t :: ts, acc =>
    if t.isSymbol .rbrace then .ok ((acc.reverse, t), ts)
    else
      match stmt (t :: ts) with
      | .error e => .error e
      | .ok (s, rest) => readStmts stmt fuel rest (s :: acc)

/-- Reads a block in braces. -/
def readBlock (fuel : Nat) (deeper : Except SyntaxFault (Reader Stmt)) : Reader Block :=
  fun toks => do
    let stmt ← deeper
    let (opener, toks) ← readSymbol .lbrace toks
    let ((stmts, closer), toks) ← readStmts stmt fuel toks []
    return (⟨stmts, ⟨opener.extent, opener.extent, closer.extent⟩⟩, toks)

/-- Reads a block in braces, or a single statement in its place. -/
def readBranch (fuel : Nat) (deeper : Except SyntaxFault (Reader Stmt)) :
    Reader Block := fun toks =>
  if toks.head?.any (·.isSymbol .lbrace) then readBlock fuel deeper toks
  else do
    let stmt ← deeper
    let (s, toks) ← stmt toks
    return (⟨[s], s.span⟩, toks)

/-- Reads the values of a case after the first one, onto `acc`. -/
def readValues (expr : Reader Expr) : (fuel : Nat) → List Token → (acc : List Expr) →
    Except SyntaxFault (List Expr × List Token)
  | _, [], acc => .ok (acc.reverse, [])
  | 0, t :: _, _ => .error (.unexpected .expression (some t))
  | fuel + 1, t :: ts, acc =>
    if t.isSymbol .comma then
      match expr ts with
      | .error e => .error e
      | .ok (e, rest) => readValues expr fuel rest (e :: acc)
    else .ok (acc.reverse, t :: ts)

/-- Reads one case after its keyword `t`. -/
def readCase (fuel : Nat) (expr : Reader Expr) (block : Reader Block) (t : Token) : Reader Case :=
  fun toks => do
    let (value, toks) ← expr toks
    let (values, toks) ← readValues expr fuel toks [value]
    let (body, toks) ← block toks
    return (⟨values, body, ⟨t.extent, t.extent, body.span.last⟩⟩, toks)

/-- The cases of a switch, what is done in all other cases, and the brace at the end. -/
structure SwitchBody where
  cases : List Case
  otherwise : Option Block
  closer : Token

/-- Reads the cases of a switch up to its closing brace, onto `acc`. -/
def readCases (expr : Reader Expr) (block : Reader Block) : (fuel : Nat) → List Token →
    (acc : List Case) → Except SyntaxFault (SwitchBody × List Token)
  | _, [], _ => .error (.unexpected .caseOrDefault none)
  | 0, t :: _, _ => .error (.unexpected .caseOrDefault (some t))
  | fuel + 1, t :: ts, acc =>
    if t.isSymbol .rbrace then .ok (⟨acc.reverse, none, t⟩, ts)
    else if t.isIdentifier "case" then
      match readCase fuel expr block t ts with
      | .error e => .error e
      | .ok (c, rest) => readCases expr block fuel rest (c :: acc)
    else if t.isIdentifier "default" then do
      let (body, rest) ← block ts
      let (closer, rest) ← readSymbol .rbrace rest
      return (⟨acc.reverse, some body, closer⟩, rest)
    else .error (.unexpected .caseOrDefault (some t))

/-- Reads a conditional statement after its keyword `t`. -/
def readIf (expr : Reader Expr) (branch : Reader Block) (t : Token) : Reader Stmt := fun toks => do
  let (condition, toks) ← readCondition expr toks
  let (thenBlock, toks) ← branch toks
  match toks with
  | e :: rest =>
    if e.isIdentifier "else" then
      let (elseBlock, toks) ← branch rest
      return (.ifElse condition thenBlock (some elseBlock)
        ⟨t.extent, t.extent, elseBlock.span.last⟩, toks)
    else
      return (.ifElse condition thenBlock none
        ⟨t.extent, t.extent, thenBlock.span.last⟩, toks)
  | [] =>
    return (.ifElse condition thenBlock none
      ⟨t.extent, t.extent, thenBlock.span.last⟩, toks)

/-- Reads a loop that tests first, after its keyword `t`. -/
def readWhile (expr : Reader Expr) (branch : Reader Block) (t : Token) :
    Reader Stmt := fun toks => do
  let (condition, toks) ← readCondition expr toks
  let (body, toks) ← branch toks
  return (.whileDo condition body ⟨t.extent, t.extent, body.span.last⟩, toks)

/-- Reads a loop that tests last, after its keyword `t`. -/
def readDo (expr : Reader Expr) (block : Reader Block) (t : Token) : Reader Stmt := fun toks => do
  let (body, toks) ← block toks
  let (_, toks) ← readWord "while" toks
  let (condition, toks) ← readCondition expr toks
  let (semicolon, toks) ← readSymbol .semicolon toks
  return (.doWhile body condition ⟨t.extent, t.extent, semicolon.extent⟩, toks)

/-- Reads a switch after its keyword `t`. -/
def readSwitch (fuel : Nat) (expr : Reader Expr) (block : Reader Block) (t : Token) : Reader Stmt :=
  fun toks => do
    let (tested, toks) ← readCondition expr toks
    let (_, toks) ← readSymbol .lbrace toks
    let (body, toks) ← readCases expr block fuel toks []
    return (.switch tested body.cases body.otherwise
      ⟨t.extent, t.extent, body.closer.extent⟩, toks)

/-- Reads a statement that leaves a function, after its keyword `t`. Only `return` may stand
without a value. -/
def readLeave (expr : Reader Expr) (kind : Leaving) (t : Token) : Reader Stmt := fun toks => do
  if kind = .returning ∧ toks.head?.any (·.isSymbol .semicolon) = true then
    let (semicolon, toks) ← readSymbol .semicolon toks
    return (.leave kind none ⟨t.extent, t.extent, semicolon.extent⟩, toks)
  else
    let (value, toks) ← expr toks
    let (semicolon, toks) ← readSymbol .semicolon toks
    return (.leave kind (some value) ⟨t.extent, t.extent, semicolon.extent⟩, toks)

/-- Reads an expression that is a statement. -/
def readExprStmt (expr : Reader Expr) : Reader Stmt := fun toks => do
  let (e, toks) ← expr toks
  let (_, toks) ← readSymbol .semicolon toks
  return (.expr e, toks)

/-- Reads a statement, given a reader for expressions and one for the statements inside it. -/
def readStmt (fuel : Nat) (expr : Reader Expr) (deeper : Except SyntaxFault (Reader Stmt)) :
    Reader Stmt
  | [] => .error (.unexpected .statement none)
  | t :: ts =>
    match t.lexeme with
    | .identifier "if" => readIf expr (readBranch fuel deeper) t ts
    | .identifier "while" => readWhile expr (readBranch fuel deeper) t ts
    | .identifier "do" => readDo expr (readBlock fuel deeper) t ts
    | .identifier "switch" => readSwitch fuel expr (readBlock fuel deeper) t ts
    | .identifier "return" => readLeave expr .returning t ts
    | .identifier "throw" => readLeave expr .throwing t ts
    | .identifier "exit" => readLeave expr .exiting t ts
    | .identifier "for" => .error (.unsupported "for" t.offset)
    | .identifier "break" => .error (.unsupported "break" t.offset)
    | .identifier "continue" => .error (.unsupported "continue" t.offset)
    | _ => readExprStmt expr (t :: ts)

/-- Reads a statement with `depth` levels of nesting left. -/
def readStmtAt (fuel : Nat) : (depth : Nat) → Reader Stmt
  | 0 => readStmt fuel (readExpr 0) (.error .tooDeep)
  | depth + 1 => readStmt fuel (readExpr (depth + 1)) (.ok (readStmtAt fuel depth))

/-! ## Functions -/

/-- Reads the parameters of a function, of which there is at least one, onto `acc`. -/
def readParams : List Token → (acc : List String) →
    Except SyntaxFault (List String × List Token)
  | [], _ => .error (.unexpected .parameterName none)
  | t :: ts, acc =>
    match t.definableName? with
    | none => .error (.unexpected .parameterName (some t))
    | some name =>
      match ts with
      | [] => .ok ((name :: acc).reverse, [])
      | c :: rest =>
        if c.isSymbol .comma then readParams rest (name :: acc)
        else .ok ((name :: acc).reverse, c :: rest)

/-- Reads the parameters of a function, if there are any. -/
def readParamList : Reader (List String) := fun toks =>
  if toks.head?.any (·.isSymbol .rparen) then .ok ([], toks) else readParams toks []

/-- Reads a function. Its body is one level deep already. -/
def readFunction (fuel : Nat) : Reader Function := fun toks => do
  let (t, toks) ← readWord "def" toks
  let ((name, nameToken), toks) ← readName .functionName toks
  let (_, toks) ← readSymbol .lparen toks
  let (params, toks) ← readParamList toks
  let (_, toks) ← readSymbol .rparen toks
  let (body, toks) ← readBlock fuel (.ok (readStmtAt fuel (maxDepth - 1))) toks
  return (⟨name, params, body, ⟨t.extent, nameToken.extent, body.span.last⟩⟩, toks)

/-- Reads functions until no tokens are left, onto `acc`. -/
def readFunctions (function : Reader Function) : (fuel : Nat) → List Token →
    (acc : List Function) → Except SyntaxFault (List Function)
  | _, [], acc => .ok acc.reverse
  | 0, t :: _, _ => .error (.unexpected (.keyword "def") (some t))
  | fuel + 1, t :: ts, acc =>
    match function (t :: ts) with
    | .error e => .error e
    | .ok (f, rest) => readFunctions function fuel rest (f :: acc)

/-- The span of a whole source. -/
def Program.spanOf : List Token → Span
  | [] => .empty
  | t :: ts => ⟨t.extent, t.extent, ((t :: ts).getLast (by simp)).extent⟩

/-- The program that some tokens form. Comments do not count. -/
def Program.ofTokens (tokens : List Token) : Except SyntaxFault Program := do
  let toks := tokens.filter (!·.isComment)
  let functions ← readFunctions (readFunction toks.length) toks.length toks []
  return ⟨functions, spanOf toks⟩

end ContractCompiler
