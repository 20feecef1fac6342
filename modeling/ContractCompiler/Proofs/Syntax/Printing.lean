import ContractCompiler.Proofs.Syntax.Descendants
import ContractCompiler.Proofs.Syntax.Grammar
import ContractCompiler.Proofs.Token.Spelling
import ContractCompiler.Syntax.Printer

/-!
# Printing programs

Whole programs as text: expressions as they are displayed, and braces around every block.
-/

namespace ContractCompiler

/-! ## Texts -/

mutual

/-- A statement as text. -/
def Stmt.print : Stmt → String
  | .ifElse condition thenBlock none _ =>
    "if (" ++ condition.display ++ ") " ++ thenBlock.print
  | .ifElse condition thenBlock (some elseBlock) _ =>
    "if (" ++ condition.display ++ ") " ++ thenBlock.print ++ " else " ++ elseBlock.print
  | .whileDo condition body _ => "while (" ++ condition.display ++ ") " ++ body.print
  | .doWhile body condition _ => "do " ++ body.print ++ " while (" ++ condition.display ++ ");"
  | .switch tested cases none _ =>
    "switch (" ++ tested.display ++ ") \x7b" ++ Case.printList cases ++ " \x7d"
  | .switch tested cases (some otherwise) _ =>
    "switch (" ++ tested.display ++ ") \x7b" ++ Case.printList cases ++ " default " ++
      otherwise.print ++ " \x7d"
  | .leave kind none _ => kind.word ++ ";"
  | .leave kind (some value) _ => kind.word ++ " " ++ value.display ++ ";"
  | .expr e => e.display ++ ";"

/-- Several statements as text, each after a blank. -/
def Stmt.printList : List Stmt → String
  | [] => ""
  | s :: ss => " " ++ s.print ++ Stmt.printList ss

/-- A block as text. -/
def Block.print : Block → String
  | ⟨stmts, _⟩ => "\x7b" ++ Stmt.printList stmts ++ " \x7d"

/-- Several cases as text, each after a blank. -/
def Case.printList : List Case → String
  | [] => ""
  | ⟨values, block, _⟩ :: cs =>
    " case " ++ ", ".intercalate (Expr.displayList values) ++ " " ++ block.print ++
      Case.printList cs

end

/-- A function as text. -/
def Function.print (f : Function) : String :=
  "def " ++ f.display ++ " " ++ f.body.print

/-- Functions as text, each on a line of its own. -/
def Function.printList : List Function → String
  | [] => ""
  | f :: fs => f.print ++ "\n" ++ Function.printList fs

/-- A program as text. -/
def Program.print (p : Program) : String :=
  Function.printList p.functions

/-! ## Lexemes -/

/-- The lexeme of a number. Zero is octal. -/
def Lexeme.numeral (n : Nat) : Lexeme :=
  if n = 0 then .number .octal "0" else .number .decimal (toString n)

/-- Several pieces with commas between them. -/
def Lexeme.separated (pieces : List (List Lexeme)) : List Lexeme :=
  [.symbol .comma].intercalate pieces

mutual

/-- The lexemes of an expression. -/
def Expr.lexemes : Expr → List Lexeme
  | .uint value _ => [.numeral value.toNat]
  | .bytes value _ => [.string (String.ofList (Text.decodeLossy value))]
  | .unary op operand _ => .symbol op.symbol :: operand.lexemes
  | .binary op left right _ =>
    .symbol .lparen :: (left.lexemes ++ .symbol op.symbol :: (right.lexemes ++ [.symbol .rparen]))
  | .call callee args _ =>
    .identifier callee :: .symbol .lparen ::
      (Lexeme.separated (Expr.lexemesList args) ++ [.symbol .rparen])
  | .var place => place.lexemes

/-- The lexemes of several expressions. -/
def Expr.lexemesList : List Expr → List (List Lexeme)
  | [] => []
  | e :: es => e.lexemes :: Expr.lexemesList es

/-- The lexemes of a place. -/
def Variable.lexemes : Variable → List Lexeme
  | .name name _ => [.identifier name]
  | .index base index _ =>
    base.lexemes ++ .symbol .lbracket :: (index.lexemes ++ [.symbol .rbracket])
  | .member owner member _ => owner.lexemes ++ [.symbol .dot, .identifier member]

end

/-- The lexemes of an expression in brackets. -/
def Expr.conditionLexemes (e : Expr) : List Lexeme :=
  .symbol .lparen :: (e.lexemes ++ [.symbol .rparen])

mutual

/-- The lexemes of a statement. -/
def Stmt.lexemes : Stmt → List Lexeme
  | .ifElse condition thenBlock none _ =>
    .identifier "if" :: (condition.conditionLexemes ++ thenBlock.lexemes)
  | .ifElse condition thenBlock (some elseBlock) _ =>
    .identifier "if" :: (condition.conditionLexemes ++ (thenBlock.lexemes ++
      .identifier "else" :: elseBlock.lexemes))
  | .whileDo condition body _ => .identifier "while" :: (condition.conditionLexemes ++ body.lexemes)
  | .doWhile body condition _ =>
    .identifier "do" :: (body.lexemes ++ .identifier "while" ::
      (condition.conditionLexemes ++ [.symbol .semicolon]))
  | .switch tested cases none _ =>
    .identifier "switch" :: (tested.conditionLexemes ++ .symbol .lbrace ::
      (Case.lexemesList cases ++ [.symbol .rbrace]))
  | .switch tested cases (some otherwise) _ =>
    .identifier "switch" :: (tested.conditionLexemes ++ .symbol .lbrace ::
      (Case.lexemesList cases ++ .identifier "default" ::
        (otherwise.lexemes ++ [.symbol .rbrace])))
  | .leave kind none _ => [.identifier kind.word, .symbol .semicolon]
  | .leave kind (some value) _ =>
    .identifier kind.word :: (value.lexemes ++ [.symbol .semicolon])
  | .expr e => e.lexemes ++ [.symbol .semicolon]

/-- The lexemes of several statements. -/
def Stmt.lexemesList : List Stmt → List Lexeme
  | [] => []
  | s :: ss => s.lexemes ++ Stmt.lexemesList ss

/-- The lexemes of a block. -/
def Block.lexemes : Block → List Lexeme
  | ⟨stmts, _⟩ => .symbol .lbrace :: (Stmt.lexemesList stmts ++ [.symbol .rbrace])

/-- The lexemes of several cases. -/
def Case.lexemesList : List Case → List Lexeme
  | [] => []
  | ⟨values, block, _⟩ :: cs =>
    .identifier "case" :: (Lexeme.separated (Expr.lexemesList values) ++
      (block.lexemes ++ Case.lexemesList cs))

end

/-- The lexemes of a function. -/
def Function.lexemes (f : Function) : List Lexeme :=
  .identifier "def" :: .identifier f.name :: .symbol .lparen ::
    (Lexeme.separated (f.params.map fun name => [.identifier name]) ++
      .symbol .rparen :: f.body.lexemes)

/-- The lexemes of a program. -/
def Program.lexemes (p : Program) : List Lexeme :=
  p.functions.flatMap Function.lexemes

/-! ## Nesting -/

mutual

/-- How many brackets, unary operators, argument lists and indexes of an expression stand inside
each other. -/
def Expr.nesting : Expr → Nat
  | .uint _ _ => 0
  | .bytes _ _ => 0
  | .unary _ operand _ => operand.nesting + 1
  | .binary _ left right _ => max left.nesting right.nesting + 1
  | .call _ args _ => Expr.nestingList args + 1
  | .var place => place.nesting

/-- The deepest nesting of several expressions. -/
def Expr.nestingList : List Expr → Nat
  | [] => 0
  | e :: es => max e.nesting (Expr.nestingList es)

/-- How many brackets of a place stand inside each other. -/
def Variable.nesting : Variable → Nat
  | .name _ _ => 0
  | .index base index _ => max base.nesting (index.nesting + 1)
  | .member owner _ _ => owner.nesting

end

mutual

/-- How many blocks and brackets of a statement stand inside each other. -/
def Stmt.nesting : Stmt → Nat
  | .ifElse condition thenBlock none _ => max condition.nesting thenBlock.nesting
  | .ifElse condition thenBlock (some elseBlock) _ =>
    max condition.nesting (max thenBlock.nesting elseBlock.nesting)
  | .whileDo condition body _ => max condition.nesting body.nesting
  | .doWhile body condition _ => max body.nesting condition.nesting
  | .switch tested cases none _ => max tested.nesting (Case.nestingList cases)
  | .switch tested cases (some otherwise) _ =>
    max tested.nesting (max (Case.nestingList cases) otherwise.nesting)
  | .leave _ none _ => 0
  | .leave _ (some value) _ => value.nesting
  | .expr e => e.nesting

/-- The deepest nesting of several statements. -/
def Stmt.nestingList : List Stmt → Nat
  | [] => 0
  | s :: ss => max s.nesting (Stmt.nestingList ss)

/-- How many blocks and brackets of a block stand inside each other, with the block itself. -/
def Block.nesting : Block → Nat
  | ⟨stmts, _⟩ => Stmt.nestingList stmts + 1

/-- The deepest nesting of several cases. -/
def Case.nestingList : List Case → Nat
  | [] => 0
  | ⟨values, block, _⟩ :: cs =>
    max (Expr.nestingList values) (max block.nesting (Case.nestingList cs))

end

/-! ## Trees without places -/

mutual

/-- An expression without its places. -/
def Expr.bare : Expr → Expr
  | .uint value _ => .uint value default
  | .bytes value _ => .bytes value default
  | .unary op operand _ => .unary op operand.bare default
  | .binary op left right _ => .binary op left.bare right.bare default
  | .call callee args _ => .call callee (Expr.bareList args) default
  | .var place => .var place.bare

/-- Several expressions without their places. -/
def Expr.bareList : List Expr → List Expr
  | [] => []
  | e :: es => e.bare :: Expr.bareList es

/-- A place of the program without its places in the text. -/
def Variable.bare : Variable → Variable
  | .name name _ => .name name default
  | .index base index _ => .index base.bare index.bare default
  | .member owner member _ => .member owner.bare member default

end

mutual

/-- A statement without its places. -/
def Stmt.bare : Stmt → Stmt
  | .ifElse condition thenBlock none _ => .ifElse condition.bare thenBlock.bare none default
  | .ifElse condition thenBlock (some elseBlock) _ =>
    .ifElse condition.bare thenBlock.bare (some elseBlock.bare) default
  | .whileDo condition body _ => .whileDo condition.bare body.bare default
  | .doWhile body condition _ => .doWhile body.bare condition.bare default
  | .switch tested cases none _ => .switch tested.bare (Case.bareList cases) none default
  | .switch tested cases (some otherwise) _ =>
    .switch tested.bare (Case.bareList cases) (some otherwise.bare) default
  | .leave kind value _ => .leave kind (value.map Expr.bare) default
  | .expr e => .expr e.bare

/-- Several statements without their places. -/
def Stmt.bareList : List Stmt → List Stmt
  | [] => []
  | s :: ss => s.bare :: Stmt.bareList ss

/-- A block without its places. -/
def Block.bare : Block → Block
  | ⟨stmts, _⟩ => ⟨Stmt.bareList stmts, default⟩

/-- Several cases without their places. -/
def Case.bareList : List Case → List Case
  | [] => []
  | ⟨values, block, _⟩ :: cs => ⟨Expr.bareList values, block.bare, default⟩ :: Case.bareList cs

end

/-- A function without its places. -/
def Function.bare (f : Function) : Function :=
  ⟨f.name, f.params, f.body.bare, default⟩

/-- A program without its places. -/
def Program.bare (p : Program) : Program :=
  ⟨p.functions.map Function.bare, default⟩

theorem Expr.bareList_eq (es : List Expr) : Expr.bareList es = es.map Expr.bare := by
  induction es with
  | nil => rfl
  | cons e es ih => rw [bareList, ih, List.map_cons]

theorem Stmt.bareList_eq (ss : List Stmt) : Stmt.bareList ss = ss.map Stmt.bare := by
  induction ss with
  | nil => rfl
  | cons s ss ih => rw [bareList, ih, List.map_cons]

theorem Expr.bare_withSpan (e : Expr) (span : Span) : (e.withSpan span).bare = e.bare := by
  cases e with
  | var v => cases v <;> rfl
  | _ => rfl

/-! ## Trees that can be written -/

theorem Lexeme.isProper_identifier_iff {name : String} : (Lexeme.identifier name).IsProper ↔
    name.toList.head?.any isIdentStart = true ∧ name.toList.tail.all isIdentContinue = true := by
  constructor
  · rintro ⟨c, cs, hname, hc, hcs⟩
    rw [hname]
    exact ⟨hc, List.all_eq_true.2 hcs⟩
  · rintro ⟨hfirst, hothers⟩
    obtain ⟨c, hhead, hc⟩ := (Option.any_eq_true _ _).1 hfirst
    exact ⟨c, name.toList.tail, List.eq_cons_of_mem_head? hhead, hc, List.all_eq_true.1 hothers⟩

instance (name : String) : Decidable (Lexeme.identifier name).IsProper :=
  decidable_of_iff _ Lexeme.isProper_identifier_iff.symm

instance (name : String) : Decidable (IsReference name) :=
  inferInstanceAs (Decidable (isKeyword name = true → name = "true" ∨ name = "false"))

/-- Whether a name can be given to a function or a parameter. -/
def IsDefinable (name : String) : Prop :=
  (Lexeme.identifier name).IsProper ∧ isKeyword name = false ∧ name ∉ reservedNames

instance (name : String) : Decidable (IsDefinable name) :=
  inferInstanceAs (Decidable (_ ∧ _ ∧ _))

/-- What can be written at one node of a syntax tree: names are identifiers, those that are defined
or used are no keywords; bytes are the body of a string; a case has a value; only `return` can do
without one. -/
def Node.IsWritable : Node → Prop
  | function f => IsDefinable f.name ∧ ∀ name ∈ f.params, IsDefinable name
  | stmt (.leave kind none _) => kind = .returning
  | case c => c.values ≠ []
  | expr (.bytes value _) => ∃ body, value = Text.utf8 body ∧ isQuotable body = true
  | expr (.call callee _ _) => (Lexeme.identifier callee).IsProper ∧ IsReference callee
  | place (.name name _) => (Lexeme.identifier name).IsProper ∧ IsReference name
  | place (.member _ member _) => (Lexeme.identifier member).IsProper
  | _ => True

/-- Whether a syntax tree can be written. -/
def Node.Writable (n : Node) : Prop :=
  ∀ m ∈ n.descendants, m.IsWritable

namespace Node.Writable

variable {n c : Node}

theorem self (h : n.Writable) : n.IsWritable := by
  refine h n ?_
  rw [descendants_eq]
  exact List.mem_cons_self

theorem child (h : n.Writable) (hc : c ∈ n.children) : c.Writable := by
  intro m hm
  refine h m ?_
  rw [descendants_eq]
  exact List.mem_cons_of_mem _ (List.mem_flatMap.2 ⟨c, hc, hm⟩)

end Node.Writable

end ContractCompiler
