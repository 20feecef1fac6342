import ContractCompiler.Syntax.Run
import ContractCompiler.Syntax.Tree

/-!
# Reading expressions

A run is cut at the operators of the loosest level that occurs in it outside brackets; the
pieces are read with the levels that are left, and joined from the level's side. A piece
without operators is an *atom*: a literal, a bracket, a unary operator before an atom, or a
place or call.

What stands inside an atom is read one level of nesting deeper, and the number of levels that
are left is what the readers recurse on.
-/

namespace ContractCompiler

/-- Reads an atom from its first token and the tokens after it. The last argument is the
token after the run. -/
abbrev AtomReader := Token → List Token → Option Token → Except SyntaxFault Expr

/-- Reads a run. The last argument is the token after the run. -/
abbrev RunReader := List Token → Option Token → Except SyntaxFault Expr

/-! ## Operators -/

namespace Level

/-- The operator of a level that a symbol is. -/
def operator? (l : Level) (s : Symbol) : Option BinaryOperator :=
  (BinaryOperator.ofSymbol? s).filter (l.operators.contains ·)

end Level

/-- An operator between two expressions. -/
def joinAt (left : Expr) (t : Token) (op : BinaryOperator) (right : Expr) : Expr :=
  .binary op left right ⟨left.span.first, t.extent, right.span.last⟩

/-- Joins operands from the left: `left` and the operator after it, then operands with the
operators after them, then the last operand. -/
def joinLeft (left : Expr) (t : Token) (op : BinaryOperator) :
    List (Expr × Token × BinaryOperator) → Expr → Expr
  | [], last => joinAt left t op last
  | (e, t', op') :: rest, last => joinLeft (joinAt left t op e) t' op' rest last

/-- Joins operands, each with the operator after it, and the last operand. -/
def Assoc.join : Assoc → List (Expr × Token × BinaryOperator) → Expr → Expr
  | .left, [], last => last
  | .left, (e, t, op) :: rest, last => joinLeft e t op rest last
  | .right, parts, last => parts.foldr (fun (e, t, op) right => joinAt e t op right) last

/-- Reads a run with the operators of some levels, loosest first. -/
def readLevels (atom : AtomReader) : List Level → RunReader
  | [], [], next => .error (.unexpected .expression next)
  | [], t :: ts, next => atom t ts next
  | l :: ls, run, next =>
    match Run.split l.operator? run with
    | ([], _) => readLevels atom ls run next
    | (parts, last) => do
      let parts ← parts.mapM fun (piece, t, op) => do
        return (← readLevels atom ls piece (some t), t, op)
      return l.assoc.join parts (← readLevels atom ls last next)

/-! ## Atoms -/

/-- The readers for one level of nesting deeper. -/
structure Deeper where
  run : RunReader
  atom : AtomReader

/-- Nothing may follow a finished atom. -/
def expectEnd : List Token → Except SyntaxFault Unit
  | [] => .ok ()
  | t :: _ => .error (.unexpected .operator (some t))

/-- The bracket opened right before some tokens, in a run that is followed by `next`. -/
def closeBracket (toks : List Token) (next : Option Token) : Except SyntaxFault Run.Bracket :=
  match Run.close? toks with
  | some b => .ok b
  | none => .error (.unexpected .closingBracket next)

/-- The value of a number token, if it is one. -/
def Token.number? (t : Token) : Option Nat :=
  match t.lexeme with
  | .number radix digits => some (radix.value digits.toList)
  | _ => none

/-- Reads a list of bytes up to the token that closes it, onto `acc`. -/
def readBytes (closer : Token) : List Token → (acc : List UInt8) →
    Except SyntaxFault (List UInt8)
  | [], _ => .error (.unexpected .byteValue (some closer))
  | t :: ts, acc =>
    match t.number? with
    | none => .error (.unexpected .byteValue (some t))
    | some n =>
      if n < 256 then
        let acc := UInt8.ofNat n :: acc
        match ts with
        | [] => .ok acc.reverse
        | c :: ts =>
          if c.isSymbol .comma then readBytes closer ts acc
          else .error (.unexpected .commaOrBracket (some c))
      else .error (.unexpected .byteInRange (some t))

/-- Reads the arguments of a call up to the token that closes them. -/
def readArguments (run : RunReader) (closer : Token) : List Token →
    Except SyntaxFault (List Expr)
  | [] => .ok []
  | toks => do
    let (pieces, last) := Run.split (fun s => if s = .comma then some () else none) toks
    let args ← pieces.mapM fun (piece, t, _) => run piece (some t)
    return args ++ [← run last (some closer)]

/-- Reads what follows a place: indexes and members, or the arguments of a call if the place
is a name. `first` is the token the place starts with. -/
def readChain (deeper : Except SyntaxFault Deeper) (first : Token) (next : Option Token)
    (place : Variable) (toks : List Token) : Except SyntaxFault Expr :=
  match toks with
  | [] => .ok (.var place)
  | t :: ts =>
    if t.isSymbol .lparen then do
      let b ← closeBracket ts next
      match place with
      | .name callee _ =>
        let args ← readArguments (← deeper).run b.closer b.inner
        expectEnd b.rest
        return .call callee args ⟨first.extent, t.extent, b.closer.extent⟩
      | _ => .error (.unexpected .operator (some t))
    else if t.isSymbol .lbracket then
      match h : Run.close? ts with
      | none => .error (.unexpected .closingBracket next)
      | some b => do
        have := Run.length_closeFrom_lt h
        let index ← (← deeper).run b.inner (some b.closer)
        let span := ⟨first.extent, t.extent, b.closer.extent⟩
        readChain deeper first next (.index place index span) b.rest
    else if t.isSymbol .dot then
      match ts with
      | [] => .error (.unexpected .memberName next)
      | m :: ts =>
        match m.lexeme with
        | .identifier member =>
          let span := ⟨first.extent, t.extent, m.extent⟩
          readChain deeper first next (.member place member span) ts
        | _ => .error (.unexpected .memberName (some m))
    else .error (.unexpected .operator (some t))
termination_by toks.length

/-- Reading what follows a place, one step at a time. -/
theorem readChain_eq (deeper : Except SyntaxFault Deeper) (first : Token) (next : Option Token)
    (place : Variable) (toks : List Token) :
    readChain deeper first next place toks =
      match toks with
      | [] => .ok (.var place)
      | t :: ts =>
        if t.isSymbol .lparen then do
          let b ← closeBracket ts next
          match place with
          | .name callee _ =>
            let args ← readArguments (← deeper).run b.closer b.inner
            expectEnd b.rest
            return .call callee args ⟨first.extent, t.extent, b.closer.extent⟩
          | _ => .error (.unexpected .operator (some t))
        else if t.isSymbol .lbracket then do
          let b ← closeBracket ts next
          let index ← (← deeper).run b.inner (some b.closer)
          let span := ⟨first.extent, t.extent, b.closer.extent⟩
          readChain deeper first next (.index place index span) b.rest
        else if t.isSymbol .dot then
          match ts with
          | [] => .error (.unexpected .memberName next)
          | m :: ts =>
            match m.lexeme with
            | .identifier member =>
              let span := ⟨first.extent, t.extent, m.extent⟩
              readChain deeper first next (.member place member span) ts
            | _ => .error (.unexpected .memberName (some m))
        else .error (.unexpected .operator (some t)) := by
  rw [readChain.eq_def]
  cases toks with
  | nil => rfl
  | cons t ts =>
    dsimp only
    split
    · rfl
    split
    · unfold closeBracket
      split
      case h_1 h => rw [h]; rfl
      case h_2 b h => rw [h]; rfl
    · rfl

/-- Reads an atom, given the readers for what stands inside it. -/
def readAtom (deeper : Except SyntaxFault Deeper) : AtomReader := fun t ts next =>
  match t.lexeme with
  | .symbol .lparen => do
    let b ← closeBracket ts next
    expectEnd b.rest
    let e ← (← deeper).run b.inner (some b.closer)
    return e.withSpan ⟨t.extent, e.span.main, b.closer.extent⟩
  | .symbol .lbracket => do
    let b ← closeBracket ts next
    expectEnd b.rest
    let value ← readBytes b.closer b.inner []
    return .bytes value ⟨t.extent, t.extent, b.closer.extent⟩
  | .symbol s =>
    match UnaryOperator.ofSymbol? s, ts with
    | none, _ => .error (.unexpected .expression (some t))
    | some _, [] => .error (.unexpected .expression next)
    | some op, u :: us => do
      let operand ← (← deeper).atom u us next
      return .unary op operand ⟨t.extent, t.extent, operand.span.last⟩
  | .number radix digits => do
    expectEnd ts
    let n := radix.value digits.toList
    if n < UInt64.size then return .uint (UInt64.ofNat n) (.single t.extent)
    else .error (.unexpected .wordLiteral (some t))
  | .string body => do
    expectEnd ts
    return .bytes (Text.utf8 body.toList) (.single t.extent)
  | .identifier name =>
    if isKeyword name && name != "true" && name != "false" then
      .error (.unexpected .expression (some t))
    else readChain deeper t next (.name name (.single t.extent)) ts
  | .comment _ => .error (.unexpected .expression (some t))

/-- Reads an atom with `depth` levels of nesting left. -/
def readAtomAt : (depth : Nat) → AtomReader
  | 0 => readAtom (.error .tooDeep)
  | depth + 1 =>
    readAtom (.ok ⟨readLevels (readAtomAt depth) Level.all, readAtomAt depth⟩)

/-- Reads a run with `depth` levels of nesting left. -/
def readRun (depth : Nat) : RunReader :=
  readLevels (readAtomAt depth) Level.all

/-- Reads the expression at the front of some tokens. -/
def readExpr (depth : Nat) (toks : List Token) : Except SyntaxFault (Expr × List Token) := do
  let (run, rest) ← Run.collect toks
  return (← readRun depth run rest.head?, rest)

end ContractCompiler
