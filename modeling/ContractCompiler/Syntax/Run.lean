import ContractCompiler.Syntax.Fault

/-!
# Runs of tokens

An expression is first cut out of the tokens as a *run*, and then taken apart at the
symbols that stand outside all brackets.
-/

namespace ContractCompiler

/-- The symbol that closes what a symbol opens. -/
def Symbol.closer? : Symbol → Option Symbol
  | .lparen => some .rparen
  | .lbracket => some .rbracket
  | _ => none

namespace Run

/-- Whether a symbol ends an expression when it stands outside all brackets. -/
def isTerminator : Symbol → Bool
  | .comma | .semicolon | .rparen | .rbracket | .lbrace | .rbrace => true
  | _ => false

/-- Whether a symbol cannot stand inside a bracket other than to close it. -/
def endsBracket : Symbol → Bool
  | .rparen | .rbracket | .lbrace | .rbrace => true
  | _ => false

/-- The open brackets after a symbol that closes none of them. -/
def opened (s : Symbol) (closers : List Symbol) : List Symbol :=
  s.closer?.toList ++ closers

/-- The run at the front of some tokens, in reverse onto `acc`, and the tokens after it.
`closers` are the symbols that close the open brackets, innermost first. -/
def collectOnto : List Token → (closers : List Symbol) → (acc : List Token) →
    Except SyntaxFault (List Token × List Token)
  | [], [], acc => .ok (acc, [])
  | [], c :: _, _ => .error (.unexpected (.symbol c) none)
  | t :: ts, closers, acc =>
    match t.symbol?, closers with
    | none, _ => collectOnto ts closers (t :: acc)
    | some s, [] =>
      if isTerminator s then .ok (acc, t :: ts)
      else collectOnto ts (opened s []) (t :: acc)
    | some s, c :: outer =>
      if endsBracket s then
        if s = c then collectOnto ts outer (t :: acc)
        else .error (.unexpected (.symbol c) (some t))
      else collectOnto ts (opened s (c :: outer)) (t :: acc)

/-- The run at the front of some tokens, and the tokens after it. -/
def collect (toks : List Token) : Except SyntaxFault (List Token × List Token) := do
  let (acc, rest) ← collectOnto toks [] []
  return (acc.reverse, rest)

/-- A bracket: what stands in it, the token that closes it, and the tokens after it. -/
structure Bracket where
  inner : List Token
  closer : Token
  rest : List Token

/-- The bracket that was opened right before some tokens, where `depth` brackets were opened
inside it already and `acc` holds the tokens in it, newest first. -/
def closeFrom : List Token → (depth : Nat) → (acc : List Token) → Option Bracket
  | [], _, _ => none
  | t :: ts, depth, acc =>
    match t.symbol? with
    | none => closeFrom ts depth (t :: acc)
    | some s =>
      if s.isOpening then closeFrom ts (depth + 1) (t :: acc)
      else if s.isClosing then
        match depth with
        | 0 => some ⟨acc.reverse, t, ts⟩
        | depth + 1 => closeFrom ts depth (t :: acc)
      else closeFrom ts depth (t :: acc)

/-- The bracket that was opened right before some tokens. -/
def close? (toks : List Token) : Option Bracket :=
  closeFrom toks 0 []

/-- The brackets that are open after a symbol, if `depth` were open before it. -/
def depthAfter (depth : Nat) (s : Symbol) : Nat :=
  if s.isOpening then depth + 1
  else if s.isClosing then depth - 1
  else depth

/-- Cuts tokens at the separators that stand outside brackets. `depth` brackets are open,
`piece` holds the current piece and `done` the finished ones with the separators after
them, both newest first. -/
def splitFrom {β : Type} (separator? : Symbol → Option β) : List Token → (depth : Nat) →
    (piece : List Token) → (done : List (List Token × Token × β)) →
    List (List Token × Token × β) × List Token
  | [], _, piece, done => (done.reverse, piece.reverse)
  | t :: ts, depth, piece, done =>
    match t.symbol? with
    | none => splitFrom separator? ts depth (t :: piece) done
    | some s =>
      match depth, separator? s with
      | 0, some b => splitFrom separator? ts 0 [] ((piece.reverse, t, b) :: done)
      | depth, _ => splitFrom separator? ts (depthAfter depth s) (t :: piece) done

/-- The pieces of some tokens that are followed by a separator outside brackets, each with
its separator, and the last piece. -/
def split {β : Type} (separator? : Symbol → Option β) (toks : List Token) :
    List (List Token × Token × β) × List Token :=
  splitFrom separator? toks 0 [] []

/-- What follows a bracket is shorter than the tokens from its first token on. -/
theorem length_closeFrom_lt {toks acc : List Token} {depth : Nat} {b : Bracket}
    (h : closeFrom toks depth acc = some b) : b.rest.length < toks.length := by
  fun_induction closeFrom toks depth acc with
  | case1 => simp at h
  | case2 _ _ _ _ _ ih => have := ih h; simp; omega
  | case3 _ _ _ _ _ _ _ ih => have := ih h; simp; omega
  | case4 => simp only [Option.some.injEq] at h; subst h; simp
  | case5 _ _ _ _ _ _ _ _ ih => have := ih h; simp; omega
  | case6 _ _ _ _ _ _ _ _ ih => have := ih h; simp; omega

end Run

end ContractCompiler
