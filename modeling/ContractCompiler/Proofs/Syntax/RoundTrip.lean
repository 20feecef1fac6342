import ContractCompiler.Proofs.Syntax.Derivations
import ContractCompiler.Proofs.Syntax.PrintedText

/-!
# Printed programs are read again

The tokens of a printed expression are derived by the rules of the grammar, one rule for each node
of the tree. Statements are read one after the other, and each of them ends where the next one
starts.
-/

namespace ContractCompiler

/-! ## Expressions -/

theorem Radix.value_toDigits (n : Nat) : Radix.value .decimal (Nat.toDigits 10 n) = n := by
  have hfold : ∀ cs : List Char, (∀ c ∈ cs, c.isDigit = true) → ∀ m,
      cs.foldl (fun n c => n * 10 + digitValue c) m = Nat.ofDigitChars 10 cs m := by
    intro cs hcs
    induction cs with
    | nil => exact fun _ => rfl
    | cons c cs ih =>
      intro m
      rw [List.foldl_cons, ih fun d hd => hcs d (List.mem_cons_of_mem _ hd), digitValue,
        if_pos (hcs c List.mem_cons_self), Nat.mul_comm]
      rfl
  rw [Radix.value, Radix.base,
    hfold _ fun c => Nat.isDigit_of_mem_toDigits (by decide) (by decide),
    Nat.ofDigitChars_ten_toDigits]

theorem Token.number?_numeral {t : Token} {n : Nat} (h : t.lexeme = .numeral n) :
    t.number? = some n := by
  rw [Lexeme.numeral] at h
  split at h
  case isTrue hn =>
    rw [number?, h, hn]
    rfl
  case isFalse =>
    rw [number?, h]
    exact congrArg some (toList_toString n ▸ Radix.value_toDigits n)

namespace Derives

variable {e x y : Expr} {toks a b : List Token} {t : Token} {n m : Nat} {op : BinaryOperator}

/-- An atom is an expression. -/
theorem run_of_atom (h : Derives (.atom e) toks n) (ls : List Level) :
    Derives (.run ls e) toks n := by
  induction ls with
  | nil => exact .tightest h
  | cons l ls ih => exact .tighter ih

/-- Atoms with any operator between them are an expression. -/
theorem operator {ls : List Level} (hop : ∃ l ∈ ls, op ∈ l.operators)
    (ht : t.lexeme = .symbol op.symbol) (hx : Derives (.atom x) a n) (hy : Derives (.atom y) b m) :
    Derives (.run ls (joinAt x t op y)) (a ++ t :: b) (max n m) := by
  induction ls with
  | nil =>
    obtain ⟨l, hl, -⟩ := hop
    cases hl
  | cons l ls ih =>
    obtain ⟨l', hl', hop⟩ := hop
    rcases List.mem_cons.1 hl' with rfl | hl'
    · cases hassoc : l'.assoc with
      | left => exact .left hassoc ht hop (hx.run_of_atom _) (hy.run_of_atom _)
      | right => exact .right hassoc ht hop (hx.run_of_atom _) (hy.run_of_atom _)
    · exact .tighter (ih ⟨l', hl', hop⟩)

end Derives

theorem BinaryOperator.exists_level (op : BinaryOperator) :
    ∃ l ∈ Level.all, op ∈ l.operators := by
  cases op <;> decide

mutual

/-- The tokens of a printed expression are derived. -/
theorem Expr.derives : (e : Expr) → (Node.expr e).Writable → (toks : List Token) →
    toks.map Token.lexeme = e.lexemes →
    ∃ e', Derives (.atom e') toks e.nesting ∧ e'.bare = e.bare
  | .uint value span, _, toks, htoks => by
    obtain ⟨t, ts, rfl, ht, hts⟩ := List.map_eq_cons_iff.1 htoks
    cases List.map_eq_nil_iff.1 hts
    refine ⟨_, .number (Token.number?_numeral ht) value.toNat_lt, ?_⟩
    rw [UInt64.ofNat_toNat]
    rfl
  | .bytes value span, h, toks, htoks => by
    obtain ⟨body, rfl, -⟩ := h.self
    obtain ⟨t, ts, rfl, ht, hts⟩ := List.map_eq_cons_iff.1 htoks
    cases List.map_eq_nil_iff.1 hts
    refine ⟨_, .string ht, ?_⟩
    rw [String.toList_ofList, Text.decodeLossy_utf8]
    rfl
  | .unary op operand span, h, toks, htoks => by
    obtain ⟨t, ts, rfl, ht, hts⟩ := List.map_eq_cons_iff.1 htoks
    obtain ⟨e', hderives, hbare⟩ := operand.derives (h.child List.mem_cons_self) ts hts
    refine ⟨_, .unary ht hderives, ?_⟩
    rw [Expr.bare, Expr.bare, hbare]
  | .binary op left right span, h, toks, htoks => by
    obtain ⟨o, ts, rfl, ho, hts⟩ := List.map_eq_cons_iff.1 htoks
    obtain ⟨a, ts, rfl, ha, hts⟩ := List.map_eq_append_iff.1 hts
    obtain ⟨t, ts, rfl, ht, hts⟩ := List.map_eq_cons_iff.1 hts
    obtain ⟨b, ts, rfl, hb, hts⟩ := List.map_eq_append_iff.1 hts
    obtain ⟨c, ts, rfl, hc, hts⟩ := List.map_eq_cons_iff.1 hts
    cases List.map_eq_nil_iff.1 hts
    obtain ⟨x, hx, hbarex⟩ := left.derives (h.child List.mem_cons_self) a ha
    obtain ⟨y, hy, hbarey⟩ :=
      right.derives (h.child (List.mem_cons_of_mem _ List.mem_cons_self)) b hb
    have hparen := Derives.paren ho hc (Derives.operator op.exists_level ht hx hy)
    rw [List.append_assoc, List.cons_append] at hparen
    refine ⟨_, hparen, ?_⟩
    rw [Expr.bare_withSpan, joinAt, Expr.bare, Expr.bare, hbarex, hbarey]
  | .call callee args span, h, toks, htoks => by
    obtain ⟨t, ts, rfl, ht, hts⟩ := List.map_eq_cons_iff.1 htoks
    obtain ⟨o, ts, rfl, ho, hts⟩ := List.map_eq_cons_iff.1 hts
    obtain ⟨a, ts, rfl, ha, hts⟩ := List.map_eq_append_iff.1 hts
    obtain ⟨c, ts, rfl, hc, hts⟩ := List.map_eq_cons_iff.1 hts
    cases List.map_eq_nil_iff.1 hts
    obtain ⟨es, hderives, hbare⟩ :=
      Expr.derives_list args (fun e he => h.child (List.mem_map_of_mem he)) a ha
    refine ⟨_, .call ht h.self.2 ho hc hderives, ?_⟩
    rw [Expr.bare, Expr.bare, hbare]
  | .var place, h, toks, htoks => by
    obtain ⟨v, hderives, hbare⟩ := place.derives (h.child List.mem_cons_self) toks htoks
    refine ⟨_, .var hderives, ?_⟩
    rw [Expr.bare, Expr.bare, hbare]

/-- The tokens of printed arguments are derived. -/
theorem Expr.derives_list : (es : List Expr) → (∀ e ∈ es, (Node.expr e).Writable) →
    (toks : List Token) → toks.map Token.lexeme = Lexeme.separated (Expr.lexemesList es) →
    ∃ es', Derives (.args es') toks (Expr.nestingList es) ∧ Expr.bareList es' = Expr.bareList es
  | [], _, toks, htoks => by
    cases List.map_eq_nil_iff.1 htoks
    exact ⟨[], .noArgs, rfl⟩
  | [e], h, toks, htoks => by
    rw [Expr.lexemesList, Expr.lexemesList, Lexeme.separated, List.intercalate_singleton] at htoks
    obtain ⟨e', hderives, hbare⟩ := e.derives (h e List.mem_cons_self) toks htoks
    refine ⟨[e'], ?_, ?_⟩
    · rw [Expr.nestingList, Expr.nestingList, Nat.max_zero]
      exact .lastArg (hderives.run_of_atom _)
    · rw [Expr.bareList_eq, Expr.bareList_eq, List.map_singleton, List.map_singleton, hbare]
  | e :: e₂ :: es, h, toks, htoks => by
    rw [Expr.lexemesList, Expr.lexemesList, Lexeme.separated, List.intercalate_cons_cons,
      List.append_assoc] at htoks
    obtain ⟨a, ts, rfl, ha, hts⟩ := List.map_eq_append_iff.1 htoks
    obtain ⟨t, b, rfl, ht, hb⟩ := List.map_eq_cons_iff.1 hts
    obtain ⟨e', hderives, hbare⟩ := e.derives (h e List.mem_cons_self) a ha
    obtain ⟨es', hderives', hbare'⟩ := Expr.derives_list (e₂ :: es)
      (fun e he => h e (List.mem_cons_of_mem _ he)) b hb
    cases es' with
    | nil => cases hbare'
    | cons e₂' es' =>
      refine ⟨e' :: e₂' :: es', ?_, ?_⟩
      · rw [Expr.nestingList]
        exact .consArg ht (hderives.run_of_atom _) hderives'
      · rw [Expr.bareList, hbare, hbare']
        rfl

/-- The tokens of a printed place are derived. -/
theorem Variable.derives : (v : Variable) → (Node.place v).Writable → (toks : List Token) →
    toks.map Token.lexeme = v.lexemes →
    ∃ v', Derives (.place v') toks v.nesting ∧ v'.bare = v.bare
  | .name word span, h, toks, htoks => by
    obtain ⟨t, ts, rfl, ht, hts⟩ := List.map_eq_cons_iff.1 htoks
    cases List.map_eq_nil_iff.1 hts
    exact ⟨_, .name ht h.self.2, rfl⟩
  | .index base index span, h, toks, htoks => by
    obtain ⟨a, ts, rfl, ha, hts⟩ := List.map_eq_append_iff.1 htoks
    obtain ⟨o, ts, rfl, ho, hts⟩ := List.map_eq_cons_iff.1 hts
    obtain ⟨b, ts, rfl, hb, hts⟩ := List.map_eq_append_iff.1 hts
    obtain ⟨c, ts, rfl, hc, hts⟩ := List.map_eq_cons_iff.1 hts
    cases List.map_eq_nil_iff.1 hts
    obtain ⟨v, hv, hbarev⟩ := base.derives (h.child List.mem_cons_self) a ha
    obtain ⟨e, he, hbaree⟩ :=
      index.derives (h.child (List.mem_cons_of_mem _ List.mem_cons_self)) b hb
    refine ⟨_, .index ho hc hv (he.run_of_atom _), ?_⟩
    rw [Variable.bare, Variable.bare, hbarev, hbaree]
  | .member owner member span, h, toks, htoks => by
    obtain ⟨a, ts, rfl, ha, hts⟩ := List.map_eq_append_iff.1 htoks
    obtain ⟨d, ts, rfl, hd, hts⟩ := List.map_eq_cons_iff.1 hts
    obtain ⟨t, ts, rfl, ht, hts⟩ := List.map_eq_cons_iff.1 hts
    cases List.map_eq_nil_iff.1 hts
    obtain ⟨v, hv, hbare⟩ := owner.derives (h.child List.mem_cons_self) a ha
    refine ⟨_, .member hd ht hv, ?_⟩
    rw [Variable.bare, Variable.bare, hbare]

end

/-! ## Readers -/

section Readers

variable {toks rest : List Token} {t : Token} {ls after : List Lexeme}

theorem bind_of_ok {ε α β : Type} {x : Except ε α} {a : α} (h : x = .ok a) (f : α → Except ε β) :
    x >>= f = f a := by
  rw [h]
  rfl

/-- What is left is no longer than what was there. -/
theorem length_le_of_lexemes (h : toks.map Token.lexeme = ls ++ after)
    (hrest : rest.map Token.lexeme = after) : rest.length ≤ toks.length := by
  have hlength := congrArg List.length h
  rw [← hrest] at hlength
  simp only [List.length_map, List.length_append] at hlength
  omega

theorem length_le_of_cons {l : Lexeme} (h : toks.map Token.lexeme = l :: after)
    (hrest : rest.map Token.lexeme = after) : rest.length ≤ toks.length :=
  length_le_of_lexemes (show _ = [l] ++ after from h) hrest

theorem Token.isSymbol_eq {l : Lexeme} {s : Symbol} (ht : t.lexeme = l) :
    t.isSymbol s = decide (l = .symbol s) := by
  rw [isSymbol, ht]
  rfl

theorem Token.isIdentifier_eq {l : Lexeme} {word : String} (ht : t.lexeme = l) :
    t.isIdentifier word = decide (l = .identifier word) := by
  rw [isIdentifier, ht]
  rfl

theorem readSymbol_eq {s : Symbol} (ht : t.lexeme = .symbol s) (ts : List Token) :
    readSymbol s (t :: ts) = .ok (t, ts) := by
  rw [readSymbol, if_pos (Token.isSymbol_iff.2 ht)]

theorem readWord_eq {word : String} (ht : t.lexeme = .identifier word) (ts : List Token) :
    readWord word (t :: ts) = .ok (t, ts) := by
  rw [readWord, if_pos ((Token.isIdentifier_eq ht).trans (decide_eq_true rfl))]

/-- Reading gives something of which `P` holds, and leaves tokens with the lexemes `after`. -/
def Gets {α : Type} (x : Except SyntaxFault (α × List Token)) (after : List Lexeme)
    (P : α → Prop) : Prop :=
  ∃ a rest, x = .ok (a, rest) ∧ rest.map Token.lexeme = after ∧ P a

section Gets

variable {α β : Type} {mid : List Lexeme} {P : α → Prop} {Q : β → Prop}

theorem Gets.ok {a : α} (hrest : rest.map Token.lexeme = after) (ha : P a) :
    Gets (.ok (a, rest)) after P :=
  ⟨a, rest, rfl, hrest, ha⟩

theorem Gets.bind {x : Except SyntaxFault (α × List Token)}
    {f : α × List Token → Except SyntaxFault (β × List Token)} (hx : Gets x mid P)
    (hf : ∀ a rest, rest.map Token.lexeme = mid → P a → Gets (f (a, rest)) after Q) :
    Gets (x >>= f) after Q := by
  obtain ⟨a, rest, rfl, hrest, ha⟩ := hx
  exact hf a rest hrest ha

end Gets

theorem readSymbol_gets {s : Symbol} (htoks : toks.map Token.lexeme = .symbol s :: after) :
    Gets (readSymbol s toks) after fun _ => True := by
  obtain ⟨t, rest, rfl, ht, hrest⟩ := List.map_eq_cons_iff.1 htoks
  rw [readSymbol_eq ht]
  exact .ok hrest trivial

theorem readWord_gets {word : String} (htoks : toks.map Token.lexeme = .identifier word :: after) :
    Gets (readWord word toks) after fun _ => True := by
  obtain ⟨t, rest, rfl, ht, hrest⟩ := List.map_eq_cons_iff.1 htoks
  rw [readWord_eq ht]
  exact .ok hrest trivial

variable {e : Expr} {d : Nat}

/-- A printed expression is read up to a symbol that ends it. -/
theorem Expr.read_lexemes (he : (Node.expr e).Writable) {s : Symbol}
    (hs : Run.isTerminator s = true)
    (htoks : toks.map Token.lexeme = e.lexemes ++ .symbol s :: after) (hd : e.nesting ≤ d) :
    Gets (readExpr d toks) (.symbol s :: after) (·.bare = e.bare) := by
  obtain ⟨run, ts, rfl, hrun, hts⟩ := List.map_eq_append_iff.1 htoks
  obtain ⟨t, rest, rfl, ht, -⟩ := List.map_eq_cons_iff.1 hts
  obtain ⟨e', hderives, hbare⟩ := e.derives he run hrun
  have hcollect : Run.collect (run ++ t :: rest) = .ok (run, t :: rest) := by
    refine Run.collect_nested (hderives.outside.mono fun u hu s' hs' => ?_)
      (Token.symbol?_of_lexeme ht) hs
    rcases hu s' hs' with hs' | ⟨l, hl, -⟩
    · have hinside : ∀ s ∈ [Symbol.bang, .tilde, .dot], Run.isTerminator s = false := by decide
      exact hinside s' hs'
    · cases hl
  have hread := (hderives.run_of_atom Level.all).reads Level.pairwise_all d hd (some t)
  exact ⟨e', t :: rest, (bind_of_ok hcollect _).trans ((bind_of_ok hread _).trans rfl), hts, hbare⟩

/-- A printed condition is read. -/
theorem Expr.read_condition (he : (Node.expr e).Writable)
    (htoks : toks.map Token.lexeme = e.conditionLexemes ++ after) (hd : e.nesting ≤ d) :
    Gets (readCondition (readExpr d) toks) after (·.bare = e.bare) := by
  rw [Expr.conditionLexemes, List.cons_append, List.append_assoc] at htoks
  refine (readSymbol_gets htoks).bind fun _ ts hts _ => ?_
  refine (Expr.read_lexemes he rfl hts hd).bind fun e' ts₁ hts₁ hbare => ?_
  exact (readSymbol_gets hts₁).bind fun _ rest hrest _ => .ok hrest hbare

end Readers

/-! ## Where statements start -/

/-- What an expression can start with. -/
def Lexeme.StartsExpr : Lexeme → Prop
  | identifier name => IsReference name
  | symbol s => Run.isTerminator s = false
  | _ => True

theorem Lexeme.startsExpr_numeral (n : Nat) : (Lexeme.numeral n).StartsExpr := by
  rw [numeral]
  split <;> trivial

theorem Variable.lexemes_eq_cons (v : Variable) (h : (Node.place v).Writable) :
    ∃ l ls, v.lexemes = l :: ls ∧ l.StartsExpr := by
  cases v with
  | name _ _ => exact ⟨_, _, rfl, h.self.2⟩
  | index base _ _ =>
    obtain ⟨l, ls, hls, hl⟩ := base.lexemes_eq_cons (h.child List.mem_cons_self)
    exact ⟨l, _, by rw [Variable.lexemes, hls, List.cons_append], hl⟩
  | member owner _ _ =>
    obtain ⟨l, ls, hls, hl⟩ := owner.lexemes_eq_cons (h.child List.mem_cons_self)
    exact ⟨l, _, by rw [Variable.lexemes, hls, List.cons_append], hl⟩

theorem Expr.lexemes_eq_cons (e : Expr) (h : (Node.expr e).Writable) :
    ∃ l ls, e.lexemes = l :: ls ∧ l.StartsExpr := by
  cases e with
  | uint value span => exact ⟨_, _, rfl, Lexeme.startsExpr_numeral _⟩
  | bytes value span => exact ⟨_, _, rfl, trivial⟩
  | unary op operand span => exact ⟨_, _, rfl, by cases op <;> rfl⟩
  | binary op left right span => exact ⟨_, _, rfl, rfl⟩
  | call callee args span => exact ⟨_, _, rfl, h.self.2⟩
  | var place => exact place.lexemes_eq_cons (h.child List.mem_cons_self)

/-- The keywords that start a statement. -/
def statementWords : List String :=
  ["if", "while", "do", "switch", "return", "throw", "exit"]

/-- What a statement can start with. -/
def Lexeme.StartsStmt (l : Lexeme) : Prop :=
  l.StartsExpr ∨ ∃ word ∈ statementWords, l = .identifier word

theorem Lexeme.StartsStmt.ne_else {l : Lexeme} (h : l.StartsStmt) : l ≠ .identifier "else" := by
  rintro rfl
  rcases h with h | ⟨word, hword, h⟩
  · exact absurd (h rfl) (by decide)
  · cases h
    exact absurd hword (by decide)

theorem Lexeme.StartsStmt.ne_rbrace {l : Lexeme} (h : l.StartsStmt) : l ≠ .symbol .rbrace := by
  rintro rfl
  rcases h with h | ⟨word, -, h⟩
  · cases h
  · cases h

theorem Stmt.lexemes_eq_cons (s : Stmt) (h : (Node.stmt s).Writable) :
    ∃ l ls, s.lexemes = l :: ls ∧ l.StartsStmt := by
  have hword : ∀ word ∈ statementWords, ∀ ls : List Lexeme, s.lexemes = .identifier word :: ls →
      ∃ l ls, s.lexemes = l :: ls ∧ l.StartsStmt :=
    fun word hword ls hls => ⟨_, ls, hls, .inr ⟨word, hword, rfl⟩⟩
  cases s with
  | ifElse condition thenBlock elseBlock span =>
    cases elseBlock <;> exact hword "if" (by decide) _ (by rw [Stmt.lexemes])
  | whileDo condition body span => exact hword "while" (by decide) _ (by rw [Stmt.lexemes])
  | doWhile body condition span => exact hword "do" (by decide) _ (by rw [Stmt.lexemes])
  | switch tested cases otherwise span =>
    cases otherwise <;> exact hword "switch" (by decide) _ (by rw [Stmt.lexemes])
  | leave kind value span =>
    have hkind : kind.word ∈ statementWords := by cases kind <;> decide
    cases value <;> exact hword _ hkind _ (by rw [Stmt.lexemes])
  | expr e =>
    obtain ⟨l, ls, hls, hl⟩ := e.lexemes_eq_cons (h.child List.mem_cons_self)
    exact ⟨l, _, by rw [Stmt.lexemes, hls, List.cons_append], .inl hl⟩

/-! ## Reading statements -/

/-- The reader for the statements inside a statement that has `depth` levels of nesting left. -/
def stmtInside (fuel : Nat) : (depth : Nat) → Except SyntaxFault (Reader Stmt)
  | 0 => .error .tooDeep
  | depth + 1 => .ok (readStmtAt fuel depth)

theorem readStmtAt_eq (fuel depth : Nat) :
    readStmtAt fuel depth = readStmt fuel (readExpr depth) (stmtInside fuel depth) := by
  cases depth <;> rfl

section Readers

variable {toks ts : List Token} {t : Token} {ls after : List Lexeme} {F d : Nat}

/-- A statement that starts like an expression is one. -/
theorem readStmt_expr {expr : Reader Expr} {deeper : Except SyntaxFault (Reader Stmt)}
    (ht : t.lexeme.StartsExpr) :
    readStmt F expr deeper (t :: ts) = readExprStmt expr (t :: ts) := by
  have hword : ∀ word, t.lexeme = .identifier word → IsReference word := by
    intro word hword
    rwa [hword] at ht
  rw [readStmt.eq_def]
  dsimp only
  split
  case h_11 => rfl
  all_goals
    rename_i hlexeme
    exact absurd (hword _ hlexeme rfl) (by decide)

theorem Block.lexemes_eq_cons (b : Block) : ∃ ls, b.lexemes = .symbol .lbrace :: ls := by
  obtain ⟨stmts, span⟩ := b
  exact ⟨_, by rw [Block.lexemes]⟩

/-- A block in braces is read in place of a statement. -/
theorem readBranch_block {deeper : Except SyntaxFault (Reader Stmt)} {b : Block}
    (htoks : toks.map Token.lexeme = b.lexemes ++ after) :
    readBranch F deeper toks = readBlock F deeper toks := by
  obtain ⟨ls, hls⟩ := b.lexemes_eq_cons
  rw [hls, List.cons_append] at htoks
  obtain ⟨t, ts, rfl, ht, -⟩ := List.map_eq_cons_iff.1 htoks
  exact if_pos (Token.isSymbol_iff.2 ht)

theorem Lexeme.separated_cons (piece : List Lexeme) (pieces : List (List Lexeme)) :
    separated (piece :: pieces) = piece ++ pieces.flatMap (.symbol .comma :: ·) := by
  induction pieces generalizing piece with
  | nil => rw [separated, List.intercalate_singleton, List.flatMap_nil, List.append_nil]
  | cons next pieces ih =>
    rw [separated, List.intercalate_cons_cons, List.flatMap_cons, List.append_assoc]
    exact congrArg (piece ++ .symbol .comma :: ·) (ih next)

/-- What follows a value of a case ends it. -/
theorem Lexeme.exists_terminator (pieces : List (List Lexeme)) (after : List Lexeme) :
    ∃ s ls, Run.isTerminator s = true ∧
      pieces.flatMap (.symbol .comma :: ·) ++ .symbol .lbrace :: after = .symbol s :: ls := by
  cases pieces with
  | nil => exact ⟨.lbrace, _, rfl, rfl⟩
  | cons => exact ⟨.comma, _, rfl, rfl⟩

/-- The values of a case after the first one are read up to its block. -/
theorem Expr.read_values (es : List Expr) (hes : ∀ e ∈ es, (Node.expr e).Writable) {fuel : Nat}
    (acc : List Expr) (htoks : toks.map Token.lexeme =
      (Expr.lexemesList es).flatMap (.symbol .comma :: ·) ++ .symbol .lbrace :: after)
    (hd : Expr.nestingList es ≤ d) (hfuel : toks.length ≤ fuel) :
    Gets (readValues (readExpr d) fuel toks acc) (.symbol .lbrace :: after) fun es' =>
      Expr.bareList es' = Expr.bareList (acc.reverse ++ es) := by
  induction es generalizing toks fuel acc with
  | nil =>
    obtain ⟨t, ts, rfl, ht, hts⟩ := List.map_eq_cons_iff.1 htoks
    obtain ⟨fuel, rfl⟩ := Nat.exists_eq_add_of_lt hfuel
    have hcomma : t.isSymbol .comma = false := (Token.isSymbol_eq ht).trans (by decide)
    rw [List.append_nil, readValues, hcomma]
    exact .ok htoks rfl
  | cons e es ih =>
    rw [Expr.lexemesList, List.flatMap_cons, List.append_assoc, List.cons_append] at htoks
    obtain ⟨hde, hdes⟩ := Nat.max_le.1 hd
    obtain ⟨c, ts, rfl, hc, hts⟩ := List.map_eq_cons_iff.1 htoks
    obtain ⟨fuel, rfl⟩ := Nat.exists_eq_add_of_lt hfuel
    obtain ⟨s, ls, hs, hls⟩ := Lexeme.exists_terminator (Expr.lexemesList es) after
    rw [hls] at hts
    obtain ⟨e', rest, hread, hrest, hbare⟩ :=
      Expr.read_lexemes (hes e List.mem_cons_self) hs hts hde
    have hlength := length_le_of_lexemes hts hrest
    have hreads := ih (fun e he => hes e (List.mem_cons_of_mem _ he)) (e' :: acc)
      (hrest.trans hls.symm) hdes (hlength.trans (Nat.le_add_right _ fuel))
    rw [readValues, if_pos (Token.isSymbol_iff.2 hc), hread]
    simpa [Expr.bareList_eq, hbare] using hreads

variable {expr : Reader Expr} {block : Reader Block} {fuel : Nat} {rest : List Token}

/-- The cases of a switch end with its brace. -/
theorem readCases_end (htoks : toks.map Token.lexeme = .symbol .rbrace :: after)
    (hfuel : toks.length ≤ fuel) (acc : List Case) :
    Gets (readCases expr block fuel toks acc) after fun body =>
      body.cases = acc.reverse ∧ body.otherwise = none := by
  obtain ⟨closer, rest, rfl, hcloser, hrest⟩ := List.map_eq_cons_iff.1 htoks
  obtain ⟨fuel, rfl⟩ := Nat.exists_eq_add_of_lt hfuel
  rw [readCases, if_pos (Token.isSymbol_iff.2 hcloser)]
  exact .ok hrest ⟨rfl, rfl⟩

/-- The cases of a switch end with what is done otherwise, and its brace. -/
theorem readCases_default {P : Block → Prop} (ht : t.lexeme = .identifier "default")
    (hb : Gets (block ts) (.symbol .rbrace :: after) P) (hfuel : (t :: ts).length ≤ fuel)
    (acc : List Case) :
    Gets (readCases expr block fuel (t :: ts) acc) after fun body =>
      body.cases = acc.reverse ∧ ∃ b, body.otherwise = some b ∧ P b := by
  obtain ⟨fuel, rfl⟩ := Nat.exists_eq_add_of_lt hfuel
  have hbrace : t.isSymbol .rbrace = false := (Token.isSymbol_eq ht).trans (by decide)
  have hcase : t.isIdentifier "case" = false := (Token.isIdentifier_eq ht).trans (by decide)
  have hdefault : t.isIdentifier "default" = true := (Token.isIdentifier_eq ht).trans (by decide)
  rw [readCases, hbrace, hcase, hdefault]
  refine hb.bind fun b ts₁ hts₁ hb => (readSymbol_gets hts₁).bind fun closer rest hrest _ => ?_
  exact .ok hrest ⟨rfl, b, rfl, hb⟩

end Readers

theorem Stmt.head?_lexemesList (ss : List Stmt) (h : ∀ s ∈ ss, (Node.stmt s).Writable)
    (after : List Lexeme) :
    (Stmt.lexemesList ss ++ .symbol .rbrace :: after).head? ≠ some (.identifier "else") := by
  cases ss with
  | nil => nofun
  | cons s ss =>
    obtain ⟨l, ls, hls, hl⟩ := s.lexemes_eq_cons (h s List.mem_cons_self)
    rw [Stmt.lexemesList, hls]
    exact fun heq => hl.ne_else (Option.some.inj heq)

mutual

/-- A printed statement is read. -/
theorem Stmt.read_lexemes : (s : Stmt) → (Node.stmt s).Writable → ∀ {F d : Nat} {toks : List Token}
    {after : List Lexeme}, toks.map Token.lexeme = s.lexemes ++ after → s.nesting ≤ d →
    toks.length ≤ F → after.head? ≠ some (.identifier "else") →
    Gets (readStmtAt F d toks) after (·.bare = s.bare)
  | .ifElse condition thenBlock none span, h, F, d, toks, after, htoks, hd, hF, hafter => by
    rw [Stmt.lexemes, List.cons_append, List.append_assoc] at htoks
    obtain ⟨hdc, hdt⟩ := Nat.max_le.1 hd
    obtain ⟨t, ts, rfl, ht, hts⟩ := List.map_eq_cons_iff.1 htoks
    rw [readStmtAt_eq, readStmt, ht]
    refine (Expr.read_condition (h.child List.mem_cons_self) hts hdc).bind fun c ts₁ hts₁ hc => ?_
    have hF₁ : ts₁.length ≤ F := (length_le_of_lexemes hts hts₁).trans (Nat.le_of_succ_le hF)
    have hthen := thenBlock.read_lexemes
      (h.child (List.mem_cons_of_mem _ List.mem_cons_self)) hts₁ hdt hF₁
    rw [← readBranch_block hts₁] at hthen
    refine hthen.bind fun b rest hrest hb => ?_
    have hbare : (Stmt.ifElse c b none ⟨t.extent, t.extent, b.span.last⟩).bare =
        (Stmt.ifElse condition thenBlock none span).bare := by
      rw [Stmt.bare, Stmt.bare, hc, hb]
    -- What follows a statement is not the other branch of it.
    cases rest with
    | nil => exact .ok hrest hbare
    | cons e rest =>
      have helse : e.isIdentifier "else" = false := by
        rw [← hrest] at hafter
        rw [Token.isIdentifier, beq_eq_false_iff_ne]
        exact fun he => hafter (congrArg some he)
      dsimp only
      rw [helse]
      exact .ok hrest hbare
  | .ifElse condition thenBlock (some elseBlock) span, h, F, d, toks, after, htoks, hd, hF, _ => by
    rw [Stmt.lexemes, List.cons_append, List.append_assoc, List.append_assoc,
      List.cons_append] at htoks
    obtain ⟨hdc, hd⟩ := Nat.max_le.1 hd
    obtain ⟨hdt, hde⟩ := Nat.max_le.1 hd
    obtain ⟨t, ts, rfl, ht, hts⟩ := List.map_eq_cons_iff.1 htoks
    rw [readStmtAt_eq, readStmt, ht]
    refine (Expr.read_condition (h.child List.mem_cons_self) hts hdc).bind fun c ts₁ hts₁ hc => ?_
    have hF₁ : ts₁.length ≤ F := (length_le_of_lexemes hts hts₁).trans (Nat.le_of_succ_le hF)
    have hthen := thenBlock.read_lexemes
      (h.child (List.mem_cons_of_mem _ List.mem_cons_self)) hts₁ hdt hF₁
    rw [← readBranch_block hts₁] at hthen
    refine hthen.bind fun b ts₂ hts₂ hb => ?_
    have hF₂ := (length_le_of_lexemes hts₁ hts₂).trans hF₁
    obtain ⟨w, ts₃, rfl, hw, hts₃⟩ := List.map_eq_cons_iff.1 hts₂
    have helse := elseBlock.read_lexemes
      (h.child (List.mem_cons_of_mem _ (List.mem_cons_of_mem _ List.mem_cons_self))) hts₃ hde
      (Nat.le_of_succ_le hF₂)
    rw [← readBranch_block hts₃] at helse
    have hword : w.isIdentifier "else" = true := (Token.isIdentifier_eq hw).trans (by decide)
    dsimp only
    rw [hword]
    refine helse.bind fun b' rest hrest hb' => .ok hrest ?_
    rw [Stmt.bare, Stmt.bare, hc, hb, hb']
  | .whileDo condition body span, h, F, d, toks, after, htoks, hd, hF, _ => by
    rw [Stmt.lexemes, List.cons_append, List.append_assoc] at htoks
    obtain ⟨hdc, hdb⟩ := Nat.max_le.1 hd
    obtain ⟨t, ts, rfl, ht, hts⟩ := List.map_eq_cons_iff.1 htoks
    rw [readStmtAt_eq, readStmt, ht]
    refine (Expr.read_condition (h.child List.mem_cons_self) hts hdc).bind fun c ts₁ hts₁ hc => ?_
    have hF₁ : ts₁.length ≤ F := (length_le_of_lexemes hts hts₁).trans (Nat.le_of_succ_le hF)
    have hbody := body.read_lexemes
      (h.child (List.mem_cons_of_mem _ List.mem_cons_self)) hts₁ hdb hF₁
    rw [← readBranch_block hts₁] at hbody
    refine hbody.bind fun b rest hrest hb => .ok hrest ?_
    rw [Stmt.bare, Stmt.bare, hc, hb]
  | .doWhile body condition span, h, F, d, toks, after, htoks, hd, hF, _ => by
    rw [Stmt.lexemes, List.cons_append, List.append_assoc, List.cons_append,
      List.append_assoc] at htoks
    obtain ⟨hdb, hdc⟩ := Nat.max_le.1 hd
    obtain ⟨t, ts, rfl, ht, hts⟩ := List.map_eq_cons_iff.1 htoks
    rw [readStmtAt_eq, readStmt, ht]
    refine (body.read_lexemes (h.child List.mem_cons_self) hts hdb
      (Nat.le_of_succ_le hF)).bind fun b ts₁ hts₁ hb => ?_
    refine (readWord_gets hts₁).bind fun _ ts₂ hts₂ _ => ?_
    refine (Expr.read_condition (h.child (List.mem_cons_of_mem _ List.mem_cons_self)) hts₂
      hdc).bind fun c ts₃ hts₃ hc => ?_
    refine (readSymbol_gets hts₃).bind fun _ rest hrest _ => .ok hrest ?_
    rw [Stmt.bare, Stmt.bare, hc, hb]
  | .switch tested cases none span, h, F, d, toks, after, htoks, hd, hF, _ => by
    rw [Stmt.lexemes, List.cons_append, List.append_assoc, List.cons_append,
      List.append_assoc] at htoks
    obtain ⟨hdt, hdc⟩ := Nat.max_le.1 hd
    obtain ⟨t, ts, rfl, ht, hts⟩ := List.map_eq_cons_iff.1 htoks
    rw [readStmtAt_eq, readStmt, ht]
    refine (Expr.read_condition (h.child List.mem_cons_self) hts hdt).bind fun e ts₁ hts₁ he => ?_
    have hF₁ := (length_le_of_lexemes hts hts₁).trans (Nat.le_of_succ_le hF)
    refine (readSymbol_gets hts₁).bind fun _ ts₂ hts₂ _ => ?_
    have hF₂ := (length_le_of_cons hts₁ hts₂).trans hF₁
    obtain ⟨cs, ts₃, fuel, hfuel, -, hcs, hts₃, hbarecs⟩ := Case.read_lexemesList cases
      (fun c hc => h.child
        (List.mem_cons_of_mem _ (List.mem_append_left _ (List.mem_map_of_mem hc)))) [] hts₂ hdc
      hF₂ hF₂
    dsimp only
    rw [hcs]
    refine (readCases_end hts₃ hfuel _).bind fun body rest hrest ⟨hcases, hother⟩ => .ok hrest ?_
    rw [hcases, hother, List.append_nil, List.reverse_reverse, Stmt.bare, Stmt.bare, he, hbarecs]
  | .switch tested cases (some otherwise) span, h, F, d, toks, after, htoks, hd, hF, _ => by
    rw [Stmt.lexemes, List.cons_append, List.append_assoc, List.cons_append, List.append_assoc,
      List.cons_append, List.append_assoc] at htoks
    obtain ⟨hdt, hd⟩ := Nat.max_le.1 hd
    obtain ⟨hdc, hdo⟩ := Nat.max_le.1 hd
    obtain ⟨t, ts, rfl, ht, hts⟩ := List.map_eq_cons_iff.1 htoks
    rw [readStmtAt_eq, readStmt, ht]
    refine (Expr.read_condition (h.child List.mem_cons_self) hts hdt).bind fun e ts₁ hts₁ he => ?_
    have hF₁ := (length_le_of_lexemes hts hts₁).trans (Nat.le_of_succ_le hF)
    refine (readSymbol_gets hts₁).bind fun _ ts₂ hts₂ _ => ?_
    have hF₂ := (length_le_of_cons hts₁ hts₂).trans hF₁
    obtain ⟨cs, ts₃, fuel, hfuel, hF₃, hcs, hts₃, hbarecs⟩ := Case.read_lexemesList cases
      (fun c hc => h.child
        (List.mem_cons_of_mem _ (List.mem_append_left _ (List.mem_map_of_mem hc)))) [] hts₂ hdc
      hF₂ hF₂
    obtain ⟨w, ts₄, rfl, hw, hts₄⟩ := List.map_eq_cons_iff.1 hts₃
    have hblock := otherwise.read_lexemes (h.child
      (List.mem_cons_of_mem _ (List.mem_append_right _ List.mem_cons_self))) hts₄ hdo
      (Nat.le_of_succ_le hF₃)
    dsimp only
    rw [hcs]
    refine (readCases_default hw hblock hfuel _).bind
      fun body rest hrest ⟨hcases, b, hother, hb⟩ => .ok hrest ?_
    rw [hcases, hother, List.append_nil, List.reverse_reverse, Stmt.bare, Stmt.bare, he, hbarecs, hb]
  | .leave kind none span, h, F, d, toks, after, htoks, hd, hF, _ => by
    obtain rfl : kind = .returning := h.self
    obtain ⟨t, ts, rfl, ht, hts⟩ := List.map_eq_cons_iff.1 htoks
    obtain ⟨semicolon, rest, rfl, hsemicolon, -⟩ := List.map_eq_cons_iff.1 hts
    rw [readStmtAt_eq, readStmt, ht]
    dsimp only [readLeave]
    rw [if_pos ⟨rfl, Token.isSymbol_iff.2 hsemicolon⟩]
    exact (readSymbol_gets hts).bind fun _ rest hrest _ => .ok hrest rfl
  | .leave kind (some value) span, h, F, d, toks, after, htoks, hd, hF, _ => by
    have hvalue := h.child (c := .expr value) List.mem_cons_self
    rw [Stmt.lexemes, List.cons_append, List.append_assoc] at htoks
    obtain ⟨t, ts, rfl, ht, hts⟩ := List.map_eq_cons_iff.1 htoks
    have hfirst : ts.head?.any (·.isSymbol .semicolon) = false := by
      obtain ⟨l, ls, hls, hl⟩ := value.lexemes_eq_cons hvalue
      rw [hls] at hts
      obtain ⟨u, us, rfl, hu, -⟩ := List.map_eq_cons_iff.1 hts
      refine beq_eq_false_iff_ne.2 fun heq => ?_
      rw [← hu, heq] at hl
      cases hl
    have hleave : Gets (readLeave (readExpr d) kind t ts) after
        (·.bare = (Stmt.leave kind (some value) span).bare) := by
      dsimp only [readLeave]
      rw [if_neg fun hnone => absurd hnone.2 (ne_of_eq_of_ne hfirst Bool.false_ne_true)]
      refine (Expr.read_lexemes hvalue rfl hts hd).bind fun e ts₁ hts₁ hbare => ?_
      refine (readSymbol_gets hts₁).bind fun _ rest hrest _ => .ok hrest ?_
      rw [Stmt.bare, Stmt.bare, Option.map_some, Option.map_some, hbare]
    rw [readStmtAt_eq, readStmt, ht]
    cases kind <;> exact hleave
  | .expr e, h, F, d, toks, after, htoks, hd, hF, _ => by
    have he := h.child (c := .expr e) List.mem_cons_self
    rw [Stmt.lexemes, List.append_assoc] at htoks
    have hread := Expr.read_lexemes he rfl htoks hd
    obtain ⟨l, ls, hls, hl⟩ := e.lexemes_eq_cons he
    rw [hls] at htoks
    obtain ⟨t, ts, rfl, ht, -⟩ := List.map_eq_cons_iff.1 htoks
    rw [readStmtAt_eq, readStmt_expr (ht ▸ hl)]
    refine hread.bind fun e' ts₁ hts₁ hbare => ?_
    refine (readSymbol_gets hts₁).bind fun _ rest hrest _ => .ok hrest ?_
    rw [Stmt.bare, Stmt.bare, hbare]

/-- Printed statements are read up to the end of their block. -/
theorem Stmt.read_lexemesList : (ss : List Stmt) → (∀ s ∈ ss, (Node.stmt s).Writable) →
    ∀ {F d fuel : Nat} {toks : List Token} {after : List Lexeme} (acc : List Stmt),
    toks.map Token.lexeme = Stmt.lexemesList ss ++ .symbol .rbrace :: after →
    Stmt.nestingList ss ≤ d → toks.length ≤ F → toks.length ≤ fuel →
    Gets (readStmts (readStmtAt F d) fuel toks acc) after fun r =>
      Stmt.bareList r.1 = Stmt.bareList (acc.reverse ++ ss)
  | [], _, F, d, fuel, toks, after, acc, htoks, hd, hF, hfuel => by
    obtain ⟨closer, rest, rfl, hcloser, hrest⟩ := List.map_eq_cons_iff.1 htoks
    obtain ⟨fuel, rfl⟩ := Nat.exists_eq_add_of_lt hfuel
    rw [readStmts, if_pos (Token.isSymbol_iff.2 hcloser), List.append_nil]
    exact .ok hrest rfl
  | s :: ss, h, F, d, fuel, toks, after, acc, htoks, hd, hF, hfuel => by
    have hss : ∀ s ∈ ss, (Node.stmt s).Writable := fun s hs => h s (List.mem_cons_of_mem _ hs)
    rw [Stmt.lexemesList, List.append_assoc] at htoks
    obtain ⟨hds, hdss⟩ := Nat.max_le.1 hd
    obtain ⟨s', rest, hread, hrest, hbare⟩ := s.read_lexemes (h s List.mem_cons_self) htoks hds hF
      (Stmt.head?_lexemesList ss hss after)
    obtain ⟨l, ls, hls, hl⟩ := s.lexemes_eq_cons (h s List.mem_cons_self)
    rw [hls] at htoks
    obtain ⟨t, ts, rfl, ht, hts⟩ := List.map_eq_cons_iff.1 htoks
    obtain ⟨fuel, rfl⟩ := Nat.exists_eq_add_of_lt hfuel
    have hlength := length_le_of_lexemes hts hrest
    rw [List.length_cons] at hF
    have hreads := Stmt.read_lexemesList ss hss (s' :: acc) hrest hdss
      (hlength.trans (Nat.le_of_succ_le hF)) (hlength.trans (Nat.le_add_right _ fuel))
    have hbrace : t.isSymbol .rbrace = false := beq_eq_false_iff_ne.2 (ht ▸ hl.ne_rbrace)
    rw [readStmts, hbrace, hread]
    simpa [Stmt.bareList_eq, hbare] using hreads

/-- A printed block is read. -/
theorem Block.read_lexemes : (b : Block) → (Node.block b).Writable → ∀ {F d : Nat}
    {toks : List Token} {after : List Lexeme}, toks.map Token.lexeme = b.lexemes ++ after →
    b.nesting ≤ d → toks.length ≤ F →
    Gets (readBlock F (stmtInside F d) toks) after (·.bare = b.bare)
  | ⟨stmts, span⟩, h, F, d, toks, after, htoks, hd, hF => by
    rw [Block.lexemes, List.cons_append, List.append_assoc] at htoks
    obtain ⟨k, rfl⟩ : ∃ k, d = k + 1 := Nat.exists_eq_add_one.2 (Nat.zero_lt_of_lt hd)
    refine (readSymbol_gets htoks).bind fun _ ts hts _ => ?_
    have hF₁ := (length_le_of_cons htoks hts).trans hF
    refine (Stmt.read_lexemesList stmts (fun s hs => h.child (List.mem_map_of_mem hs)) [] hts
      (Nat.le_of_succ_le_succ hd) hF₁ hF₁).bind fun r rest hrest hbare => .ok hrest ?_
    rw [Block.bare, Block.bare, hbare]
    rfl

/-- Printed cases are read up to what follows them. -/
theorem Case.read_lexemesList : (cs : List Case) → (∀ c ∈ cs, (Node.case c).Writable) →
    ∀ {F d fuel : Nat} {toks : List Token} {after : List Lexeme} (acc : List Case),
    toks.map Token.lexeme = Case.lexemesList cs ++ after →
    Case.nestingList cs ≤ d → toks.length ≤ F → toks.length ≤ fuel →
    ∃ cs' rest fuel', rest.length ≤ fuel' ∧ rest.length ≤ F ∧
      readCases (readExpr d) (readBlock F (stmtInside F d)) fuel toks acc =
        readCases (readExpr d) (readBlock F (stmtInside F d)) fuel' rest (cs'.reverse ++ acc) ∧
      rest.map Token.lexeme = after ∧ Case.bareList cs' = Case.bareList cs
  | [], _, F, d, fuel, toks, after, acc, htoks, hd, hF, hfuel =>
    ⟨[], toks, fuel, hfuel, hF, rfl, htoks, rfl⟩
  | ⟨[], block, span⟩ :: cs, h, F, d, fuel, toks, after, acc, htoks, hd, hF, hfuel =>
    absurd rfl (h _ List.mem_cons_self).self
  | ⟨v :: vs, block, span⟩ :: cs, h, F, d, fuel, toks, after, acc, htoks, hd, hF, hfuel => by
    have hcase := h _ List.mem_cons_self
    have hvalues : ∀ e ∈ v :: vs, (Node.expr e).Writable := fun e he =>
      hcase.child (List.mem_append_left _ (List.mem_map_of_mem he))
    obtain ⟨ls, hls⟩ := block.lexemes_eq_cons
    rw [Case.lexemesList, Expr.lexemesList, Lexeme.separated_cons, hls, List.cons_append,
      List.append_assoc, List.append_assoc, List.append_assoc, List.cons_append] at htoks
    obtain ⟨hdvalues, hd⟩ := Nat.max_le.1 hd
    obtain ⟨hdv, hdvs⟩ := Nat.max_le.1 hdvalues
    obtain ⟨hdb, hdcs⟩ := Nat.max_le.1 hd
    obtain ⟨t, ts, rfl, ht, hts⟩ := List.map_eq_cons_iff.1 htoks
    obtain ⟨fuel, rfl⟩ := Nat.exists_eq_add_of_lt hfuel
    rw [List.length_cons] at hF
    obtain ⟨s, after₁, hs, hafter₁⟩ := Lexeme.exists_terminator (Expr.lexemesList vs)
      (ls ++ (Case.lexemesList cs ++ after))
    rw [hafter₁] at hts
    have hread : Gets (readCase (ts.length + fuel) (readExpr d) (readBlock F (stmtInside F d)) t ts)
        (Case.lexemesList cs ++ after) fun c =>
          Expr.bareList c.values = Expr.bareList (v :: vs) ∧ c.block.bare = block.bare := by
      refine (Expr.read_lexemes (hvalues v List.mem_cons_self) hs hts hdv).bind
        fun v' ts₁ hts₁ hv => ?_
      have hlength₁ := length_le_of_lexemes hts hts₁
      rw [← hafter₁] at hts₁
      refine (Expr.read_values vs (fun e he => hvalues e (List.mem_cons_of_mem _ he)) [v'] hts₁ hdvs
        (hlength₁.trans (Nat.le_add_right _ fuel))).bind fun vs' ts₂ hts₂ hvs => ?_
      have hlength₂ := length_le_of_lexemes hts₁ hts₂
      rw [← List.cons_append, ← hls] at hts₂
      refine (block.read_lexemes (hcase.child (List.mem_append_right _ List.mem_cons_self)) hts₂ hdb
        (by omega)).bind fun b ts₃ hts₃ hb => .ok hts₃ ⟨?_, hb⟩
      simpa [Expr.bareList_eq, hv] using hvs
    obtain ⟨c, ts₃, hread, hts₃, hbarevs, hbareb⟩ := hread
    have hlength : ts₃.length ≤ ts.length := by
      rw [← hafter₁] at hts
      simp only [← List.append_assoc, ← List.cons_append] at hts
      rw [List.append_assoc] at hts
      exact length_le_of_lexemes hts hts₃
    obtain ⟨cs', rest, fuel', hfuel', hF', hcs, hrest, hbarecs⟩ := Case.read_lexemesList cs
      (fun c hc => h c (List.mem_cons_of_mem _ hc)) (c :: acc) hts₃ hdcs (F := F) (by omega)
      (hlength.trans (Nat.le_add_right _ fuel))
    have hbrace : t.isSymbol .rbrace = false := (Token.isSymbol_eq ht).trans (by decide)
    have hword : t.isIdentifier "case" = true := (Token.isIdentifier_eq ht).trans (by decide)
    refine ⟨c :: cs', rest, fuel', hfuel', hF', ?_, hrest, ?_⟩
    · rw [readCases, hbrace, hword, hread]
      simpa using hcs
    · obtain ⟨values, b, span'⟩ := c
      rw [Case.bareList, Case.bareList, hbarevs, hbareb, hbarecs]

end

/-! ## Reading programs -/

section Programs

variable {toks : List Token} {after : List Lexeme}

theorem Token.definableName?_eq {t : Token} {name : String} (ht : t.lexeme = .identifier name)
    (hname : IsDefinable name) : t.definableName? = some name := by
  obtain ⟨-, hkeyword, hreserved⟩ := hname
  rw [definableName?, ht]
  refine if_neg ?_
  rw [hkeyword, Bool.false_or, List.contains_iff_mem]
  exact hreserved

/-- Printed parameters are read, if there is one. -/
theorem readParams_eq (names : List String) (name : String)
    (hnames : ∀ n ∈ name :: names, IsDefinable n) (acc : List String)
    (htoks : toks.map Token.lexeme =
      Lexeme.separated ((name :: names).map fun n => [.identifier n]) ++ .symbol .rparen :: after) :
    ∃ rest, readParams toks acc = .ok (acc.reverse ++ name :: names, rest) ∧
      rest.map Token.lexeme = .symbol .rparen :: after := by
  induction names generalizing name toks acc with
  | nil =>
    obtain ⟨t, ts, rfl, ht, hts⟩ := List.map_eq_cons_iff.1 htoks
    obtain ⟨c, rest, rfl, hc, hrest⟩ := List.map_eq_cons_iff.1 hts
    refine ⟨c :: rest, ?_, hts⟩
    have hcomma : c.isSymbol .comma = false := (Token.isSymbol_eq hc).trans (by decide)
    rw [readParams, Token.definableName?_eq ht (hnames name List.mem_cons_self)]
    dsimp only
    rw [hcomma]
    simp
  | cons next names ih =>
    obtain ⟨t, ts, rfl, ht, hts⟩ := List.map_eq_cons_iff.1 htoks
    obtain ⟨c, ts, rfl, hc, hts⟩ := List.map_eq_cons_iff.1 hts
    obtain ⟨rest, hread, hrest⟩ := ih next (fun n hn => hnames n (List.mem_cons_of_mem _ hn))
      (name :: acc) hts
    refine ⟨rest, ?_, hrest⟩
    rw [readParams, Token.definableName?_eq ht (hnames name List.mem_cons_self)]
    dsimp only
    rw [if_pos (Token.isSymbol_iff.2 hc), hread]
    simp

/-- Printed parameters are read. -/
theorem readParamList_eq (names : List String) (hnames : ∀ n ∈ names, IsDefinable n)
    (htoks : toks.map Token.lexeme =
      Lexeme.separated (names.map fun n => [.identifier n]) ++ .symbol .rparen :: after) :
    ∃ rest, readParamList toks = .ok (names, rest) ∧
      rest.map Token.lexeme = .symbol .rparen :: after := by
  cases names with
  | nil =>
    obtain ⟨t, ts, rfl, ht, hts⟩ := List.map_eq_cons_iff.1 htoks
    exact ⟨t :: ts, if_pos (Token.isSymbol_iff.2 ht), htoks⟩
  | cons name names =>
    obtain ⟨rest, hread, hrest⟩ := readParams_eq names name hnames [] htoks
    refine ⟨rest, (if_neg ?_).trans hread, hrest⟩
    rw [List.map_cons, Lexeme.separated_cons] at htoks
    obtain ⟨t, ts, rfl, ht, -⟩ := List.map_eq_cons_iff.1 htoks
    refine fun hrparen => ?_
    cases ht.symm.trans (Token.isSymbol_iff.1 hrparen)

/-- A printed function is read. -/
theorem Function.read_lexemes {f : Function} (h : (Node.function f).Writable) {F : Nat}
    (htoks : toks.map Token.lexeme = f.lexemes ++ after) (hd : f.body.nesting ≤ maxDepth)
    (hF : toks.length ≤ F) :
    Gets (readFunction F toks) after (·.bare = f.bare) := by
  rw [Function.lexemes] at htoks
  simp only [List.cons_append, List.append_assoc] at htoks
  refine (readWord_gets htoks).bind fun _ ts hts _ => ?_
  have hF₁ := (length_le_of_cons htoks hts).trans hF
  obtain ⟨t, ts₁, rfl, ht, hts₁⟩ := List.map_eq_cons_iff.1 hts
  have hname : readName .functionName (t :: ts₁) = .ok ((f.name, t), ts₁) := by
    rw [readName, Token.definableName?_eq ht h.self.1]
  dsimp only
  rw [hname]
  refine (readSymbol_gets hts₁).bind fun _ ts₂ hts₂ _ => ?_
  have hF₂ := (length_le_of_cons hts₁ hts₂).trans (Nat.le_of_succ_le hF₁)
  obtain ⟨ts₃, hparams, hts₃⟩ := readParamList_eq f.params h.self.2 hts₂
  have hF₃ := (length_le_of_lexemes hts₂ hts₃).trans hF₂
  rw [hparams]
  refine (readSymbol_gets hts₃).bind fun _ ts₄ hts₄ _ => ?_
  refine (f.body.read_lexemes (h.child List.mem_cons_self) hts₄ hd
    ((length_le_of_cons hts₃ hts₄).trans hF₃)).bind fun b rest hrest hb => .ok hrest ?_
  rw [Function.bare, Function.bare, hb]

/-- Printed functions are read. -/
theorem Function.read_lexemesList (fs : List Function) (h : ∀ f ∈ fs, (Node.function f).Writable)
    {F fuel : Nat} (acc : List Function)
    (htoks : toks.map Token.lexeme = fs.flatMap Function.lexemes)
    (hd : ∀ f ∈ fs, f.body.nesting ≤ maxDepth) (hF : toks.length ≤ F)
    (hfuel : toks.length ≤ fuel) :
    ∃ fs', readFunctions (readFunction F) fuel toks acc = .ok (acc.reverse ++ fs') ∧
      fs'.map Function.bare = fs.map Function.bare := by
  induction fs generalizing toks fuel acc with
  | nil =>
    cases List.map_eq_nil_iff.1 htoks
    refine ⟨[], ?_, rfl⟩
    rw [readFunctions, List.append_nil]
  | cons f fs ih =>
    rw [List.flatMap_cons] at htoks
    obtain ⟨f', rest, hread, hrest, hbare⟩ :=
      Function.read_lexemes (h f List.mem_cons_self) htoks (hd f List.mem_cons_self) hF
    obtain ⟨t, ts, rfl, ht, hts⟩ := List.map_eq_cons_iff.1 htoks
    obtain ⟨fuel, rfl⟩ := Nat.exists_eq_add_of_lt hfuel
    have hlength := length_le_of_lexemes hts hrest
    rw [List.length_cons] at hF
    obtain ⟨fs', hreads, hbares⟩ := ih (fun f hf => h f (List.mem_cons_of_mem _ hf)) (f' :: acc)
      hrest (fun f hf => hd f (List.mem_cons_of_mem _ hf)) (hlength.trans (Nat.le_of_succ_le hF))
      (hlength.trans (Nat.le_add_right _ fuel))
    refine ⟨f' :: fs', ?_, ?_⟩
    · rw [readFunctions, hread]
      simpa using hreads
    · rw [List.map_cons, List.map_cons, hbare, hbares]

end Programs

/-- Reading undoes printing: the text of a program that can be written, with as many tokens and as
much nesting as a source may have, is read as the same program up to places. -/
theorem Program.read_print (p : Program) (hp : (Node.program p).Writable)
    (htokens : ∀ toks, readTokens p.print.toList 0 [] = .ok toks → toks.length ≤ maxTokens)
    (hnesting : ∀ f ∈ p.functions, f.body.nesting ≤ maxDepth) :
    ∃ p', Source.program p.print.toList = .ok p' ∧ p'.bare = p.bare := by
  obtain ⟨toks, hdivides, hlexemes, hcomment⟩ := Program.divides_print hp
  have hfew := htokens toks (readTokens_eq_ok_iff_divides.2 hdivides)
  have htoks : Source.tokens p.print.toList = .ok toks :=
    Source.tokens_eq_ok_iff.2 ⟨hdivides, hfew⟩
  obtain ⟨fs, hreads, hbare⟩ := Function.read_lexemesList p.functions
    (fun f hf => hp.child (List.mem_map_of_mem hf)) [] hlexemes hnesting (Nat.le_refl _)
    (Nat.le_refl _)
  have hfilter : toks.filter (!·.isComment) = toks :=
    List.filter_eq_self.2 fun t ht => by rw [hcomment t ht, Bool.not_false]
  have hprogram : Program.ofTokens toks = .ok ⟨fs, Program.spanOf toks⟩ := by
    rw [Program.ofTokens, hfilter]
    exact (bind_of_ok hreads _).trans rfl
  refine ⟨⟨fs, Program.spanOf toks⟩, ?_, ?_⟩
  · refine (bind_of_ok htoks _).trans ?_
    rw [hprogram]
    rfl
  · rw [Program.bare, Program.bare, hbare]

/-- The tokens of a printed program are as many as its lexemes. -/
theorem Program.length_tokens {p : Program} (hp : (Node.program p).Writable) {toks : List Token}
    (h : readTokens p.print.toList 0 [] = .ok toks) : toks.length = p.lexemes.length := by
  obtain ⟨toks', hdivides, hlexemes, -⟩ := Program.divides_print hp
  cases h.symm.trans (readTokens_eq_ok_iff_divides.2 hdivides)
  rw [← hlexemes, List.length_map]

/-- A program with every kind of statement and expression, a keyword for a member, and a string with
a quote in it and a character of two bytes. -/
def Program.mixed : Program :=
  ⟨[⟨"f", ["a", "b_1"], ⟨[
    .ifElse (.binary .eq (.var (.name "a" default)) (.uint 0 default) default)
      ⟨[.leave .returning none default], default⟩
      (some ⟨[.whileDo (.unary .not (.var (.name "a" default)) default)
        ⟨[.expr (.binary .assign (.var (.member (.index (.name "x" default)
          (.binary .add (.var (.name "a" default)) (.uint 17 default) default) default)
          "if" default)) (.bytes (Text.utf8 "q\\\"é".toList) default) default)], default⟩ default],
        default⟩) default,
    .doWhile ⟨[.leave .exiting (some (.call "g" [.uint 0 default,
        .unary .complement (.var (.name "true" default)) default] default)) default], default⟩
      (.var (.name "b_1" default)) default,
    .switch (.var (.member (.name "txn" default) "y" default))
      [⟨[.uint 1 default, .var (.name "a" default)], ⟨[], default⟩, default⟩]
      (some ⟨[.leave .throwing (some (.bytes (Text.utf8 "m".toList) default)) default], default⟩)
      default], default⟩, default⟩], default⟩

theorem Program.mixed_writable : (Node.program mixed).Writable := by
  simp only [mixed, Node.Writable, Node.descendants_eq, Node.children, Node.ofStmt, Node.ofExpr,
    Node.ofVariable, List.map_cons, List.map_nil, List.flatMap_cons, List.flatMap_nil,
    List.append_nil, List.nil_append, List.cons_append, Option.toList_some, Option.toList_none,
    List.forall_mem_cons]
  have hreference : ∀ name ∈ ["a", "x", "g", "true", "b_1", "txn"],
      (Lexeme.identifier name).IsProper ∧ IsReference name := by
    decide +kernel
  have hmember : ∀ name ∈ ["if", "y"], (Lexeme.identifier name).IsProper := by decide +kernel
  have hdefinable : ∀ name ∈ ["f", "a", "b_1"], IsDefinable name := by decide +kernel
  simp only [List.forall_mem_cons] at hreference hmember hdefinable
  obtain ⟨ha, hx, hg, htrue, hb, htxn, -⟩ := hreference
  obtain ⟨hif, hy, -⟩ := hmember
  have hquoted : isQuotable "q\\\"é".toList = true := by decide
  have hplain : isQuotable "m".toList = true := by decide
  simp only [Node.IsWritable, List.forall_mem_cons, true_and]
  exact ⟨hdefinable, ha, ha, hif, hx, ha, ⟨_, rfl, hquoted⟩, hg, htrue, hb, hy, htxn,
    List.cons_ne_nil _ _, ha, ⟨_, rfl, hplain⟩, List.forall_mem_nil _⟩

theorem Program.read_print_mixed :
    Program.mixed.print = "def f(a, b_1) \x7b if ((a == 0)) \x7b return; \x7d else \x7b " ++
        "while (!a) \x7b (x[(a + 17)].if = \"q\\\"é\"); \x7d \x7d " ++
        "do \x7b exit g(0, ~true); \x7d while (b_1); " ++
        "switch (txn.y) \x7b case 1, a \x7b \x7d default \x7b throw \"m\"; \x7d \x7d \x7d\n" ∧
      ∃ p', Source.program Program.mixed.print.toList = .ok p' ∧
        p'.bare = Program.mixed.bare := by
  constructor
  · have hzero : Nat.repr 0 = "0" := rfl
    have hone : Nat.repr 1 = "1" := rfl
    have hseventeen : Nat.repr 17 = "17" := rfl
    simp [Program.mixed, Program.print, Function.printList, Function.print, Function.display,
      Block.print, Stmt.printList, Stmt.print, Case.printList, Expr.display, Expr.displayList,
      Variable.display, Text.decodeLossy_utf8, BinaryOperator.text, Symbol.text,
      UnaryOperator.symbol, BinaryOperator.symbol, Symbol.chars, Leaving.word, hzero, hone,
      hseventeen]
  · refine Program.read_print _ mixed_writable (fun toks h => ?_) (by decide)
    rw [Program.length_tokens mixed_writable h]
    decide

end ContractCompiler
