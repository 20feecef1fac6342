import ContractCompiler.Proofs.Syntax.Brackets

/-!
# The grammar of expressions

The operators of a level stand between operands that have tighter operators only, and group from the
level's side. The operands of the tightest level are atoms.
-/

namespace ContractCompiler

/-! ## The rules -/

/-- What the rules derive: an expression with operators of some levels, loosest first, an atom, a
place, or the arguments of a call. -/
inductive Phrase where
  | run (levels : List Level) (e : Expr)
  | atom (e : Expr)
  | place (v : Variable)
  | args (es : List Expr)

/-- Whether a name may be used in an expression. -/
def IsReference (name : String) : Prop :=
  isKeyword name = true → name = "true" ∨ name = "false"

/-- Byte values with commas between them. -/
inductive ByteList : List Token → List UInt8 → Prop where
  | last {t : Token} {n : Nat} (ht : t.number? = some n) (hn : n < 256) :
    ByteList [t] [UInt8.ofNat n]
  | cons {t c : Token} {n : Nat} {ts : List Token} {vs : List UInt8} (ht : t.number? = some n)
      (hn : n < 256) (hc : c.isSymbol .comma = true) (hts : ByteList ts vs) :
    ByteList (t :: c :: ts) (UInt8.ofNat n :: vs)

/-- `Derives φ toks n`: the tokens are the phrase `φ`, with `n` brackets, unary operators, argument
lists and indexes inside each other. -/
inductive Derives : Phrase → List Token → Nat → Prop where
  | tightest {e : Expr} {toks : List Token} {n : Nat} (h : Derives (.atom e) toks n) :
    Derives (.run [] e) toks n
  | tighter {l : Level} {ls : List Level} {e : Expr} {toks : List Token} {n : Nat}
      (h : Derives (.run ls e) toks n) : Derives (.run (l :: ls) e) toks n
  | left {l : Level} {ls : List Level} {x y : Expr} {a b : List Token} {t : Token}
      {op : BinaryOperator} {n m : Nat} (hl : l.assoc = .left) (ht : t.lexeme = .symbol op.symbol)
      (hop : op ∈ l.operators) (hx : Derives (.run (l :: ls) x) a n)
      (hy : Derives (.run ls y) b m) :
    Derives (.run (l :: ls) (joinAt x t op y)) (a ++ t :: b) (max n m)
  | right {l : Level} {ls : List Level} {x y : Expr} {a b : List Token} {t : Token}
      {op : BinaryOperator} {n m : Nat} (hl : l.assoc = .right) (ht : t.lexeme = .symbol op.symbol)
      (hop : op ∈ l.operators) (hx : Derives (.run ls x) a n)
      (hy : Derives (.run (l :: ls) y) b m) :
    Derives (.run (l :: ls) (joinAt x t op y)) (a ++ t :: b) (max n m)
  | paren {e : Expr} {o c : Token} {toks : List Token} {n : Nat} (ho : o.lexeme = .symbol .lparen)
      (hc : c.lexeme = .symbol .rparen) (h : Derives (.run Level.all e) toks n) :
    Derives (.atom (e.withSpan ⟨o.extent, e.span.main, c.extent⟩)) (o :: (toks ++ [c])) (n + 1)
  | unary {op : UnaryOperator} {e : Expr} {t : Token} {toks : List Token} {n : Nat}
      (ht : t.lexeme = .symbol op.symbol) (h : Derives (.atom e) toks n) :
    Derives (.atom (.unary op e ⟨t.extent, t.extent, e.span.last⟩)) (t :: toks) (n + 1)
  | number {t : Token} {v : Nat} (ht : t.number? = some v) (hv : v < UInt64.size) :
    Derives (.atom (.uint (UInt64.ofNat v) (.single t.extent))) [t] 0
  | string {t : Token} {body : String} (ht : t.lexeme = .string body) :
    Derives (.atom (.bytes (Text.utf8 body.toList) (.single t.extent))) [t] 0
  | bytes {o c : Token} {toks : List Token} {values : List UInt8}
      (ho : o.lexeme = .symbol .lbracket) (hc : c.lexeme = .symbol .rbracket)
      (h : ByteList toks values) :
    Derives (.atom (.bytes values ⟨o.extent, o.extent, c.extent⟩)) (o :: (toks ++ [c])) 0
  | var {v : Variable} {toks : List Token} {n : Nat} (h : Derives (.place v) toks n) :
    Derives (.atom (.var v)) toks n
  | call {callee : String} {es : List Expr} {t o c : Token} {toks : List Token} {n : Nat}
      (ht : t.lexeme = .identifier callee) (hcallee : IsReference callee)
      (ho : o.lexeme = .symbol .lparen) (hc : c.lexeme = .symbol .rparen)
      (h : Derives (.args es) toks n) :
    Derives (.atom (.call callee es ⟨t.extent, o.extent, c.extent⟩)) (t :: o :: (toks ++ [c]))
      (n + 1)
  | name {name : String} {t : Token} (ht : t.lexeme = .identifier name)
      (hname : IsReference name) : Derives (.place (.name name (.single t.extent))) [t] 0
  | index {v : Variable} {e : Expr} {o c : Token} {a b : List Token} {n m : Nat}
      (ho : o.lexeme = .symbol .lbracket) (hc : c.lexeme = .symbol .rbracket)
      (hv : Derives (.place v) a n) (he : Derives (.run Level.all e) b m) :
    Derives (.place (.index v e ⟨v.span.first, o.extent, c.extent⟩)) (a ++ o :: (b ++ [c]))
      (max n (m + 1))
  | member {v : Variable} {member : String} {d t : Token} {a : List Token} {n : Nat}
      (hd : d.lexeme = .symbol .dot) (ht : t.lexeme = .identifier member)
      (hv : Derives (.place v) a n) :
    Derives (.place (.member v member ⟨v.span.first, d.extent, t.extent⟩)) (a ++ [d, t]) n
  | noArgs : Derives (.args []) [] 0
  | lastArg {e : Expr} {toks : List Token} {n : Nat} (h : Derives (.run Level.all e) toks n) :
    Derives (.args [e]) toks n
  | consArg {e e' : Expr} {es : List Expr} {t : Token} {a b : List Token} {n m : Nat}
      (ht : t.lexeme = .symbol .comma) (he : Derives (.run Level.all e) a n)
      (hes : Derives (.args (e' :: es)) b m) :
    Derives (.args (e :: e' :: es)) (a ++ t :: b) (max n m)

/-! ## Symbols of a phrase -/

theorem Token.symbol?_of_lexeme {t : Token} {s : Symbol} (h : t.lexeme = .symbol s) :
    t.symbol? = some s := by
  rw [symbol?, h]

theorem Token.lexeme_of_symbol? {t : Token} {s : Symbol} (h : t.symbol? = some s) :
    t.lexeme = .symbol s := by
  rw [symbol?] at h
  split at h
  case h_1 s' hs =>
    cases h
    exact hs
  case h_2 => cases h

theorem Token.isSymbol_iff {t : Token} {s : Symbol} :
    t.isSymbol s = true ↔ t.lexeme = .symbol s := by
  rw [isSymbol, beq_iff_eq]

theorem Token.isPlain_of_lexeme {t : Token} {s : Symbol} (ht : t.lexeme = .symbol s)
    (hcloser : s.closer? = none) (hends : Run.endsBracket s = false) : t.IsPlain := by
  intro s' hs'
  cases (symbol?_of_lexeme ht).symm.trans hs'
  exact ⟨hcloser, hends⟩

theorem Token.isPlain_of_symbol? {t : Token} (ht : t.symbol? = none) : t.IsPlain := by
  intro s hs
  cases ht.symm.trans hs

theorem Token.symbol?_of_number? {t : Token} {n : Nat} (h : t.number? = some n) :
    t.symbol? = none := by
  rw [number?] at h
  split at h
  case h_1 radix digits hlexeme => rw [symbol?, hlexeme]
  case h_2 => cases h

namespace Level

/-- The operators of a level, as a token. -/
theorem bind_operator?_iff {l : Level} {t : Token} {op : BinaryOperator} :
    t.symbol?.bind l.operator? = some op ↔ t.lexeme = .symbol op.symbol ∧ op ∈ l.operators := by
  constructor
  · intro h
    obtain ⟨s, hs, h⟩ := Option.bind_eq_some_iff.1 h
    obtain ⟨hop, hmem⟩ := Option.filter_eq_some_iff.1 h
    rw [BinaryOperator.symbol_of_ofSymbol? hop]
    exact ⟨Token.lexeme_of_symbol? hs, by simpa using hmem⟩
  · rintro ⟨ht, hop⟩
    rw [Token.symbol?_of_lexeme ht, Option.bind_some, operator?, BinaryOperator.ofSymbol?_symbol]
    simpa [Option.filter] using hop

/-- No symbol is an operator of both levels. -/
def Apart (l l' : Level) : Prop :=
  ∀ op ∈ l.operators, op ∉ l'.operators

instance (l l' : Level) : Decidable (l.Apart l') :=
  inferInstanceAs (Decidable (∀ op ∈ l.operators, op ∉ l'.operators))

theorem pairwise_all : Level.all.Pairwise Apart := by
  decide

end Level

/-- A separator of operands opens no bracket. -/
theorem Level.separates (l : Level) : Run.Separates l.operator? := by
  intro s hs
  cases s <;> first | rfl | cases hs

theorem BinaryOperator.symbol_plain (op : BinaryOperator) :
    op.symbol.closer? = none ∧ Run.endsBracket op.symbol = false := by
  cases op <;> exact ⟨rfl, rfl⟩

/-- A token that may stand outside the brackets of an expression with operators of some levels. -/
def Token.FitsLevels (ls : List Level) (t : Token) : Prop :=
  ∀ s, t.symbol? = some s → s ∈ [Symbol.bang, .tilde, .dot] ∨
    ∃ l ∈ ls, ∃ op ∈ l.operators, s = op.symbol

theorem Token.FitsLevels.mono {ls ls' : List Level} {t : Token} (h : t.FitsLevels ls)
    (hsub : ls ⊆ ls') : t.FitsLevels ls' := by
  intro s hs
  rcases h s hs with hs | ⟨l, hl, hop⟩
  · exact .inl hs
  · exact .inr ⟨l, hsub hl, hop⟩

theorem Token.fitsLevels_of_symbol? {ls : List Level} {t : Token} (ht : t.symbol? = none) :
    t.FitsLevels ls := by
  intro s hs
  cases ht.symm.trans hs

/-- The operators of one level do not fit the others. -/
theorem Token.FitsLevels.bind_operator? {l : Level} {ls : List Level} {t : Token}
    (h : t.FitsLevels ls) (hl : ∀ l' ∈ ls, l.Apart l') : t.symbol?.bind l.operator? = none := by
  cases hop : t.symbol?.bind l.operator? with
  | none => rfl
  | some op =>
    obtain ⟨ht, hmem⟩ := Level.bind_operator?_iff.1 hop
    rcases h _ (symbol?_of_lexeme ht) with hs | ⟨l', hl', op', hop', hs⟩
    · cases op <;> simp [BinaryOperator.symbol] at hs
    · have hsame : op = op' := by
        have := congrArg BinaryOperator.ofSymbol? hs
        rw [BinaryOperator.ofSymbol?_symbol, BinaryOperator.ofSymbol?_symbol] at this
        exact Option.some.inj this
      subst hsame
      exact absurd hop' (hl l' hl' op hmem)

/-- A comma does not fit any level. -/
theorem Token.FitsLevels.ne_comma {ls : List Level} {t : Token} (h : t.FitsLevels ls) :
    t.symbol? ≠ some .comma := by
  intro hcomma
  rcases h _ hcomma with hs | ⟨l, -, op, -, hs⟩
  · simp at hs
  · cases op <;> cases hs

/-- What a phrase has outside brackets. -/
def Phrase.Fits : Phrase → Token → Prop
  | run ls _ => Token.FitsLevels ls
  | atom _ | place _ => Token.FitsLevels []
  | args _ => fun _ => True

theorem ByteList.balanced {toks : List Token} {vs : List UInt8} (h : ByteList toks vs) :
    Run.Balanced toks := by
  induction h with
  | last ht _ => exact .singleton (Token.isPlain_of_symbol? (Token.symbol?_of_number? ht)) trivial
  | cons ht _ hc _ ih =>
    exact .token (Token.isPlain_of_symbol? (Token.symbol?_of_number? ht)) trivial
      (.token (Token.isPlain_of_lexeme (Token.isSymbol_iff.1 hc) rfl rfl) trivial ih)

theorem Run.Nested.enclosed {P : Token → Prop} {o c : Token} {inner : List Token} {s s' : Symbol}
    (ho : o.lexeme = .symbol s) (hc : c.lexeme = .symbol s') (hs : s.closer? = some s')
    (hinner : Balanced inner) : Nested P (o :: (inner ++ [c])) :=
  .bracket (Token.symbol?_of_lexeme ho) (Token.symbol?_of_lexeme hc) hs hinner .nil

theorem Token.fitsLevels_of_lexeme {ls : List Level} {t : Token} {s : Symbol}
    (ht : t.lexeme = .symbol s) (hs : s ∈ [Symbol.bang, .tilde, .dot]) : t.FitsLevels ls := by
  intro s' hs'
  cases (symbol?_of_lexeme ht).symm.trans hs'
  exact .inl hs

theorem Token.symbol?_of_identifier {t : Token} {name : String}
    (ht : t.lexeme = .identifier name) : t.symbol? = none := by
  rw [symbol?, ht]

theorem Token.fitsLevels_operator {l : Level} {ls : List Level} {t : Token} {op : BinaryOperator}
    (ht : t.lexeme = .symbol op.symbol) (hop : op ∈ l.operators) : t.FitsLevels (l :: ls) := by
  intro s hs
  cases (symbol?_of_lexeme ht).symm.trans hs
  exact .inr ⟨l, List.mem_cons_self, op, hop, rfl⟩

section Outside

variable {l : Level} {ls : List Level} {t : Token} {ts : List Token}

theorem Run.Nested.looser (h : Nested (Token.FitsLevels ls) ts) :
    Nested (Token.FitsLevels (l :: ls)) ts :=
  h.mono fun _ ht => ht.mono (List.subset_cons_self _ _)

/-- A token that is no symbol fits everywhere. -/
theorem Run.Nested.word (ht : t.symbol? = none) (hts : Nested (Token.FitsLevels ls) ts) :
    Nested (Token.FitsLevels ls) (t :: ts) :=
  .token (Token.isPlain_of_symbol? ht) (Token.fitsLevels_of_symbol? ht) hts

/-- An operator fits its level. -/
theorem Run.Nested.operator {op : BinaryOperator} (ht : t.lexeme = .symbol op.symbol)
    (hop : op ∈ l.operators) (hts : Nested (Token.FitsLevels (l :: ls)) ts) :
    Nested (Token.FitsLevels (l :: ls)) (t :: ts) :=
  .token (Token.isPlain_of_lexeme ht op.symbol_plain.1 op.symbol_plain.2)
    (Token.fitsLevels_operator ht hop) hts

end Outside

/-- The brackets of a phrase are balanced, and outside them it has only what fits it. -/
theorem Derives.outside {φ : Phrase} {toks : List Token} {n : Nat} (h : Derives φ toks n) :
    Run.Nested φ.Fits toks := by
  induction h with
  | tightest _ ih => exact ih
  | tighter _ ih => exact ih.looser
  | left _ ht hop _ _ ihx ihy => exact ihx.append (.operator ht hop ihy.looser)
  | right _ ht hop _ _ ihx ihy => exact ihx.looser.append (.operator ht hop ihy)
  | paren ho hc _ ih => exact .enclosed ho hc rfl ih.balanced
  | @unary op _ _ _ _ ht _ ih =>
    refine .token ?_ ?_ ih
    · cases op <;> exact Token.isPlain_of_lexeme ht rfl rfl
    · cases op <;> exact Token.fitsLevels_of_lexeme ht (by decide)
  | number ht _ => exact .word (Token.symbol?_of_number? ht) .nil
  | string ht => exact .word (by rw [Token.symbol?, ht]) .nil
  | bytes ho hc h => exact .enclosed ho hc rfl h.balanced
  | var _ ih => exact ih
  | call ht _ ho hc _ ih => exact .word (Token.symbol?_of_identifier ht) (.enclosed ho hc rfl ih)
  | name ht _ => exact .word (Token.symbol?_of_identifier ht) .nil
  | index ho hc _ _ ihv ihe => exact ihv.append (.enclosed ho hc rfl ihe.balanced)
  | member hd ht _ ihv =>
    exact ihv.append (.token (Token.isPlain_of_lexeme hd rfl rfl)
      (Token.fitsLevels_of_lexeme hd (by decide)) (.word (Token.symbol?_of_identifier ht) .nil))
  | noArgs => exact .nil
  | lastArg _ ih => exact ih.balanced
  | consArg ht _ _ ihe ihes =>
    exact ihe.balanced.append (.token (Token.isPlain_of_lexeme ht rfl rfl) trivial ihes)

end ContractCompiler
