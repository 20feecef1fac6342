import ContractCompiler.Proofs.Syntax.Amendment
import ContractCompiler.Syntax.ProgramReader

/-!
# Revised tokens

Two sources that have the same tokens but for their places and for what their numbers say are read
in step: wherever one reader finds a symbol or a word, so does the other. A revision says what
becomes of places and numbers, and which outcomes on the one side go with which on the other. What
it has to say about outcomes is only about single numbers; the readers then keep to it.
-/

namespace ContractCompiler

/-- What a number says as a constant. -/
def Token.word (t : Token) (n : Nat) : Except SyntaxFault UInt64 :=
  if n < UInt64.size then .ok (UInt64.ofNat n) else .error (.unexpected .wordLiteral (some t))

/-- What a number says in a list of bytes. -/
def Token.byte (t : Token) (n : Nat) : Except SyntaxFault UInt8 :=
  if n < 256 then .ok (UInt8.ofNat n) else .error (.unexpected .byteInRange (some t))

theorem Token.lexeme_of_number? {t : Token} {n : Nat} (h : t.number? = some n) :
    ∃ radix digits, t.lexeme = .number radix digits := by
  rw [number?] at h
  split at h
  case h_1 radix digits hlexeme => exact ⟨radix, digits, hlexeme⟩
  case h_2 => cases h

/-- A change of the places of tokens and of what numbers say. `Gives f x x'` says that the outcome
`x'` of a reader on the revised tokens goes with the outcome `x` on the tokens as they were, where
`f` revises what is read. -/
structure Revision extends Amendment where
  token : Token → Token
  Gives {α β : Type} (f : α → β) (x : Except SyntaxFault α) (x' : Except SyntaxFault β) : Prop
  extent_token (t : Token) : (token t).extent = extent t.extent
  lexeme_token {t : Token} (h : t.number? = none) : (token t).lexeme = t.lexeme
  number_token {t : Token} {n : Nat} (h : t.number? = some n) :
    ∃ n', (token t).number? = some n' ∧
      Gives (constant t.extent) (t.word n) ((token t).word n') ∧
      Gives id (t.byte n) ((token t).byte n')
  ok {α β : Type} (f : α → β) (a : α) : Gives f (.ok a) (.ok (f a))
  unexpected {α β : Type} (f : α → β) (what : Expected) (found : Option Token)
    (hwhat : what ≠ .closingBracket) :
    Gives f (.error (.unexpected what found)) (.error (.unexpected what (found.map token)))
  unsupported {α β : Type} (f : α → β) (word : String) (t : Token) :
    Gives f (.error (.unsupported word t.offset)) (.error (.unsupported word (token t).offset))
  tooDeep {α β : Type} (f : α → β) : Gives f (.error .tooDeep) (.error .tooDeep)
  bindOk {α β α' β' : Type} {f : α → α'} {g : β → β'} {x : Except SyntaxFault α}
    {x' : Except SyntaxFault α'} {k : α → Except SyntaxFault β} {k' : α' → Except SyntaxFault β'}
    (hx : Gives f x x') (hk : ∀ a, x = .ok a → Gives g (k a) (k' (f a))) :
    Gives g (x >>= k) (x' >>= k')

namespace Revision

theorem bind (ρ : Revision) {α β α' β' : Type} {f : α → α'} {g : β → β'} {x : Except SyntaxFault α}
    {x' : Except SyntaxFault α'} {k : α → Except SyntaxFault β} {k' : α' → Except SyntaxFault β'}
    (hx : ρ.Gives f x x') (hk : ∀ a, ρ.Gives g (k a) (k' (f a))) :
    ρ.Gives g (x >>= k) (x' >>= k') :=
  ρ.bindOk hx fun a _ => hk a

/-! ## Tokens -/

section Tokens

variable (ρ : Revision) (t : Token)

/-- A revised token has the same lexeme, or it is a number and was one. -/
theorem lexeme_cases :
    (ρ.token t).lexeme = t.lexeme ∨ ∃ radix digits radix' digits',
      t.lexeme = .number radix digits ∧ (ρ.token t).lexeme = .number radix' digits' := by
  cases h : t.number? with
  | none => exact .inl (ρ.lexeme_token h)
  | some n =>
    obtain ⟨n', hn', -⟩ := ρ.number_token h
    obtain ⟨radix, digits, hlexeme⟩ := Token.lexeme_of_number? h
    obtain ⟨radix', digits', hlexeme'⟩ := Token.lexeme_of_number? hn'
    exact .inr ⟨radix, digits, radix', digits', hlexeme, hlexeme'⟩

@[simp] theorem symbol?_token : (ρ.token t).symbol? = t.symbol? := by
  rw [Token.symbol?, Token.symbol?]
  rcases ρ.lexeme_cases t with h | ⟨_, _, _, _, h, h'⟩
  · rw [h]
  · rw [h, h']

@[simp] theorem isSymbol_token (s : Symbol) : (ρ.token t).isSymbol s = t.isSymbol s := by
  rw [Token.isSymbol, Token.isSymbol]
  rcases ρ.lexeme_cases t with h | ⟨_, _, _, _, h, h'⟩
  · rw [h]
  · rw [h, h']
    rfl

@[simp] theorem isIdentifier_token (n : String) :
    (ρ.token t).isIdentifier n = t.isIdentifier n := by
  rw [Token.isIdentifier, Token.isIdentifier]
  rcases ρ.lexeme_cases t with h | ⟨_, _, _, _, h, h'⟩
  · rw [h]
  · rw [h, h']
    rfl

@[simp] theorem definableName?_token : (ρ.token t).definableName? = t.definableName? := by
  rw [Token.definableName?, Token.definableName?]
  rcases ρ.lexeme_cases t with h | ⟨_, _, _, _, h, h'⟩
  · rw [h]
  · rw [h, h']

theorem any_head?_token (s : Symbol) (toks : List Token) :
    (toks.map ρ.token).head?.any (·.isSymbol s) = toks.head?.any (·.isSymbol s) := by
  cases toks with
  | nil => rfl
  | cons t ts => exact ρ.isSymbol_token t s

end Tokens

end Revision

end ContractCompiler
