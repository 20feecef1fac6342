import ContractCompiler.Proofs.Syntax.Relocation
import ContractCompiler.Proofs.Syntax.RevisedReading

/-!
# Reading relocated tokens

What is read from relocated tokens is what was read before, with its spans relocated; if nothing can
be read, then for the same reason.
-/

namespace ContractCompiler

namespace Relocation

variable (σ : Relocation)

/-! ## Outcomes of readers -/

/-- A relocated fault. -/
def fault : SyntaxFault → SyntaxFault
  | .unexpected what found => .unexpected what (found.map σ.token)
  | .unsupported word offset => .unsupported word (σ.offset offset)
  | .tooDeep => .tooDeep

/-- The outcome of a reader on relocated tokens, where `f` relocates what is read. -/
def outcome {α β : Type} (f : α → β) : Except SyntaxFault α → Except SyntaxFault β
  | .ok a => .ok (f a)
  | .error e => .error (σ.fault e)

/-- A relocation revises places, and nothing else. -/
def revision : Revision where
  toAmendment := σ.toAmendment
  token := σ.token
  Gives f x x' := x' = σ.outcome f x
  extent_token _ := rfl
  lexeme_token _ := rfl
  number_token {t n} h := by
    refine ⟨n, h, ?_, ?_⟩
    · rw [Token.word, Token.word]
      split
      · exact congrArg Except.ok (σ.constant_eq _ _).symm
      · rfl
    · rw [Token.byte, Token.byte]
      split <;> rfl
  ok _ _ := rfl
  unexpected _ _ _ _ := rfl
  unsupported _ word t :=
    congrArg (Except.error ∘ SyntaxFault.unsupported word) (σ.offset_extent t.extent)
  tooDeep _ := rfl
  bindOk {_ _ _ _ _ _ x _ _ _} hx hk := by
    subst hx
    cases x with
    | error e => rfl
    | ok a => exact hk a rfl

end Relocation

/-- Tokens that differ in their places and in comments form programs with the same functions, up to
places, or none for the same reason. -/
theorem Program.ofTokens_relocated {σ : Relocation} {toks toks' : List Token}
    (h : toks'.filter (!·.isComment) = (toks.filter (!·.isComment)).map σ.token) :
    (∃ p p', Program.ofTokens toks = .ok p ∧ Program.ofTokens toks' = .ok p' ∧
        p'.functions = p.functions.map σ.function) ∨
      ∃ e, Program.ofTokens toks = .error e ∧ Program.ofTokens toks' = .error (σ.fault e) := by
  have hread : (Program.ofTokens toks').map Program.functions = σ.outcome
      (List.map σ.function) ((Program.ofTokens toks).map Program.functions) :=
    Program.ofTokens_revised σ.revision toks toks' h
  cases hp : Program.ofTokens toks with
  | error e =>
    rw [hp] at hread
    cases hp' : Program.ofTokens toks' with
    | error e' =>
      rw [hp'] at hread
      exact .inr ⟨e, rfl, congrArg Except.error (Except.error.inj hread)⟩
    | ok p' =>
      rw [hp'] at hread
      cases hread
  | ok p =>
    rw [hp] at hread
    cases hp' : Program.ofTokens toks' with
    | error e' =>
      rw [hp'] at hread
      cases hread
    | ok p' =>
      rw [hp'] at hread
      exact .inl ⟨p, p', rfl, rfl, Except.ok.inj hread⟩

end ContractCompiler
