import ContractCompiler.Proofs.Assembly.Labels
import ContractCompiler.Proofs.Lowering.Emission

/-!
# Labels of emitted code

Code refers to labels that it defines itself and to functions that may be called, and to nothing
else.
-/

namespace ContractCompiler

open Builder (usedLabels definedLabels)

variable {code : List Instruction}

/-- Operations without operands have nothing to do with labels. -/
@[simp] theorem usedLabels_plain (codes : List Opcode) : usedLabels (plain codes) = [] := by
  simp [usedLabels, plain, Instruction.target?]

@[simp] theorem usedLabels_replicate (n : Nat) (o : Opcode) (v : UInt64) :
    usedLabels (List.replicate n (.op o [.uint v])) = [] := by
  simp [usedLabels, Instruction.target?]

@[simp] theorem usedLabels_replicate_plain (n : Nat) (o : Opcode) :
    usedLabels (List.replicate n (.op o [])) = [] := by
  simp [usedLabels, Instruction.target?]

@[simp] theorem usedLabels_replaceCode : ∀ n : Nat, usedLabels (Lower.replaceCode n) = []
  | 0 | 1 | _ + 2 => rfl

@[simp] theorem usedLabels_dropCode : ∀ n : Nat, usedLabels (dropCode n) = []
  | 0 | 1 => rfl
  | n + 2 => by simp [dropCode, Instruction.target?]

/-- The functions that the code of a setting may call. -/
def Setting.Outer (S : Setting) (f : String) : Prop :=
  S.callable f ∧ S.check.isEntry f = false

/-- The labels of an expression. -/
theorem Emits.closed {S : Setting} {names : List String} {cs : CheckState} {t : Nat} {item : Item}
    {left : Option StackType} (h : Emits S names cs t item code left) : Closed S.Outer code := by
  induction h with
  | uint | bytes | «local» | constant | argsNil | testsNil => exact .of_unused rfl
  | not _ ih | complement _ _ ih | cast _ _ _ _ _ _ ih | hash _ _ _ _ ih =>
    exact ih.append_unused (usedLabels_plain _)
  | assign _ _ _ _ ih =>
    exact (ih.append_unused (usedLabels_plain _)).append_unused (usedLabels_replaceCode _)
  | choice _ _ _ _ _ hc hl hr => exact hc.choice hl hr
  | typeTest _ _ _ _ _ _ _ ih | testType _ _ _ _ _ _ ih => exact ih.append_unused rfl
  | operator _ _ _ _ _ hl hr => exact (hl.append hr).append_unused (usedLabels_plain _)
  | test _ _ ht hv => exact (ht.append hv).append_unused (usedLabels_plain _)
  | @call cs t f sig args span code hf hsig harity hentry hcallable hargs ih =>
    refine ih.append fun l hl => .inr ?_
    obtain rfl : l = f := by simpa [Instruction.target?] using hl
    exact ⟨hcallable, hentry⟩
  | place _ _ _ _ ih => exact ih
  | readDirect hr => exact .of_unused (by simp [hr.target])
  | readIndexed hr _ _ _ _ ih => exact ih.append_unused (by simp [hr.target])
  | argsCons _ _ _ he hes => exact he.append hes
  | testsCons _ _ _ hv hvs => exact (hv.append_unused (usedLabels_plain _)).append hvs

/-- The labels of statements. -/
theorem Performs.closed {S : Setting} {names : List String} {cs : CheckState} {part : Part}
    {ends : Bool} (h : Performs S names cs part code ends) : Closed S.Outer code := by
  induction h with
  | nil | chainNone | throwLogged | throwSilent | finishNone => exact .of_unused rfl
  | last _ ih | switch _ _ ih | chainOtherwise _ ih => exact ih
  | next _ _ _ hs hss => exact hs.append hss
  | @block names cs ss span new code ends hnew _ ih =>
    refine (Closed.append (.of_unused (by simp)) ih).append_unused ?_
    cases ends <;> simp
  | discard he => exact he.closed.append_unused (by simp)
  | store _ _ he _ => exact he.closed.append_unused (usedLabels_replaceCode _)
  | ifThen hc _ _ hb => exact hc.closed.skip hb
  | ifElse hc _ _ _ _ ha hb => exact hc.closed.choice ha hb
  | whileDo hc _ _ hb =>
    intro l hl
    have := hc.closed l
    have := hb l
    simp [Instruction.target?, Instruction.label?] at hl ⊢
    grind
  | doWhile _ _ hc hb =>
    intro l hl
    have := hc.closed l
    have := hb l
    simp [Instruction.target?, Instruction.label?] at hl ⊢
    grind
  | chainLast hv _ hvs _ _ hb => exact (hv.closed.append hvs.closed).skip hb
  | chainCons hv _ hvs _ _ _ _ hb hrest => exact (hv.closed.append hvs.closed).choice hb hrest
  | exit he | finish _ he => exact he.closed.append_unused (usedLabels_plain _)
  | ret _ _ _ he =>
    exact (he.closed.append_unused (usedLabels_dropCode _)).append_unused (usedLabels_plain _)
  | retNone => exact .of_unused (by simp)

end ContractCompiler
