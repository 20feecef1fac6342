import ContractCompiler.Proofs.Assembly.Counting
import ContractCompiler.Proofs.Assembly.Depth

/-!
# What a step of lowering may do

A step of lowering is specified by what holds after it, and by the faults that it may fail with. The
faults that tell of a mistake in the generator itself are ruled out by most specifications.
-/

namespace ContractCompiler

/-- Whether a fault tells of a mistake in the generator and not of one in the source. -/
def CodeFault.isInternal : CodeFault → Bool
  | operandCount .. | needsInteger .. | underflow .. | callUnderflow .. | unbalancedBranches ..
  | undefinedLabel .. | noBlock | unbalancedBlock .. | missingEntry .. | emptyCase
  | throwNeedsLiteral | exitNeedsValue | slotAboveTop | slotOnTop | noSlot ..
  | notPlainVariable .. | rangeOperator .. | noOpcode .. | noBytesOpcode .. | missingArm ..
  | castTarget .. | unknownFunction .. | argumentWithoutValue .. | hashArguments => true
  | unavailable .. | signatureOnly .. | applicationOnly .. | operandType .. | duplicateLabel ..
  | noProgram | tooManyBelow .. | slotTooDeep .. | noBytesForm .. | typeTest ..
  | unknownType .. | noCast .. | notHashAlgorithm .. | cannotLoad .. | argumentCountMode
  | stated .. => false

/-- Whether an operation copies or moves slots. -/
def Opcode.moves : Opcode → Bool
  | .dup | .dup2 | .dig | .swap | .cover | .uncover => true
  | _ => false

/-- Whether an operation takes and leaves slots of fixed types, and control goes on after it. -/
def Opcode.isPlain : Opcode → Bool
  | .bz | .bnz | .branch | .callsub | .err | .exit | .retsub => false
  | code => !code.moves

namespace StackEffect

variable {op : Opcode} {operands : List Operand} {stack stack' : StackShape}

theorem peek_eq_ok_iff {n : Nat} {t : StackType} : peek op n stack = .ok t ↔ stack[n]? = some t := by
  unfold peek
  split <;> simp [*]

theorem peek_eq_ok_lt {n : Nat} {t : StackType} (h : peek op n stack = .ok t) :
    n < stack.length :=
  (List.getElem?_eq_some_iff.1 (peek_eq_ok_iff.1 h)).1

/-- The integer that an operation takes as its only operand. -/
theorem depthOperand_eq_ok {n : Nat} (hlen : operands.length = 1)
    (h : depthOperand op operands = .ok n) : ∃ v : UInt64, operands = [.uint v] ∧ v.toNat = n := by
  obtain ⟨o, rfl⟩ := List.length_eq_one_iff.1 hlen
  cases o with
  | uint v =>
    cases h
    exact ⟨v, rfl, rfl⟩
  | bytes | label | field => cases h

theorem replace_eq_ok (h : replace op stack = .ok stack') :
    op.pops.length ≤ stack.length ∧ stack' = op.pushes.reverse ++ stack.drop op.pops.length := by
  unfold replace at h
  dsimp only at h
  split at h
  case isTrue => cases h
  case isFalse hle =>
    cases hcheck : checkTypes op op.pops (stack.take op.pops.length).reverse 1 with
    | error fault =>
      rw [hcheck] at h
      cases h
    | ok _ =>
      rw [hcheck] at h
      cases h
      exact ⟨Nat.le_of_not_lt hle, rfl⟩

end StackEffect

namespace Lower

variable {α β : Type} {F : CodeFault → Prop} {env : LowerEnv} {s : LowerState}
  {post : α → LowerState → Prop}

/-- A step ends in a context of which `post` holds, or fails with a fault of which `F` holds. -/
def Ends (F : CodeFault → Prop) (x : Lower α) (env : LowerEnv) (s : LowerState)
    (post : α → LowerState → Prop) : Prop :=
  match x env s with
  | .ok a s' => post a s'
  | .error d _ => ∃ fault, d = .code fault none ∧ F fault

/-! ## Putting steps together -/

theorem Ends.pure {a : α} (h : post a s) : Ends F (Pure.pure a) env s post := h

theorem run_bind (x : Lower α) (f : α → Lower β) (env : LowerEnv) (s : LowerState) :
    (x >>= f) env s =
      match x env s with
      | .ok a s' => f a env s'
      | .error d s' => .error d s' := by
  show EStateM.bind (x env) (fun a => f a env) s = _
  unfold EStateM.bind
  cases x env s <;> rfl

theorem Ends.bind {x : Lower α} {f : α → Lower β} {post : β → LowerState → Prop}
    (h : x.Ends F env s fun a s' => (f a).Ends F env s' post) : (x >>= f).Ends F env s post := by
  unfold Ends at h ⊢
  rw [run_bind]
  cases hx : x env s with
  | ok a s' =>
    rw [hx] at h
    exact h
  | error d s' =>
    rw [hx] at h
    exact h

/-- A weaker specification follows. -/
theorem Ends.mono {x : Lower α} {post' : α → LowerState → Prop} (h : x.Ends F env s post)
    (himp : ∀ a s', post a s' → post' a s') : x.Ends F env s post' := by
  unfold Ends at h ⊢
  cases hx : x env s with
  | ok a s' =>
    rw [hx] at h
    exact himp a s' h
  | error d s' =>
    rw [hx] at h
    exact h

theorem Ends.fail {fault : CodeFault} (h : F fault) :
    (Lower.fail fault : Lower α).Ends F env s post :=
  ⟨fault, rfl, h⟩

/-- A guard that fails with a fault: it is enough that the fault is admitted, or that the guard
never fails. -/
theorem Ends.guard {c : Prop} [Decidable c] {fault : CodeFault} {x : Lower α}
    (hc : c → F fault) (h : ¬c → x.Ends F env s post) :
    (if c then (do let _ ← (Lower.fail fault : Lower Unit); x) else x).Ends F env s post := by
  split
  case isTrue hp => exact .bind (.fail (hc hp))
  case isFalse hn => exact h hn

/-- Naming the construct that is lowered changes nothing else. -/
theorem Ends.within {label : String} {x : Lower α}
    (h : x.Ends F env { s with site := label :: s.site }
      fun a s' => post a { s' with site := s.site }) :
    Ends F (Lower.within label x) env s post := by
  unfold Ends at h ⊢
  unfold Lower.within
  cases hx : x env { s with site := label :: s.site } with
  | ok a s' =>
    rw [hx] at h
    exact h
  | error d s' =>
    rw [hx] at h
    exact h

/-! ## Looking at the context -/

theorem Ends.builder {post : Builder → LowerState → Prop} (h : post s.builder s) :
    Lower.builder.Ends F env s post := h

theorem Ends.get {post : LowerState → LowerState → Prop} (h : post s s) :
    (MonadState.get : Lower LowerState).Ends F env s post := h

theorem Ends.read {post : LowerEnv → LowerState → Prop} (h : post env s) :
    (MonadReader.read : Lower LowerEnv).Ends F env s post := h

theorem Ends.update {f : LowerState → LowerState} {post : Unit → LowerState → Prop}
    (h : post () (f s)) : Ends F (modify f) env s post := h

theorem Ends.slot? {name : String} {post : Option Slot → LowerState → Prop}
    (h : post s.slots[name]? s) : (Lower.slot? name).Ends F env s post := h

end Lower

/-! ## Building code -/

namespace LowerState

/-- The greatest depth that the stack has had. -/
def peak (s : LowerState) : Nat := s.builder.metrics.peakDepth

/-- From one context to the next, some code was appended and the stack became `stack`; all else
that matters for code stayed as it was. -/
structure Next (s s' : LowerState) (code : List Instruction) (stack : StackShape) : Prop extends
    s.builder.Grows s'.builder code 0 where
  stack : s'.builder.stack = stack
  slots : s'.slots = s.slots
  blocks : s'.blocks = s.blocks
  main : s'.main = s.main

/-- The code that was appended is straight: it is gone through from one depth of the stack to the
other. -/
structure Goes (s s' : LowerState) (code : List Instruction) (stack : StackShape) : Prop extends
    Next s s' code stack where
  scans : ∀ {sigs cap back}, s'.peak ≤ cap →
    Scannable (.heights sigs cap back) (some s.builder.depth) code (some s'.builder.depth)

variable {s s' s'' : LowerState} {code code' : List Instruction} {stack stack' : StackShape}

theorem Next.of_grows {b : Builder} (h : s.builder.Grows b code 0) :
    s.Next { s with builder := b } code b.stack :=
  ⟨h, rfl, rfl, rfl, rfl⟩

theorem Next.trans (h : s.Next s' code stack) (h' : s'.Next s'' code' stack') :
    s.Next s'' (code ++ code') stack' :=
  ⟨h.toGrows.trans h'.toGrows, h'.stack, h'.slots.trans h.slots, h'.blocks.trans h.blocks,
    h'.main.trans h.main⟩

theorem Goes.refl : s.Goes s [] s.builder.stack :=
  ⟨⟨.refl, rfl, rfl, rfl, rfl⟩, fun _ => .nil⟩

theorem Goes.trans (h : s.Goes s' code stack) (h' : s'.Goes s'' code' stack') :
    s.Goes s'' (code ++ code') stack' where
  toNext := h.toNext.trans h'.toNext
  scans := fun hcap => (h.scans (Nat.le_trans h'.peak hcap)).append (h'.scans hcap)

/-- One instruction after which control goes on. -/
theorem Next.goes {i : Instruction} {takes leaves : Nat} (h : s.Next s' [i] stack)
    (hi : ∀ sigs, i.Steps sigs takes leaves) (henough : takes ≤ s.builder.depth)
    (hdepth : stack.length = s.builder.depth - takes + leaves)
    (hnoted : stack.length ≤ s'.peak) : s.Goes s' [i] stack where
  toNext := h
  scans := by
    intro sigs cap back hcap
    have hnext : s'.builder.depth = stack.length := congrArg List.length h.stack
    exact (hi sigs).scans henough (hnext.trans hdepth) (hnext ▸ Nat.le_trans hnoted hcap)

end LowerState

/-- An operation that is not special in any way has the effect that its types tell. -/
theorem Opcode.isPlain_steps {code : Opcode} (h : code.isPlain = true) (operands : List Operand)
    (sigs : List (String × Signature)) :
    (Instruction.op code operands).Steps sigs code.pops.length code.pushes.length := by
  cases code <;> first | exact ⟨rfl, rfl, rfl, rfl⟩ | cases h

theorem Opcode.moves_of_isPlain {code : Opcode} (h : code.isPlain = true) : code.moves = false := by
  cases code <;> first | rfl | cases h

namespace Lower

variable {F : CodeFault → Prop} {env : LowerEnv} {s : LowerState} {post : Unit → LowerState → Prop}

/-- A step of building that cannot fail. -/
theorem Ends.build_modify {f : Builder → Builder}
    (h : post () { s with builder := f s.builder }) :
    (build (modify f : Build Unit)).Ends F env s post := h

theorem Ends.label {name : String}
    (h : ∀ s', s.Next s' [.label name] s.builder.stack → post () s') :
    (build (Builder.label name)).Ends F env s post :=
  .build_modify (h _ (.of_grows ⟨rfl, rfl, rfl, rfl, rfl, rfl, rfl, Nat.le_refl _⟩))

theorem Ends.comment {text : String}
    (h : ∀ s', s.Goes s' [.comment text] s.builder.stack → post () s') :
    (build (Builder.comment text)).Ends F env s post := by
  refine .build_modify (h _ ⟨.of_grows ⟨rfl, rfl, rfl, rfl, rfl, rfl, rfl, Nat.le_refl _⟩, ?_⟩)
  intro sigs cap back _
  exact .op (i := .comment text) (D := .heights sigs cap back) rfl
    ⟨0, 0, rfl, Nat.zero_le _, rfl, Nat.le_max_left _ _, nofun⟩ rfl

theorem Ends.restore {stack : StackShape} (h : ∀ s', s.Next s' [] stack → post () s') :
    (build (Builder.restore stack)).Ends F env s post :=
  .build_modify (h _ (.of_grows (.of_stack _ _ _)))

theorem Ends.count {f : Metrics → Metrics}
    (hf : s.builder.Grows { s.builder with metrics := f s.builder.metrics } [] 0)
    (h : ∀ s', s.Next s' [] s.builder.stack → post () s') :
    (build (Builder.count f)).Ends F env s post :=
  .build_modify (h _ (.of_grows hf))

theorem Ends.forget {depth : Nat} (h : ∀ stack s', s.Next s' [] stack → post () s') :
    (build (Builder.forget depth)).Ends F env s post :=
  .build_modify (h _ _ (.of_grows (.of_stack _ _ _)))

theorem Ends.freshLabel {purpose : String} {post : String → LowerState → Prop}
    (h : ∀ name s', s.Next s' [] s.builder.stack → post name s') :
    (build (Builder.freshLabel purpose)).Ends F env s post :=
  h _ _ (.of_grows (.of_stack s.builder s.builder.stack (s.builder.nextLabel + 1)))

theorem Ends.retypeTop {t k : StackType} {rest : StackShape} (hs : s.builder.stack = k :: rest)
    (h : ∀ s', s.Next s' [] (t :: rest) → post () s') :
    (build (Builder.retypeTop t)).Ends F env s post := by
  refine .build_modify (h _ ?_)
  rw [hs]
  exact .of_grows (.of_stack _ _ _)

/-- A step of building that may fail. -/
theorem Ends.build_step {f : Builder → Except CodeFault Builder}
    (hok : ∀ b, f s.builder = .ok b → post () { s with builder := b })
    (herr : ∀ fault, f s.builder = .error fault → F fault) :
    (build (Builder.step f)).Ends F env s post := by
  unfold Ends build Builder.step
  cases hf : f s.builder with
  | ok b => exact hok b hf
  | error fault => exact ⟨fault, rfl, herr fault hf⟩

theorem Ends.merge {other : StackShape} (hlen : other.length = s.builder.stack.length)
    (h : ∀ s', s.Next s' [] (List.zipWith StackType.join s.builder.stack other) → post () s') :
    (build (Builder.merge other)).Ends F env s post := by
  refine .build_step ?_ ?_ <;> intro _ hf <;> rw [if_neg (not_not_intro hlen)] at hf
  · cases hf
    exact h _ (.of_grows (.of_stack _ _ _))
  · cases hf

theorem Ends.callEffect {args : Nat} {returnsValue : Bool}
    (hlen : args ≤ s.builder.stack.length)
    (h : ∀ s', s.Next s' []
        ((if returnsValue then [.any] else []) ++ s.builder.stack.drop args) →
      s'.builder.depth ≤ s'.peak → post () s') :
    (build (Builder.callEffect args returnsValue)).Ends F env s post := by
  refine .build_step ?_ ?_ <;> intro _ hf <;> rw [if_neg (Nat.not_lt.2 hlen)] at hf
  · cases hf
    cases returnsValue <;>
      exact h _ (.of_grows (.of_depth _ _ _)) (Nat.le_max_left _ _)
  · cases hf

/-! ## Operations -/

/-- Whatever is wrong with the types of operands is the fault of the source. -/
theorem isInternal_of_checkTypes {code : Opcode} {wanted slots : List StackType} {index : Nat}
    {fault : CodeFault} (h : StackEffect.checkTypes code wanted slots index = .error fault) :
    fault.isInternal = false := by
  fun_induction StackEffect.checkTypes code wanted slots index with
  | case1 _ _ _ _ _ _ ih => exact ih h
  | case2 => cases h; rfl
  | case3 => cases h

/-- Whatever the mode does not admit is the fault of the source. -/
theorem isInternal_of_checkMode {code : Opcode} {mode : Mode} {fault : CodeFault}
    (h : Builder.checkMode code mode = .error fault) : fault.isInternal = false := by
  unfold Builder.checkMode at h
  split at h
  case h_1 => cases h
  case h_2 => split at h <;> cases h; rfl
  case h_3 => split at h <;> cases h; rfl

/-- An operation is appended if the version and the mode admit it, it has the right number of operands
and its effect on the stack is defined. -/
theorem pushed_match (b : Builder) (code : Opcode) (operands : List Operand) :
    b.pushed code operands =
      match code.costAt b.version with
      | none => .error (.unavailable code b.version)
      | some cost =>
        match Builder.checkMode code b.mode with
        | .error fault => .error fault
        | .ok _ =>
          if operands.length = code.params.length then
            match StackEffect.apply code operands b.stack with
            | .error fault => .error fault
            | .ok stack =>
              .ok { b with
                emitted := .op code operands :: b.emitted
                stack
                metrics := (b.metrics.addOp cost).setDepth stack.length }
          else .error (.operandCount code operands.length) := by
  unfold Builder.pushed
  cases code.costAt b.version with
  | none => rfl
  | some cost =>
    cases Builder.checkMode code b.mode with
    | error fault => simp [bind, Except.bind]
    | ok _ =>
      by_cases hparams : operands.length = code.params.length
      · cases StackEffect.apply code operands b.stack <;>
          simp [hparams, bind, Except.bind, pure, Except.pure]
      · simp [hparams, bind, Except.bind, throw, throwThe, MonadExceptOf.throw]

/-- An operation that was appended exists in the version and is admitted in the mode, has as many
operands as parameters, and its effect on the stack is defined. -/
theorem pushed_eq_ok {b b' : Builder} {code : Opcode} {operands : List Operand}
    (h : b.pushed code operands = .ok b') :
    ∃ cost stack, code.costAt b.version = some cost ∧ Builder.checkMode code b.mode = .ok () ∧
      operands.length = code.params.length ∧
      StackEffect.apply code operands b.stack = .ok stack ∧
      b' = { b with
        emitted := .op code operands :: b.emitted
        stack
        metrics := (b.metrics.addOp cost).setDepth stack.length } := by
  rw [pushed_match] at h
  split at h
  case h_1 => cases h
  case h_2 cost hcost =>
    split at h
    case h_1 => cases h
    case h_2 hmode =>
      split at h
      case isFalse => cases h
      case isTrue hparams =>
        split at h
        case h_1 => cases h
        case h_2 stack hstack =>
          cases h
          exact ⟨cost, stack, hcost, hmode, hparams, hstack, rfl⟩

/-- Appends an operation. -/
theorem Ends.op {code : Opcode} {operands : List Operand}
    (herr : ∀ fault, s.builder.pushed code operands = .error fault → F fault)
    (h : ∀ stack s', StackEffect.apply code operands s.builder.stack = .ok stack →
      s.Next s' [.op code operands] stack → stack.length ≤ s'.peak → post () s') :
    (Lower.op code operands).Ends F env s post := by
  refine .build_step (fun b hb => ?_) herr
  obtain ⟨_, stack, hcost, -, -, hstack, rfl⟩ := pushed_eq_ok hb
  exact h stack _ hstack (.of_grows (.of_pushed operands stack hcost)) (Nat.le_max_left _ _)

/-- What is wrong with an operation is the fault of the source, if that holds of its effect on the
stack. -/
theorem isInternal_of_pushed {b : Builder} {code : Opcode} {operands : List Operand}
    {fault : CodeFault} (hparams : operands.length = code.params.length)
    (herr : ∀ fault, StackEffect.apply code operands b.stack = .error fault →
      fault.isInternal = false)
    (h : b.pushed code operands = .error fault) : fault.isInternal = false := by
  simp only [pushed_match, if_pos hparams] at h
  split at h
  case h_1 => cases h; rfl
  split at h
  case h_1 hmode =>
    cases h
    exact isInternal_of_checkMode hmode
  split at h
  case h_1 hstack =>
    cases h
    exact herr _ hstack
  case h_2 => cases h

/-- All other operations take and leave slots of fixed types. -/
theorem apply_eq_replace {code : Opcode} (h : code.moves = false) (operands : List Operand)
    (stack : StackShape) :
    StackEffect.apply code operands stack = StackEffect.replace code stack := by
  cases code <;> first | rfl | cases h

/-- The effect of such an operation on slots which are there. -/
theorem apply_eq_checkTypes {code : Opcode} (h : code.moves = false) (operands : List Operand)
    {stack : StackShape} (hlen : code.pops.length ≤ stack.length) :
    StackEffect.apply code operands stack =
      match StackEffect.checkTypes code code.pops (stack.take code.pops.length).reverse 1 with
      | .error fault => .error fault
      | .ok _ => .ok (code.pushes.reverse ++ stack.drop code.pops.length) := by
  rw [apply_eq_replace h]
  unfold StackEffect.replace
  rw [if_neg (Nat.not_lt.2 hlen)]
  cases StackEffect.checkTypes code code.pops (stack.take code.pops.length).reverse 1 <;> rfl

/-- All faults that an operation can have are such that `F` holds of them. -/
def Granted (F : CodeFault → Prop) (s : LowerState) (code : Opcode) (operands : List Operand) :
    Prop :=
  ∀ fault, s.builder.pushed code operands = .error fault → F fault

/-- Appends an operation that is granted and takes slots which are there. -/
theorem Ends.taking {code : Opcode} {operands : List Operand}
    (hG : Granted F s code operands) (hmoves : code.moves = false)
    (hlen : code.pops.length ≤ s.builder.stack.length)
    (h : ∀ s', s.Next s' [.op code operands]
      (code.pushes.reverse ++ s.builder.stack.drop code.pops.length) →
      (code.isPlain = true → s.Goes s' [.op code operands]
        (code.pushes.reverse ++ s.builder.stack.drop code.pops.length)) → post () s') :
    (Lower.op code operands).Ends F env s post := by
  refine .op hG fun stack s' hst hnext hnoted => ?_
  rw [apply_eq_checkTypes hmoves operands hlen] at hst
  split at hst
  case h_1 => cases hst
  case h_2 =>
    cases hst
    refine h s' hnext fun hplain => hnext.goes (code.isPlain_steps hplain operands) hlen ?_ hnoted
    rw [List.length_append, List.length_reverse, List.length_drop, Nat.add_comm]
    rfl

/-- What is wrong with an operation that takes slots which are there is the fault of the
source. -/
theorem Granted.meets {code : Opcode} {operands : List Operand} (hmoves : code.moves = false)
    (hparams : operands.length = code.params.length)
    (hlen : code.pops.length ≤ s.builder.stack.length) :
    Granted (fun fault => fault.isInternal = false) s code operands := by
  refine fun fault => isInternal_of_pushed hparams fun fault hf => ?_
  rw [apply_eq_checkTypes hmoves operands hlen] at hf
  split at hf
  case h_1 hcheck =>
    cases hf
    exact isInternal_of_checkTypes hcheck
  case h_2 => cases hf

/-! ## Operations on slots of any type -/

/-- Whether an operation takes slots of any type and may be used in any mode. -/
def takesAny (code : Opcode) : Bool :=
  code.pops.all (· == .any) && code.mode == .any

/-- The faults that `F` holds of include what a machine can have against operations that take slots
of any type. -/
structure Permits (F : CodeFault → Prop) (machine : Nat × Mode) : Prop where
  unavailable : ∀ code, takesAny code = true → code.costAt machine.1 = none →
    F (.unavailable code machine.1)

/-- The faults that `F` holds of include those of a frame that is too deep as well. -/
structure Spares (F : CodeFault → Prop) (machine : Nat × Mode) : Prop extends
    Permits F machine where
  slotTooDeep : ∀ n, F (.slotTooDeep n)
  tooManyBelow : ∀ n, F (.tooManyBelow n)

/-- All of these are the fault of the source. -/
theorem Spares.meets {machine : Nat × Mode} :
    Spares (fun fault => fault.isInternal = false) machine :=
  ⟨⟨fun _ _ _ => rfl⟩, fun _ => rfl, fun _ => rfl⟩

theorem checkTypes_eq_ok {code : Opcode} {wanted slots : List StackType} {index : Nat}
    (h : wanted.all (· == .any) = true) :
    StackEffect.checkTypes code wanted slots index = .ok () := by
  fun_induction StackEffect.checkTypes code wanted slots index with
  | case1 want wanted _ slots index _ ih =>
    rw [List.all_cons, Bool.and_eq_true] at h
    exact ih h.2
  | case2 want wanted found slots index hnot =>
    rw [List.all_cons, Bool.and_eq_true, beq_iff_eq] at h
    rw [h.1] at hnot
    exact absurd rfl hnot
  | case3 => rfl

/-- An operation that takes slots of any type can only be refused for its version, unless its effect
on the stack is not defined. -/
theorem Permits.granted {code : Opcode} {operands : List Operand} {stack : StackShape}
    (hF : Permits F s.builder.machine) (hany : takesAny code = true)
    (hparams : operands.length = code.params.length)
    (happly : StackEffect.apply code operands s.builder.stack = .ok stack) :
    Granted F s code operands := by
  intro fault h
  have hmode : code.mode = .any := by
    rw [takesAny, Bool.and_eq_true, beq_iff_eq] at hany
    exact hany.2
  simp only [pushed_match, if_pos hparams, Builder.checkMode, hmode, happly] at h
  split at h
  case h_1 hcost =>
    cases h
    exact hF.unavailable code hany hcost
  case h_2 => cases h

/-- Appends an operation that takes slots of any type, which are there. -/
theorem Ends.passing {code : Opcode} {operands : List Operand} (hF : Permits F s.builder.machine)
    (hany : takesAny code = true) (hplain : code.isPlain = true)
    (hparams : operands.length = code.params.length)
    (hlen : code.pops.length ≤ s.builder.stack.length)
    (h : ∀ s', s.Goes s' [.op code operands]
      (code.pushes.reverse ++ s.builder.stack.drop code.pops.length) → post () s') :
    (Lower.op code operands).Ends F env s post := by
  have hmoves := code.moves_of_isPlain hplain
  have hpops : code.pops.all (· == .any) = true := by
    rw [takesAny, Bool.and_eq_true] at hany
    exact hany.1
  have happly := apply_eq_checkTypes hmoves operands hlen
  rw [checkTypes_eq_ok hpops] at happly
  exact .taking (hF.granted hany hparams happly) hmoves hlen fun s' _ hgoes => h s' (hgoes hplain)

/-- Appends an operation that moves slots which are there. -/
theorem Ends.moving {code : Opcode} {operands : List Operand} (stack : StackShape)
    (hF : Permits F s.builder.machine) (hany : takesAny code = true)
    (hparams : operands.length = code.params.length)
    (happly : StackEffect.apply code operands s.builder.stack = .ok stack)
    (h : ∀ s', s.Next s' [.op code operands] stack → stack.length ≤ s'.peak → post () s') :
    (Lower.op code operands).Ends F env s post := by
  refine .op (hF.granted hany hparams happly) fun stack' s' hst hnext hnoted => ?_
  rw [happly] at hst
  cases hst
  exact h s' hnext hnoted

/-- Takes slots off a stack that has them. -/
theorem Ends.popMany {n : Nat} (hF : Permits F s.builder.machine)
    (hlen : n ≤ s.builder.stack.length)
    (h : ∀ s', s.Goes s' (List.replicate n (.op .pop [])) (s.builder.stack.drop n) →
      post () s') :
    (Lower.popMany n).Ends F env s post := by
  induction n generalizing s with
  | zero => exact .pure (h s .refl)
  | succ n ih =>
    refine .bind (.passing hF rfl rfl rfl (Nat.le_trans (Nat.succ_le_succ n.zero_le) hlen) ?_)
    intro s₁ h₁
    have hdrop : s₁.builder.stack = s.builder.stack.drop 1 := h₁.stack
    refine ih (h₁.machine ▸ hF) (by rw [hdrop, List.length_drop]; omega) fun s₂ h₂ => h s₂ ?_
    have htrans := h₁.trans h₂
    rw [hdrop, List.drop_drop, Nat.add_comm] at htrans
    exact htrans

end Lower

end ContractCompiler
