import ContractCompiler.Proofs.Assembly.Frames
import ContractCompiler.Proofs.Assembly.Machine

/-!
# Frames of the stack machine

Every run of the stack machine is one of frames: they are at the same instruction, the stack is as
high as it has values, and the places to return to are the same.
-/

namespace ContractCompiler

/-- The frames are those of the state of a machine. -/
structure FrameStack.Tracks (f : FrameStack) (m : Machine) : Prop where
  pc : f.pc = m.pc
  height : f.height = m.stack.length
  callers : f.callers.map Prod.fst = m.frames

namespace Machine

variable {sigs : List (String × Signature)} {code : List Instruction} {f : FrameStack}
  {m m' : Machine} {i : Instruction} {takes leaves : Nat} {stack : List Value}

/-- The frames can take a step from `f` that leads to those of `m'`. -/
def Followed (sigs : List (String × Signature)) (code : List Instruction) (f : FrameStack)
    (m' : Machine) : Prop :=
  ∃ f', FrameStack.Step sigs code f f' ∧ f'.Tracks m'

/-- An instruction that takes and leaves slots, after which control goes on somewhere. -/
theorem Followed.go (hf : f.Tracks m) (hi : code[m.pc]? = some i) (hcall : i.callee? = none)
    (heffect : i.effect? sigs = some (takes, leaves)) (hedge : Edge code m.pc m'.pc)
    (hlength : m.stack.length - takes + leaves = m'.stack.length)
    (hframes : m'.frames = m.frames) : Followed sigs code f m' := by
  rw [← hf.pc] at hi hedge
  refine ⟨_, .go hi hcall heffect hedge, rfl, ?_, hf.callers.trans hframes.symm⟩
  show f.height - takes + leaves = m'.stack.length
  rw [hf.height, hlength]

/-- An instruction that goes on with the next. -/
theorem Followed.next (hf : f.Tracks m) (hi : code[m.pc]? = some i) (hcall : i.callee? = none)
    (heffect : i.effect? sigs = some (takes, leaves)) (hfalls : i.fallsThrough = true)
    (h : m.goOn stack = .next m') (hlength : m.stack.length - takes + leaves = stack.length) :
    Followed sigs code f m' := by
  cases h
  exact .go hf hi hcall heffect (.next hi hfalls) hlength rfl

theorem jump_eq_next {l : String} {frames : List Nat} (h : m.jump code l stack frames = .next m') :
    code[m'.pc]? = some (.label l) ∧ m'.stack = stack ∧ m'.frames = frames := by
  unfold jump at h
  split at h
  case h_1 pc hfind =>
    cases h
    obtain ⟨hlt, hlabel, -⟩ := List.findIdx?_eq_some_iff_getElem.1 hfind
    exact ⟨List.getElem?_eq_some_iff.2 ⟨hlt, by simpa using hlabel⟩, rfl, rfl⟩
  case h_2 => cases h

/-- A jump. -/
theorem Followed.jump {l : String} (hf : f.Tracks m) (hi : code[m.pc]? = some i)
    (hcall : i.callee? = none) (heffect : i.effect? sigs = some (takes, leaves))
    (hjump : i.jump? = some l) (h : m.jump code l stack m.frames = .next m')
    (hlength : m.stack.length - takes + leaves = stack.length) : Followed sigs code f m' := by
  obtain ⟨hlabel, rfl, hframes⟩ := jump_eq_next h
  exact .go hf hi hcall heffect (.jump hi hjump hlabel) hlength hframes

/-- A jump that depends on the value on top. -/
theorem Followed.branchIf {c : Opcode} {zero : Bool} {operands : List Operand}
    (hc : c = .bz ∨ c = .bnz) (hf : f.Tracks m) (hi : code[m.pc]? = some (.op c operands))
    (h : m.branchIf code zero operands = .next m') : Followed sigs code f m' := by
  unfold Machine.branchIf at h
  split at h
  case h_2 => cases h
  case h_1 l v s hstack =>
    have hlength : m.stack.length - 1 + 0 = s.length := by rw [hstack]; rfl
    split at h
    · rcases hc with rfl | rfl <;> exact .jump hf hi rfl rfl rfl h hlength
    · rcases hc with rfl | rfl <;> exact .next hf hi rfl rfl rfl h hlength

/-- A call goes on at the label of the function that is called. -/
theorem Followed.call {l : String} {sig : Signature} (hf : f.Tracks m)
    (hi : code[m.pc]? = some (.op .callsub [.label l])) (hsig : sigs.lookup l = some sig)
    (h : m.jump code l m.stack ((m.pc + 1) :: m.frames) = .next m') :
    Followed sigs code f m' := by
  obtain ⟨hlabel, hstack, hframes⟩ := jump_eq_next h
  rw [← hf.pc] at hi
  refine ⟨_, .call hi hsig hlabel, rfl, ?_, ?_⟩
  · exact hf.height.trans (congrArg List.length hstack).symm
  · rw [hframes, List.map_cons, hf.callers, hf.pc]

/-- A return goes on after the call. -/
theorem Followed.ret {operands : List Operand} {pc : Nat} {frames : List Nat} (hf : f.Tracks m)
    (hi : code[m.pc]? = some (.op .retsub operands)) (hframes : m.frames = pc :: frames) :
    Followed sigs code f { m with pc, frames } := by
  have hcallers := hf.callers
  rw [hframes] at hcallers
  obtain ⟨⟨back, base⟩, callers, hlist, hback, hrest⟩ := List.map_eq_cons_iff.1 hcallers
  rw [← hf.pc] at hi
  exact ⟨_, .ret hi hlist, hback, hf.height, hrest⟩

/-- An operation on two integers takes them and leaves the result. -/
theorem Followed.compute {c : Opcode} {operands : List Operand} (hf : f.Tracks m)
    (hi : code[m.pc]? = some (.op c operands)) (h : m.compute c = .next m') :
    Followed sigs code f m' := by
  unfold Machine.compute at h
  split at h
  case h_2 => cases h
  case h_1 y x s hstack =>
    split at h
    case h_2 | h_3 => cases h
    case h_1 v hv =>
      obtain ⟨hcall, heffect, hfalls⟩ : (Instruction.op c operands).callee? = none ∧
          (Instruction.op c operands).effect? sigs = some (2, 1) ∧
          (Instruction.op c operands).fallsThrough = true := by
        cases c <;> first | exact ⟨rfl, rfl, rfl⟩ | cases hv
      exact .next hf hi hcall heffect hfalls h (by rw [hstack]; rfl)

/-- A comparison takes two values and leaves the result. -/
theorem Followed.compare {c : Opcode} {operands : List Operand} {wanted : Bool}
    (hc : c = .eq ∨ c = .ne) (hf : f.Tracks m) (hi : code[m.pc]? = some (.op c operands))
    (h : m.compare wanted = .next m') : Followed sigs code f m' := by
  unfold Machine.compare at h
  split at h
  case h_1 y x s hstack =>
    rcases hc with rfl | rfl <;> exact .next hf hi rfl rfl rfl h (by rw [hstack]; rfl)
  case h_2 y x s hstack =>
    rcases hc with rfl | rfl <;> exact .next hf hi rfl rfl rfl h (by rw [hstack]; rfl)
  case h_3 => cases h

/-- What an operation does to the machine, it does to the frames, if what it calls is known. -/
theorem exec_tracks {c : Opcode} {operands : List Operand} (hf : f.Tracks m)
    (hi : code[m.pc]? = some (.op c operands))
    (hcalls : ∀ l, .op .callsub [.label l] ∈ code → ∃ sig, sigs.lookup l = some sig)
    (h : m.exec code c operands = .next m') : Followed sigs code f m' := by
  unfold exec at h
  split at h
  -- constants
  case h_1 | h_2 =>
    split at h
    case h_2 => cases h
    case h_1 => exact .next hf hi rfl rfl rfl h rfl
  -- `pop`, `dup` and `swap`
  case h_3 | h_4 | h_5 =>
    split at h
    case h_2 => cases h
    case h_1 hstack => exact .next hf hi rfl rfl rfl h (by rw [hstack]; rfl)
  -- `dig`
  case h_6 =>
    split at h
    case h_2 => cases h
    case h_1 n =>
      split at h
      case h_2 => cases h
      case h_1 v hv =>
        have hlt := (List.getElem?_eq_some_iff.1 hv).1
        exact .next hf hi rfl rfl rfl h (by rw [List.length_cons]; omega)
  -- `cover`
  case h_7 =>
    split at h
    case h_2 => cases h
    case h_1 n v s hstack =>
      split at h
      case isFalse => cases h
      case isTrue hle =>
        refine .next hf hi rfl rfl rfl h ?_
        rw [hstack, List.length_append, List.length_take, List.length_cons, List.length_cons,
          List.length_drop]
        omega
  -- `uncover`
  case h_8 =>
    split at h
    case h_2 => cases h
    case h_1 n =>
      split at h
      case h_2 => cases h
      case h_1 v hv =>
        have hlt := (List.getElem?_eq_some_iff.1 hv).1
        refine .next hf hi rfl rfl rfl h ?_
        rw [List.length_cons, List.length_eraseIdx_of_lt hlt]
        omega
  -- `logicNot` and `bitNot`
  case h_9 | h_10 =>
    split at h
    case h_2 => cases h
    case h_1 hstack => exact .next hf hi rfl rfl rfl h (by rw [hstack]; rfl)
  case h_11 => exact .compare (.inl rfl) hf hi h
  case h_12 => exact .compare (.inr rfl) hf hi h
  -- `log`
  case h_13 =>
    split at h
    case h_2 => cases h
    case h_1 hstack =>
      cases h
      exact .go hf hi rfl rfl (.next hi rfl) (by rw [hstack]; rfl) rfl
  case h_14 => exact .branchIf (.inl rfl) hf hi h
  case h_15 => exact .branchIf (.inr rfl) hf hi h
  case h_16 =>
    split at h
    case h_2 => cases h
    case h_1 => exact .jump hf hi rfl rfl rfl h rfl
  case h_17 =>
    split at h
    case h_2 => cases h
    case h_1 l =>
      obtain ⟨sig, hsig⟩ := hcalls l (List.mem_of_getElem? hi)
      exact .call hf hi hsig h
  case h_18 =>
    split at h
    case h_2 => cases h
    case h_1 hframes =>
      cases h
      exact .ret hf hi hframes
  case h_19 =>
    split at h <;> cases h
  case h_20 => cases h
  case h_21 => exact .compute hf hi h

/-- What an instruction does to the machine, it does to the frames. -/
theorem step_tracks (hf : f.Tracks m)
    (hcalls : ∀ l, .op .callsub [.label l] ∈ code → ∃ sig, sigs.lookup l = some sig)
    (h : m.step code = .next m') : Followed sigs code f m' := by
  unfold step at h
  split at h
  case h_1 => cases h
  case h_2 hi => exact exec_tracks hf hi hcalls h
  case h_3 hi | h_4 hi => exact .next hf hi rfl rfl rfl h rfl

/-- The frames can follow a run of the machine. -/
theorem Steps.tracks {k : Nat} (h : Steps code k m m')
    (hcalls : ∀ l, .op .callsub [.label l] ∈ code → ∃ sig, sigs.lookup l = some sig)
    (hf : f.Tracks m) :
    ∃ f', Relation.ReflTransGen (FrameStack.Step sigs code) f f' ∧ f'.Tracks m' := by
  induction h generalizing f with
  | refl => exact ⟨f, .refl, hf⟩
  | step hstep _ ih =>
    obtain ⟨f₁, hfirst, hf₁⟩ := step_tracks hf hcalls hstep
    obtain ⟨f', hrest, hf'⟩ := ih hf₁
    exact ⟨f', .head hfirst hrest, hf'⟩

end Machine

end ContractCompiler
