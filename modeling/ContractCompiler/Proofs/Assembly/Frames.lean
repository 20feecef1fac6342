import Mathlib.Logic.Relation
import ContractCompiler.Proofs.Assembly.Depth
import ContractCompiler.Proofs.Lowering.Reachability

/-!
# Frames on one stack

When code runs, the frames of the functions that were called and have not returned yet lie on one
stack, each on top of that of its caller. The frame of a function starts below its arguments, which
its caller has left there. A return changes nothing on the stack, so what is left of a frame is part
of the caller's from then on.
-/

namespace ContractCompiler

/-- The function that an instruction calls. -/
def Instruction.callee? : Instruction → Option String
  | op .callsub [.label l] => some l
  | _ => none

/-- The frames of code that runs. -/
structure FrameStack where
  pc : Nat
  /-- How many slots there are on the stack. -/
  height : Nat
  /-- How many of them are below the frame of the function that runs. -/
  base : Nat
  /-- For each call that has not returned, innermost first, where to go on after it and how many
  slots are below the frame of the caller. -/
  callers : List (Nat × Nat)

namespace FrameStack

/-- The frames before the first instruction. -/
def start : FrameStack := ⟨0, 0, 0, []⟩

/-- What an instruction may do to the frames. Nothing is known of values, so a jump that depends on
one may go either way. -/
inductive Step (sigs : List (String × Signature)) (code : List Instruction) :
    FrameStack → FrameStack → Prop where
  | go {m : FrameStack} {i pc takes leaves} (hi : code[m.pc]? = some i) (hcall : i.callee? = none)
      (heffect : i.effect? sigs = some (takes, leaves)) (hedge : Edge code m.pc pc) :
    Step sigs code m { m with pc, height := m.height - takes + leaves }
  | call {m : FrameStack} {l sig pc} (hi : code[m.pc]? = some (.op .callsub [.label l]))
      (hsig : sigs.lookup l = some sig) (hlabel : code[pc]? = some (.label l)) :
    Step sigs code m ⟨pc, m.height, m.height - sig.arity, (m.pc + 1, m.base) :: m.callers⟩
  | ret {m : FrameStack} {operands back base callers}
      (hi : code[m.pc]? = some (.op .retsub operands))
      (hcallers : m.callers = (back, base) :: callers) :
    Step sigs code m ⟨back, m.height, base, callers⟩

end FrameStack

/-! ## Depths in a run -/

/-- What code calls are functions that are reached, and not the entry. -/
def CallsReached (p : Program) (main : Function) (code : List Instruction) : Prop :=
  ∀ l, .op .callsub [.label l] ∈ code → ∃ f ∈ p.reachable main, f.name = l ∧ f.name ≠ main.name

/-- What code calls is known. -/
theorem CallsReached.lookup {p : Program} {main : Function} {code : List Instruction}
    (h : CallsReached p main code) (hmain : p.function? main.name = some main) (l : String)
    (hl : .op .callsub [.label l] ∈ code) : ∃ sig, p.signatures.lookup l = some sig := by
  obtain ⟨f, hf, rfl, -⟩ := h l hl
  rw [p.lookup_signatures, (Program.reachable_reached hmain).found f hf]
  exact ⟨_, rfl⟩

namespace FrameStack

variable {p : Program} {main : Function} {code : List Instruction} {cap : Nat}

/-- The callers of a function whose frame starts at `base` have called it from a frame that is not
too deep, with its arguments on top. -/
inductive Waits (p : Program) (main : Function) (code : List Instruction) (cap : Nat) :
    Function → Nat → List (Nat × Nat) → Prop where
  | nil {f base} : Waits p main code cap f base []
  | cons {f g : Function} {pc depth base base' callers}
      (hi : code[pc]? = some (.op .callsub [.label f.name])) (hg : p.function? g.name = some g)
      (hreaches : Reaches p main code g pc depth) (hle : depth ≤ cap)
      (hbase : base + f.params.length = base' + depth) (h : Waits p main code cap g base' callers) :
    Waits p main code cap f base ((pc + 1, base') :: callers)

/-- The frame on top is that of a function which has got to its instruction with a frame that is
not too deep, and so have the callers. -/
def Sound (p : Program) (main : Function) (code : List Instruction) (cap : Nat) (m : FrameStack) :
    Prop :=
  ∃ f depth, p.function? f.name = some f ∧ Reaches p main code f m.pc depth ∧
    m.height = m.base + depth ∧ depth ≤ cap ∧ Waits p main code cap f m.base m.callers

theorem Sound.start (hmain : p.function? main.name = some main) :
    Sound p main code cap FrameStack.start :=
  ⟨main, 0, hmain, .entry, rfl, Nat.zero_le _, .nil⟩

/-- What an instruction does keeps the frames in order. -/
theorem Sound.step (hmain : p.function? main.name = some main) (hagree : DepthsAgree p main code)
    (hcapped : Capped p main code cap) (hcalls : CallsReached p main code) {m m' : FrameStack}
    (h : Sound p main code cap m) (hstep : Step p.signatures code m m') :
    Sound p main code cap m' := by
  obtain ⟨f, depth, hf, hreaches, hheight, hle, hwaits⟩ := h
  cases hstep with
  | @go i pc takes leaves hi hcall heffect hedge =>
    obtain ⟨_, _, heffect', henough⟩ := hagree.enough hreaches hi
    cases heffect.symm.trans heffect'
    have hcap := hcapped hreaches hi heffect
    refine ⟨f, _, hf, hreaches.step hi heffect hedge, ?_, by omega, hwaits⟩
    show m.height - takes + leaves = m.base + (depth - takes + leaves)
    omega
  | @call l sig pc hi hsig hlabel =>
    obtain ⟨g, hg, rfl, hne⟩ := hcalls l (List.mem_of_getElem? hi)
    have hfound := (Program.reachable_reached hmain).found g hg
    rw [p.lookup_signatures, hfound] at hsig
    cases hsig
    -- The arguments of the call are there, and they are the frame of the callee.
    obtain ⟨takes, leaves, heffect, henough⟩ := hagree.enough hreaches hi
    rw [Instruction.effect?, p.lookup_signatures, hfound] at heffect
    cases heffect
    have harity : g.signature.arity = g.params.length := rfl
    refine ⟨g, g.params.length, hfound, .subroutine hg hne hlabel, ?_, by omega,
      .cons hi hf hreaches hle ?_ hwaits⟩
    · show m.height = m.height - g.signature.arity + g.params.length
      omega
    · show m.height - g.signature.arity + g.params.length = m.base + depth
      omega
  | @ret operands back base callers hi hcallers =>
    obtain ⟨-, hreturns⟩ := hagree.returns hreaches hi
    rw [hcallers] at hwaits
    cases hwaits with
    | @cons _ g pc depth' _ _ _ hcall hg hcaller hle' hbase hrest =>
      -- What is left of the frame is the result, which the caller goes on with.
      have heffect : (Instruction.op .callsub [.label f.name]).effect? p.signatures =
          some (f.params.length, if f.returnsValue then 1 else 0) := by
        rw [Instruction.effect?, p.lookup_signatures, hf]
        rfl
      obtain ⟨_, _, heffect', henough⟩ := hagree.enough hcaller hcall
      cases heffect.symm.trans heffect'
      have hcap := hcapped hcaller hcall heffect
      refine ⟨g, _, hg, hcaller.step hcall heffect (.next hcall rfl), ?_, by omega, hrest⟩
      show m.height = base + (depth' - f.params.length + if f.returnsValue then 1 else 0)
      omega

/-- In every run, the frame of the function that runs is not too deep. -/
theorem depth_le (hmain : p.function? main.name = some main) (hagree : DepthsAgree p main code)
    (hcapped : Capped p main code cap) (hcalls : CallsReached p main code) {m : FrameStack}
    (h : Relation.ReflTransGen (Step p.signatures code) FrameStack.start m) :
    m.base ≤ m.height ∧ m.height - m.base ≤ cap := by
  have hsound : Sound p main code cap m := by
    induction h with
    | refl => exact .start hmain
    | tail _ hstep ih => exact ih.step hmain hagree hcapped hcalls hstep
  obtain ⟨f, depth, -, -, hheight, hle, -⟩ := hsound
  omega

end FrameStack

end ContractCompiler
