import Mathlib.Algebra.Ring.Nat
import ContractCompiler.Assembly.Builder

/-!
# What a builder counts

While code is built, its operations, its labels and its cost are counted, and the greatest depth of
the stack is noted. All counters but the greatest depth can be read off the code.
-/

namespace ContractCompiler

namespace Instruction

/-- Whether an instruction is an operation. -/
def isOp : Instruction → Bool
  | op _ _ => true
  | label _ | comment _ => false

/-- Whether an instruction is a label. -/
def isLabel : Instruction → Bool
  | label _ => true
  | op _ _ | comment _ => false

/-- What an instruction costs in a version of the machine. -/
def costAt (version : Nat) : Instruction → Nat
  | op code _ => (code.costAt version).getD 0
  | label _ | comment _ => 0

end Instruction

namespace Builder

/-- What a builder builds for: a version of the machine and a mode. -/
def machine (b : Builder) : Nat × Mode := (b.version, b.mode)

/-- From one builder to another, `code` was appended and counted, along with so many subroutines,
and the greatest depth did not become smaller. -/
structure Grows (b b' : Builder) (code : List Instruction) (subroutines : Nat) : Prop where
  emitted : b'.emitted = code.reverse ++ b.emitted
  machine : b'.machine = b.machine
  ops : b'.metrics.ops = b.metrics.ops + code.countP Instruction.isOp
  labels : b'.metrics.labels = b.metrics.labels + code.countP Instruction.isLabel
  cost : b'.metrics.staticCost = b.metrics.staticCost +
    (code.map (Instruction.costAt b.version)).sum
  subroutines : b'.metrics.subroutines = b.metrics.subroutines + subroutines
  pruned : b'.metrics.pruned = b.metrics.pruned
  peak : b.metrics.peakDepth ≤ b'.metrics.peakDepth

namespace Grows

variable {b b₁ b' : Builder} {code code' : List Instruction} {n n' : Nat}

theorem refl : b.Grows b [] 0 :=
  ⟨rfl, rfl, rfl, rfl, rfl, rfl, rfl, Nat.le_refl _⟩

theorem trans (h : b.Grows b₁ code n) (h' : b₁.Grows b' code' n') :
    b.Grows b' (code ++ code') (n + n') where
  emitted := by rw [h'.emitted, h.emitted, List.reverse_append, List.append_assoc]
  machine := h'.machine.trans h.machine
  ops := by rw [h'.ops, h.ops, List.countP_append, Nat.add_assoc]
  labels := by rw [h'.labels, h.labels, List.countP_append, Nat.add_assoc]
  cost := by
    have hversion : b₁.version = b.version := congrArg Prod.fst h.machine
    rw [h'.cost, h.cost, hversion, List.map_append, List.sum_append, Nat.add_assoc]
  subroutines := by rw [h'.subroutines, h.subroutines, Nat.add_assoc]
  pruned := h'.pruned.trans h.pruned
  peak := Nat.le_trans h.peak h'.peak

/-- A builder that differs in its stack and in what labels are named next. -/
theorem of_stack (b : Builder) (stack : StackShape) (nextLabel : Nat) :
    b.Grows { b with stack, nextLabel } [] 0 :=
  ⟨rfl, rfl, rfl, rfl, rfl, rfl, rfl, Nat.le_refl _⟩

theorem of_depth (b : Builder) (stack : StackShape) (depth : Nat) :
    b.Grows { b with stack, metrics := b.metrics.setDepth depth } [] 0 :=
  ⟨rfl, rfl, rfl, rfl, rfl, rfl, rfl, Nat.le_max_right _ _⟩

theorem of_pushed {code : Opcode} {cost : Nat} (operands : List Operand) (stack : StackShape)
    (hcost : code.costAt b.version = some cost) :
    b.Grows { b with
      emitted := .op code operands :: b.emitted
      stack
      metrics := (b.metrics.addOp cost).setDepth stack.length } [.op code operands] 0 where
  emitted := rfl
  machine := rfl
  ops := rfl
  labels := rfl
  cost := by
    rw [List.map_singleton, List.sum_singleton, Instruction.costAt, hcost]
    rfl
  subroutines := rfl
  pruned := rfl
  peak := Nat.le_max_right _ _

end Grows

end Builder

end ContractCompiler
