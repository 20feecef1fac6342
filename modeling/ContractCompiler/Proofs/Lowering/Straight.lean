import ContractCompiler.Proofs.Assembly.Depth
import ContractCompiler.Proofs.Lowering.Operations

/-!
# The code of operations

The code of an operation is straight and works on the values on top of the frame: it puts some
values in the place of others and touches nothing below them.
-/

namespace ContractCompiler

variable {sigs : List (String × Signature)}

theorem uintOpcode?_turns {o : BinaryOperator} {c : Opcode} (h : o.uintOpcode? = some c) :
    Turns sigs 2 [.op c []] 1 := by
  cases o <;> cases h <;> exact .one ⟨rfl, rfl, rfl, rfl⟩ rfl

theorem bytesOpcode?_turns {o : BinaryOperator} {c : Opcode} (h : o.bytesOpcode? = some c) :
    Turns sigs 2 [.op c []] 1 := by
  cases o <;> cases h <;> exact .one ⟨rfl, rfl, rfl, rfl⟩ rfl

theorem plain_append (codes codes' : List Opcode) :
    plain (codes ++ codes') = plain codes ++ plain codes' :=
  List.map_append

namespace Turns

theorem itob : Turns sigs 1 [.op .itob []] 1 := .one ⟨rfl, rfl, rfl, rfl⟩ rfl

theorem swap : Turns sigs 2 [.op .swap []] 2 := .one ⟨rfl, rfl, rfl, rfl⟩ rfl

theorem dup : Turns sigs 1 [.op .dup []] 2 := .one ⟨rfl, rfl, rfl, rfl⟩ rfl

theorem push {operands : List Operand} : Turns sigs 0 [.op .pushint operands] 1 :=
  .one ⟨rfl, rfl, rfl, rfl⟩ rfl

theorem pushBytes {operands : List Operand} : Turns sigs 0 [.op .pushbytes operands] 1 :=
  .one ⟨rfl, rfl, rfl, rfl⟩ rfl

/-- The operations of an operator put one value in place of two. -/
theorem operator {o : BinaryOperator} {l r : StackType} (h : o.Takes l r) :
    Turns sigs 2 (plain (o.emitted l r)) 1 := by
  have huint : Turns sigs 2 (plain o.uintOpcode?.toList) 1 := by
    obtain ⟨c, hc⟩ := Option.isSome_iff_exists.1 h.1
    rw [hc]
    exact uintOpcode?_turns hc
  unfold BinaryOperator.emitted
  split
  case isTrue => exact huint
  case isFalse hbytes =>
    split
    case isTrue => exact huint
    case isFalse =>
      have hsome : l = .bytes ∨ r = .bytes := by
        by_cases hl : l = .bytes
        · exact .inl hl
        · exact .inr (Decidable.not_not.1 fun hr => hbytes ⟨hl, hr⟩)
      obtain ⟨c, hc⟩ := Option.isSome_iff_exists.1
        (BinaryOperator.bytesOpcode?_isSome h.1 (h.2 hsome))
      have hleft : Turns sigs 2 (plain (if l = .uint64 then [.swap, .itob, .swap] else [])) 2 := by
        split
        · exact swap.append ((itob.above 1).append swap)
        · exact .nil
      have hright : Turns sigs 2 (plain (if r = .uint64 then [.itob] else [])) 2 := by
        split
        · exact itob.above 1
        · exact .nil
      rw [hc, plain_append, plain_append]
      exact (hleft.append hright).append (bytesOpcode?_turns hc)

theorem complement (k : StackType) : Turns sigs 1 (plain (complementOps k)) 1 := by
  cases k <;> exact .one ⟨rfl, rfl, rfl, rfl⟩ rfl

theorem cast (target : TypeId) (k : StackType) : Turns sigs 1 (plain (castOps target k)) 1 := by
  have hbtoi : Turns sigs 1 [.op .btoi []] 1 := .one ⟨rfl, rfl, rfl, rfl⟩ rfl
  unfold castOps
  split
  · split
    · exact itob
    · exact .nil
  · split
    · exact .nil
    · split
      · exact hbtoi
      · exact .nil

theorem hash {algorithm : Expr} {c : Opcode} (k : StackType)
    (h : Lower.hashOpcode? algorithm = some c) : Turns sigs 1 (plain (hashOps k c)) 1 := by
  have hc : Turns sigs 1 [.op c []] 1 := by
    unfold Lower.hashOpcode? at h
    split at h <;> cases h <;> exact .one ⟨rfl, rfl, rfl, rfl⟩ rfl
  rw [hashOps, plain_append]
  refine append ?_ hc
  split
  · exact itob
  · exact .nil

/-- The test of the type of a transaction that has been read. -/
theorem typeTest (o : BinaryOperator) (c : UInt64) :
    Turns sigs 1 [.op .pushint [.uint c], .op (if o = .ne then .ne else .eq) []] 1 := by
  have hcompare : Turns sigs 2 [.op (if o = .ne then .ne else .eq) []] 1 := by
    split <;> exact .one ⟨rfl, rfl, rfl, rfl⟩ rfl
  exact (push.above 1).append hcompare

/-- A call puts the result, if there is one, in the place of the arguments. -/
theorem call {f : String} {sig : Signature} (h : sigs.lookup f = some sig) :
    Turns sigs sig.arity [.op .callsub [.label f]] (if sig.returnsValue then 1 else 0) := by
  refine .one ⟨rfl, ?_, rfl, rfl⟩ rfl
  rw [Instruction.effect?, h]
  rfl

theorem readDirect {r : Reading} (h : r.Valid) (hindex : r.index = none) :
    Turns sigs 0 [.op r.code r.operands] 1 := by
  have hcode := h.code
  rw [hindex] at hcode
  simp only [Option.isSome_none, Bool.false_eq_true, if_false, Reading.directCodes,
    List.mem_cons, List.not_mem_nil, or_false] at hcode
  rcases hcode with hc | hc | hc | hc | hc | hc <;> rw [hc] <;> exact .one ⟨rfl, rfl, rfl, rfl⟩ rfl

theorem readIndexed {r : Reading} {i : Expr} (h : r.Valid) (hindex : r.index = some i) :
    Turns sigs 1 [.op r.code r.operands] 1 := by
  have hcode := h.code
  rw [hindex] at hcode
  simp only [Option.isSome_some, if_true, Reading.indexedCodes, List.mem_cons, List.not_mem_nil,
    or_false] at hcode
  rcases hcode with hc | hc | hc | hc | hc | hc <;> rw [hc] <;> exact .one ⟨rfl, rfl, rfl, rfl⟩ rfl

/-- The message of a failure is logged. -/
theorem logged (message : List UInt8) :
    Turns sigs 0 [.op .pushbytes [.bytes message], .op .log []] 0 :=
  pushBytes.append (.one ⟨rfl, rfl, rfl, rfl⟩ rfl)

theorem comment (text : String) : Turns sigs 0 [.comment text] 0 := .one ⟨rfl, rfl, rfl, rfl⟩ rfl

theorem pops (k : Nat) : Turns sigs k (List.replicate k (.op .pop [])) 0 := by
  induction k with
  | zero => exact .nil
  | succ k ih => exact .cons ⟨rfl, rfl, rfl, rfl⟩ rfl (Nat.le_add_left _ _) ih

theorem pushes {i : Instruction} (h : i.Steps sigs 0 1) (hnear : i.isNear = true) (k : Nat) :
    Turns sigs 0 (List.replicate k i) k := by
  induction k with
  | zero => exact .nil
  | succ k ih => exact .cons h hnear (Nat.zero_le _) (ih.above 1)

end Turns

end ContractCompiler
