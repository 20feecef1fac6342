import ContractCompiler.Proofs.Lowering.Depths
import ContractCompiler.Proofs.Lowering.Writing

/-!
# Operations that can be assembled

Every operation of a program exists in the version of the machine and may be used where the program
runs, and its operands are what the operation takes. That does not rest on the program having been
checked: the builder looks after the version, the mode and the number of operands, and the rules of
lowering give operands of the right kinds, with bounds on heights of the stack and on indexes.
-/

namespace ContractCompiler

/-- Whether operations that may be used in a run mode may be used in the program of an entry. -/
def Entry.runs (entry : Entry) : RunMode → Bool
  | .any => true
  | .signature => entry == .signature
  | .application => entry.isApplication

/-- An operation with operands that can be assembled for an entry and a version of the machine. -/
structure Opcode.Assembles (code : Opcode) (operands : List Operand) (version : Nat)
    (entry : Entry) : Prop extends code.Takes operands where
  available : code.isAvailable version = true
  runs : entry.runs code.mode = true

/-- What the mode of an entry admits may be used there. -/
theorem Entry.runs_of_checkMode {entry : Entry} {code : Opcode}
    (h : Builder.checkMode code (.single entry) = .ok ()) : entry.runs code.mode = true := by
  unfold Builder.checkMode at h
  cases hmode : code.mode with
  | any => rfl
  | signature | application =>
    rw [hmode] at h
    cases entry <;> first | rfl | cases h

/-- An instruction whose operation, if it has one, can be assembled. -/
def Instruction.IsAssembled (version : Nat) (entry : Entry) : Instruction → Prop
  | op code operands => code.Assembles operands version entry
  | label _ | comment _ => True

/-- Single operations of a program can be assembled. -/
theorem Lower.suits_isAssembled (env : LowerEnv) (version : Nat) (entry : Entry) :
    Lower.Suits env (version, .single entry) (Instruction.IsAssembled version entry) where
  op hadmits hregular :=
    ⟨hregular.toTakes, hadmits.available, Entry.runs_of_checkMode hadmits.mode⟩
  branch {code l} hadmits hparams _ _ := by
    refine ⟨⟨hparams ▸ .cons rfl .nil, fun _ n hn => ?_⟩, hadmits.available,
      Entry.runs_of_checkMode hadmits.mode⟩
    cases List.mem_singleton.1 hn
  call hadmits _ :=
    ⟨⟨.cons rfl .nil, fun h => by cases h⟩, hadmits.available,
      Entry.runs_of_checkMode hadmits.mode⟩
  label _ := trivial

theorem Program.generate_isAssembled {p : Program} {localType? : Nat → Option StackType}
    {version : Nat} {entry : Entry} {asm : Assembly}
    (h : p.generate localType? version entry = .ok asm) :
    asm.entry = entry.functionName ∧ ∀ i ∈ asm.code, i.IsAssembled version entry := by
  obtain ⟨main, s, -, hrun, hfinish⟩ := Program.generate_eq_ok h
  obtain ⟨hcode, hentry, -, -⟩ := finish_eq_ok hfinish
  obtain ⟨-, hwrites⟩ := Function.lowerAll_writes
    (Lower.suits_isAssembled _ version entry) (fun _ _ => ⟨trivial, trivial⟩)
    (fun _ _ _ _ _ => trivial) _ _ _ rfl hrun
  refine ⟨hentry, fun i hi => ?_⟩
  rw [hcode, Builder.code, List.mem_reverse] at hi
  rcases hwrites i hi with hi | hi
  · cases hi
  · exact hi

/-- Every operation of the programs of a mode can be assembled, each for its entry. -/
theorem Program.generateAll_assembles {p : Program} {localType? : Nat → Option StackType}
    {version : Nat} {mode : Mode} {asms : List Assembly}
    (h : p.generateAll localType? version mode = .ok asms) :
    List.Forall₂ (fun entry asm => asm.entry = entry.functionName ∧ ∀ code operands,
      .op code operands ∈ asm.code → code.Assembles operands version entry) mode.entries asms := by
  refine (Program.generateList_eq_ok h).imp fun entry asm hgenerate => ?_
  obtain ⟨hentry, hcode⟩ := Program.generate_isAssembled hgenerate
  exact ⟨hentry, fun code operands hop => hcode _ hop⟩

/-- A source with the largest indexes that are immediate operands, and one index that is too large to be
one. -/
theorem Program.generateAll_assembles_indexes :
    ∃ p asms, Source.program "def f(x) \x7b y = x; x = y + 1; return x; \x7d
        def Signature() \x7b z = args[255]; i = f(2);
          if (TxnGroup[255].Fee > 3) return Txn.Scratch[255]; return TxnGroup[256].Fee; \x7d".toList =
      .ok p ∧
      p.generateAll (fun _ => none) 5 (.single .signature) = .ok asms ∧ ∀ asm ∈ asms,
        (.op .gtxn [.uint 255, .field "Fee"] ∈ asm.code ∧ .op .pushint [.uint 256] ∈ asm.code) ∧
        ∀ code operands, .op code operands ∈ asm.code →
          code.Assembles operands 5 .signature := by
  have hrun : (do
      let p ← Source.program "def f(x) \x7b y = x; x = y + 1; return x; \x7d
        def Signature() \x7b z = args[255]; i = f(2);
          if (TxnGroup[255].Fee > 3) return Txn.Scratch[255]; return TxnGroup[256].Fee; \x7d".toList
      let asms ← p.generateAll (fun _ => none) 5 (.single .signature)
      return asms.all fun asm =>
        asm.code.contains (.op .gtxn [.uint 255, .field "Fee"]) &&
          asm.code.contains (.op .pushint [.uint 256])) = Except.ok true := by
    rw [String.toList_ofList]
    decide +kernel
  obtain ⟨p, hp, hrun⟩ := ok_of_bind hrun
  obtain ⟨asms, hasms, hrun⟩ := ok_of_bind hrun
  have hall := Program.generateAll_assembles hasms
  refine ⟨p, asms, hp, hasms, fun asm hasm => ⟨?_, ?_⟩⟩
  · have hcontains := List.all_eq_true.1 (Except.ok.inj hrun) asm hasm
    simpa using hcontains
  · obtain ⟨entry, hentry, -, hcode⟩ := exists_left_of_forall₂ hall hasm
    cases List.mem_singleton.1 hentry
    exact hcode

end ContractCompiler
