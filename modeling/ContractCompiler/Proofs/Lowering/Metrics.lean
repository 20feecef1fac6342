import ContractCompiler.Proofs.Assembly.Tracking
import ContractCompiler.Proofs.Lowering.CallOrder
import ContractCompiler.Proofs.Lowering.Operands

/-!
# What the metrics of a program say

The counters of a program are those of its code, and no frame gets above the greatest depth in any
run of it.
-/

namespace ContractCompiler

section Programs

variable {p : Program} {mode : Mode} {entry : Entry} {main : Function}
  {localType? : Nat → Option StackType} {version : Nat} {asm : Assembly}

/-- The functions that an entry needs call none but each other, and not the entry. -/
theorem Program.generate_callsReached (hp : p.Accepted mode) (hentry : entry ∈ mode.entries)
    (hmain : p.function? entry.functionName = some main)
    (h : p.generate localType? version entry = .ok asm) : CallsReached p main asm.code := by
  obtain ⟨main', s, hmain', hrun, hfinish⟩ := Program.generate_eq_ok h
  cases hmain.symm.trans hmain'
  obtain ⟨hcode, -, -, -⟩ := finish_eq_ok hfinish
  have hname := name_of_function? hmain
  have hreached := reachable_reached (p := p) (hname ▸ hmain)
  have hcalls : ∀ f ∈ p.reachable main, ∀ n ∈ (Node.function f).called,
      ∀ g, p.function? n = some g → g ∈ p.reachable main ∧ g.name ≠ main.name := by
    intro f hf n hn g hg
    rw [Node.called_eq] at hn
    refine ⟨hreached.closed f hf n hn g hg, fun heq => ?_⟩
    have hnot := (hp.mayCall (hreached.mem hf) hn).entry
    rw [← name_of_function? hg, heq, hname] at hnot
    have hmem : entry.functionName ∈ mode.entryPoints := List.mem_map_of_mem hentry
    exact Bool.false_ne_true (hnot.symm.trans (List.contains_iff_mem.2 hmem))
  have hlocal : Lower.SuitsLocal (version, .single entry) fun i => ∀ l,
      i = .op .callsub [.label l] → ∃ f ∈ p.reachable main, f.name = l ∧ f.name ≠ main.name := by
    refine ⟨?_, ?_, fun _ _ => nofun⟩
    · rintro code operands - hregular l ⟨⟩
      exact absurd List.mem_cons_self (hregular.unlabeled l)
    · rintro code l - - hne - _ ⟨⟩
      exact absurd rfl hne
  have hcall : ∀ {callee sig}, (∀ g, p.function? callee = some g →
      g ∈ p.reachable main ∧ g.name ≠ main.name) → Lower.Admits (version, .single entry) .callsub →
      (LowerEnv.ofProgram p localType? entry).signatures.lookup callee = some sig →
      ∀ l, Instruction.op .callsub [.label callee] = .op .callsub [.label l] →
        ∃ f ∈ p.reachable main, f.name = l ∧ f.name ≠ main.name := by
    rintro callee sig hcallee - hsig _ ⟨⟩
    replace hsig : p.signatures.lookup callee = some sig := hsig
    rw [p.lookup_signatures] at hsig
    obtain ⟨g, hg, -⟩ := Option.map_eq_some_iff.1 hsig
    obtain ⟨hmem, hne⟩ := hcallee g hg
    exact ⟨g, hmem, name_of_function? hg, hne⟩
  obtain ⟨-, hwrites⟩ := Function.lowerAll_writes_calling hlocal hcall
    (fun _ _ => ⟨nofun, nofun⟩) hcalls (fun _ _ _ _ _ => nofun) _ _ _ rfl hrun
  intro l hl
  rw [hcode, Builder.code, List.mem_reverse] at hl
  rcases hwrites _ hl with hl | hl
  · cases hl
  · exact hl l rfl

/-- The metrics of a program are those of its code, all of whose operations have a cost; the
functions of the source are the entry, its subroutines and those that were left out; and in every
run, be it of frames or of the stack machine, the frame of the function that runs has no more slots
than the greatest depth. -/
structure Assembly.Measured (asm : Assembly) (p : Program) : Prop where
  ops : asm.metrics.ops = asm.code.countP Instruction.isOp
  labels : asm.metrics.labels = asm.code.countP Instruction.isLabel
  cost : asm.metrics.staticCost = (asm.code.map (Instruction.costAt asm.version)).sum
  available : ∀ code operands, .op code operands ∈ asm.code →
    (code.costAt asm.version).isSome = true
  functions : asm.metrics.subroutines + asm.metrics.pruned + 1 = p.functions.length
  depth : ∀ m, Relation.ReflTransGen (FrameStack.Step p.signatures asm.code) .start m →
    m.base ≤ m.height ∧ m.height - m.base ≤ asm.metrics.peakDepth
  runs : ∀ k m, Machine.Steps asm.code k .start m →
    ∃ f, Relation.ReflTransGen (FrameStack.Step p.signatures asm.code) .start f ∧ f.Tracks m

/-- The functions of a source are those that an entry needs and those that are left out for it. -/
theorem Program.Code.functions_length {d : Discipline localType?} {codes : List (List Instruction)}
    (h : p.Code mode entry d main codes) : p.functions.length =
      (p.reachable main).countP (fun f => f.name != entry.functionName) +
        (p.functions.length - (p.reachable main).length) + 1 := by
  have hname := name_of_function? h.found
  obtain ⟨left, hperm, hleft⟩ := (reachable_reached (p := p) (hname ▸ h.found)).exists_perm
  obtain ⟨fs, hfs, hne⟩ := h.reachable_eq
  have hcount : (p.reachable main).countP (fun f => f.name != entry.functionName) = fs.length := by
    rw [hfs, ← hname, List.countP_cons_of_neg (by simp)]
    exact List.countP_eq_length.2 fun f hf => bne_iff_ne.2 (hne f hf)
  rw [hcount, hleft, hperm.length_eq, List.length_append, hfs, List.length_cons]
  omega

/-- The program of an entry of an accepted source is measured. -/
theorem Program.generate_measured {source text : List Char} {a : Analysis}
    (hp : Source.program source = .ok p) (ha : p.check mode text = .ok a)
    (hentry : entry ∈ mode.entries) (h : p.generate a.localType? version entry = .ok asm) :
    asm.Measured p := by
  have haccepted := accepted_of_checkRules (check_eq_ok ha).2
  obtain ⟨main, codes, hcode, hasm, -, hcounted⟩ := generate_ok hp ha hentry h
  obtain ⟨b, hversion, hmetrics, hgrows⟩ := hcounted.grows
  obtain ⟨hagree, hcapped⟩ := hcode.depthsAgree haccepted hentry hcounted
  have hfound : p.function? main.name = some main := name_of_function? hcode.found ▸ hcode.found
  have hcalls := generate_callsReached haccepted hentry hcode.found h
  have hmachine : asm.version = version := hversion.trans (congrArg Prod.fst hgrows.machine)
  rw [← hasm] at hgrows hagree hcapped
  -- Nothing had been counted before, except for the functions that are left out.
  refine ⟨?_, ?_, ?_, ?_, ?_, fun m => FrameStack.depth_le hfound hagree hcapped hcalls,
    fun k m hsteps => hsteps.tracks (hcalls.lookup hfound) ⟨rfl, rfl, rfl⟩⟩
  · rw [hmetrics]
    exact hgrows.ops.trans (Nat.zero_add _)
  · rw [hmetrics]
    exact hgrows.labels.trans (Nat.zero_add _)
  · rw [hmetrics, hmachine]
    exact hgrows.cost.trans (Nat.zero_add _)
  · intro code operands hop
    rw [hmachine]
    exact ((generate_isAssembled h).2 _ hop).available
  · have hsubroutines := hgrows.subroutines.trans (Nat.zero_add _)
    have hpruned : b.metrics.pruned = p.functions.length - (p.reachable main).length :=
      hgrows.pruned
    rw [hmetrics, hsubroutines, hpruned]
    exact hcode.functions_length.symm

end Programs

/-- What the metrics of every program of a source that was compiled say. -/
theorem compileAll_measured {text : List Char} {o : Options} {asms : List Assembly}
    (h : compileAll text o = .ok asms) :
    ∃ source p, (if o.expand then Source.expand text else pure text) = .ok source ∧
      Source.program source = .ok p ∧ asms.length = o.mode.entries.length ∧
      ∀ asm ∈ asms, asm.Measured p := by
  obtain ⟨source, p, a, hsource, hp, ha, hasms⟩ := compileAll_eq_ok h
  refine ⟨source, p, hsource, hp, hasms.length_eq.symm, fun asm hasm => ?_⟩
  obtain ⟨entry, hentry, hgenerate⟩ := exists_left_of_forall₂ hasms hasm
  exact Program.generate_measured hp ha hentry hgenerate

/-- A source with a function that calls itself inside an expression, one that nothing calls, and an
operation that costs more than others. -/
theorem compileAll_measured_nested :
    ∃ asms, compileAll "def f(x, y) \x7b while (x > y) \x7b y = y + 1; \x7d
          return x > 3 ? y : x * f(x + 1, f(y, x)); \x7d
        def g() \x7b return 1; \x7d
        def Signature() \x7b z = f(1, 2); w = \"a\" + \"b\"; return z * f(z, 3); \x7d".toList
        (.ofMode (.single .signature)) = .ok asms ∧
      asms.map Assembly.metrics = [⟨48, 5, 2, 1, 6, 57, 1, 1⟩] ∧
      ∃ p, ∀ asm ∈ asms, asm.Measured p := by
  have hrun : (do
      let asms ← compileAll "def f(x, y) \x7b while (x > y) \x7b y = y + 1; \x7d
          return x > 3 ? y : x * f(x + 1, f(y, x)); \x7d
        def g() \x7b return 1; \x7d
        def Signature() \x7b z = f(1, 2); w = \"a\" + \"b\"; return z * f(z, 3); \x7d".toList
        (.ofMode (.single .signature))
      return asms.map Assembly.metrics) = Except.ok [⟨48, 5, 2, 1, 6, 57, 1, 1⟩] := by
    rw [String.toList_ofList]
    decide +kernel
  obtain ⟨asms, hasms, hrun⟩ := ok_of_bind hrun
  obtain ⟨_, p, -, -, -, hall⟩ := compileAll_measured hasms
  exact ⟨asms, hasms, Except.ok.inj hrun, p, hall⟩

end ContractCompiler
