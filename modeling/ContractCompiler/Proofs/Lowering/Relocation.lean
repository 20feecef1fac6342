import ContractCompiler.Proofs.Lowering.Induction
import ContractCompiler.Proofs.Lowering.Pairing

/-!
# Lowering relocated programs

The only thing that lowering looks up by place is what is known of the local that is read there, and
the only thing that it looks up by name is the functions that are called. Where two runs agree on
these, a relocated program is lowered in the second run as the program is in the first.
-/

namespace ContractCompiler

/-! ## What two runs know -/

/-- The second run knows the same of the functions that are called below a node as the first, and the
same of the locals that are read there, at the places that they were moved to. -/
structure Pairing.Agrees (π : Pairing) (σ : Relocation) (n : Node) : Prop where
  calls : AgreeOnCalled π.env.signatures π.env'.signatures n
  reads : ∀ o ∈ n.nameOffsets, π.env'.localType? (σ.offset o) = π.env.localType? o

/-! ## Functions -/

namespace Relocation

open Amendment

variable {σ : Relocation} {π : Pairing}

/-- A relocated function has the same code. -/
theorem lower_function {f : Function} (hf : π.Agrees σ (.function f)) (main : Bool) :
    Lower.Paired π (f.lower main) ((σ.function f).lower main) := by
  have hbody : ∀ main, Lower.Paired π (f.lowerBody main) ((σ.function f).lowerBody main) :=
    fun main => f.lowerBody_holds ((Lower.Paired.relation π fun h => h).everywhere .within)
      (fun _ => ⟨hf.calls, hf.reads, fun _ _ _ => Lower.Paired.build .comment⟩) (C := fun _ => True)
      fun _ _ => trivial
  cases main with
  | true => exact hbody true
  | false =>
    rw [Function.lower_subroutine, Function.lower_subroutine]
    exact .bind (.build .comment) fun _ => .bind (.build .label) fun _ =>
      .bind (.build .subroutine) fun _ => hbody false

theorem lowerAll_functions (entry : String) {fs : List Function}
    (hfs : ∀ f ∈ fs, π.Agrees σ (.function f)) :
    Lower.Paired π (Function.lowerAll entry fs)
      (Function.lowerAll entry (fs.map σ.function)) := by
  induction fs with
  | nil => exact .pure
  | cons f fs ih =>
    obtain ⟨hf, hfs⟩ := List.forall_mem_cons.1 hfs
    exact .bind (.within (lower_function hf _)) fun _ => ih hfs

end Relocation

/-! ## Programs -/

/-- How the programs of an entry compare: the code is the same, and the counters are those of two
runs; or both fail alike, or the first one is refused. -/
inductive Pairing.Programs (π : Pairing) :
    Except Diagnostic Assembly → Except Diagnostic Assembly → Prop where
  | ok {a : Assembly} {m' : Metrics} (hversion : a.version = π.version)
      (hcounts : π.Counts a.metrics m') :
    Programs π (.ok a) (.ok { a with version := π.version', metrics := m' })
  | error {d : Diagnostic} : Programs π (.error d) (.error d)
  | refused {op : Opcode} {site : Option (List String)} {r : Except Diagnostic Assembly}
      (hversion : π.version ≠ π.version') :
    Programs π (.error (.code (.unavailable op π.version) site)) r

/-- The finished programs of two runs. -/
theorem Pairing.Builders.finish {π : Pairing} {b b' : Builder} (h : π.Builders b b')
    (entry : String) :
    π.Programs ((b.finish entry).mapError (.code · none)) ((b'.finish entry).mapError (.code · none)) := by
  obtain ⟨hversion, hcounts⟩ := h
  unfold Builder.finish
  dsimp only [Builder.code]
  split
  · exact .error
  split
  · exact .error
  · exact .ok hversion hcounts

/-- If two runs agree on the functions that an entry needs, they have the same code for it. -/
theorem Pairing.generate_paired {π : Pairing} {σ : Relocation} {p p' : Program} {main : Function}
    {localType? localType?' : Nat → Option StackType} {entry : Entry}
    (henv : π.env = .ofProgram p localType? entry)
    (henv' : π.env' = .ofProgram p' localType?' entry)
    (hpruned : π.pruned = p.functions.length - (p.reachable main).length)
    (hpruned' : π.pruned' = p'.functions.length - (p.reachable main).length)
    (hmain : p.function? entry.functionName = some main)
    (hmain' : p'.function? entry.functionName = some (σ.function main))
    (hreachable : p'.reachable (σ.function main) = (p.reachable main).map σ.function)
    (hagrees : ∀ f ∈ p.reachable main, π.Agrees σ (.function f)) :
    π.Programs (p.generate localType? π.version entry) (p'.generate localType?' π.version' entry) := by
  have hstart : π.States
      (.start { Builder.new π.version (.single entry) with
        metrics := { Metrics.zero with pruned := π.pruned } })
      (.start { Builder.new π.version' (.single entry) with
        metrics := { Metrics.zero with pruned := π.pruned' } }) :=
    .mk (.mk rfl (.mk rfl (Nat.le_refl 0) fun _ => rfl))
  have hlower := Relocation.lowerAll_functions entry.functionName hagrees _ _ hstart
  rw [henv, henv'] at hlower
  unfold Program.generate
  rw [hmain, hmain']
  dsimp only
  rw [hreachable, List.length_map, ← hpruned, ← hpruned']
  dsimp only [Builder.new] at hlower ⊢
  generalize Function.lowerAll entry.functionName (p.reachable main) _ _ = r at hlower
  generalize Function.lowerAll entry.functionName ((p.reachable main).map σ.function) _ _ = r'
    at hlower
  cases hlower with
  | ok hs =>
    obtain ⟨hb⟩ := hs
    exact hb.finish entry.functionName
  | @error d s s' hs =>
    obtain ⟨hb⟩ := hs
    cases d <;> exact .error
  | refused hrefused =>
    obtain ⟨fault, rfl, hversion, op, rfl⟩ := hrefused
    exact .refused hversion

namespace Relocation

variable {σ : Relocation} {p p' : Program}

theorem callees_function (f : Function) : Program.callees (σ.function f) = Program.callees f := by
  rw [Program.callees, ← Node.called_eq, Program.callees, ← Node.called_eq]
  refine σ.found_node (fun n => ?_) (.function f)
  cases n with
  | expr e => cases e <;> rfl
  | _ => rfl

theorem newCallees_relocated (hp : p'.functions = p.functions.map σ.function)
    (seen names : List String) :
    p'.newCallees seen names = (p.newCallees seen names).map σ.function := by
  induction names generalizing seen with
  | nil => rfl
  | cons n ns ih =>
    rw [Program.newCallees, Program.newCallees, function?_relocated hp]
    cases p.function? n with
    | none => exact ih seen
    | some f =>
      show (if seen.contains f.name then _ else _) = _
      dsimp only
      split
      · exact ih seen
      · rw [List.map_cons, ← ih]
        rfl

theorem reachFrom_relocated (hp : p'.functions = p.functions.map σ.function)
    (queue : List Function) (seen : List String) (acc : List Function) :
    p'.reachFrom (queue.map σ.function) seen (acc.map σ.function) =
      (p.reachFrom queue seen acc).map σ.function := by
  induction queue, seen, acc using Program.reachFrom.induct p with
  | case1 seen acc =>
    rw [Program.reachFrom.eq_def p, Program.reachFrom.eq_def p']
    exact List.map_reverse.symm
  | case2 seen acc f rest new ih =>
    have hnames : (new.map σ.function).reverse.map Function.name =
        new.reverse.map Function.name := by
      rw [← List.map_reverse, List.map_map]
      rfl
    rw [List.map_cons, Program.reachFrom.eq_def p, Program.reachFrom.eq_def p']
    dsimp only
    rw [callees_function, newCallees_relocated hp, hnames, ← List.map_append, ← List.map_cons]
    exact ih

theorem reachable_relocated (hp : p'.functions = p.functions.map σ.function) (main : Function) :
    p'.reachable (σ.function main) = (p.reachable main).map σ.function :=
  reachFrom_relocated hp [main] [main.name] []

/-- A relocated program has the same code for every entry, and fails in the same way. -/
theorem generate_relocated (hp : p'.functions = p.functions.map σ.function)
    {localType? localType?' : Nat → Option StackType}
    (hnote : ∀ o, localType?' (σ.offset o) = localType? o) (version : Nat) (entry : Entry) :
    p'.generate localType?' version entry = p.generate localType? version entry := by
  cases hmain : p.function? entry.functionName with
  | none =>
    unfold Program.generate
    rw [function?_relocated hp, hmain]
    rfl
  | some main =>
    let pruned := p.functions.length - (p.reachable main).length
    let π : Pairing := ⟨.ofProgram p localType? entry, .ofProgram p' localType?' entry, version,
      version, pruned, pruned, rfl, fun hc => ⟨_, hc, Nat.le_refl _⟩⟩
    have hpruned' : pruned = p'.functions.length - (p.reachable main).length := by
      rw [hp, List.length_map]
    have hagrees : ∀ f ∈ p.reachable main, π.Agrees σ (.function f) := fun f _ =>
      ⟨fun g _ => congrArg (List.lookup g) (signatures_relocated hp), fun o _ => hnote o⟩
    have hprograms : π.Programs (p.generate localType? version entry)
        (p'.generate localType?' version entry) :=
      π.generate_paired rfl rfl rfl hpruned' hmain (by rw [function?_relocated hp, hmain]; rfl)
        (reachable_relocated hp main) hagrees
    generalize p.generate localType? version entry = r at hprograms
    generalize p'.generate localType?' version entry = r' at hprograms
    cases hprograms with
    | @ok a m' hversion hcounts =>
      rw [hcounts.eq rfl rfl]
      exact congrArg (fun v => Except.ok { a with version := v }) hversion.symm
    | error => rfl
    | refused hversion => exact absurd rfl hversion

theorem generateList_relocated (hp : p'.functions = p.functions.map σ.function)
    {localType? localType?' : Nat → Option StackType}
    (hnote : ∀ o, localType?' (σ.offset o) = localType? o) (version : Nat) (entries : List Entry) :
    p'.generateList localType?' version entries = p.generateList localType? version entries := by
  induction entries with
  | nil => rfl
  | cons entry entries ih =>
    rw [Program.generateList, Program.generateList, generate_relocated hp hnote, ih]

end Relocation

end ContractCompiler
