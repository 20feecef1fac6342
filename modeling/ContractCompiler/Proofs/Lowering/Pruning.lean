import Mathlib.Data.List.Flatten
import Mathlib.Data.List.Perm.Subperm
import ContractCompiler.Compile
import ContractCompiler.Proofs.Lowering.Functions
import ContractCompiler.Proofs.Lowering.Relocation
import ContractCompiler.Proofs.Typing.Modularity

/-!
# Leaving out functions that are not needed

An entry needs itself and what is called from a function that it needs. A program may be cut down to
these functions, in any order: it is still accepted, what is known of the functions that are called
and of the locals that are read stays the same, and so the entry has the same code.
-/

namespace ContractCompiler

namespace Program

variable {p p' : Program} {main f : Function}

/-! ## What an entry needs -/

/-- A function is needed by `main` if a chain of calls leads from `main` to it. -/
inductive Needs (p : Program) (main : Function) : Function → Prop where
  | main : Needs p main main
  | call {f g : Function} {n : String} (hf : Needs p main f) (hn : n ∈ callees f)
      (hg : p.function? n = some g) : Needs p main g

theorem needs_of_mem_reachFrom {queue acc : List Function} {seen : List String}
    (hqueue : ∀ g ∈ queue, p.Needs main g) (hacc : ∀ g ∈ acc, p.Needs main g)
    (hf : f ∈ p.reachFrom queue seen acc) : p.Needs main f := by
  fun_induction reachFrom p queue seen acc with
  | case1 seen acc => exact hacc f (List.mem_reverse.1 hf)
  | case2 seen acc g rest new ih =>
    obtain ⟨hg, hrest⟩ := List.forall_mem_cons.1 hqueue
    refine ih (fun k hk => ?_) (List.forall_mem_cons.2 ⟨hg, hacc⟩) hf
    rcases List.mem_append.1 hk with hk | hk
    · exact hrest k hk
    · obtain ⟨hfound, -, hcalled⟩ := mem_newCallees hk
      exact hg.call hcalled hfound

theorem Reached.mem_of_needs {fs : List Function} (h : p.Reached main fs) (hf : p.Needs main f) :
    f ∈ fs := by
  induction hf with
  | main => exact List.mem_of_head? h.head
  | call _ hn hg ih => exact h.closed _ ih _ hn _ hg

/-- The walk finds what an entry needs. -/
theorem mem_reachable_iff (h : p.function? main.name = some main) :
    f ∈ p.reachable main ↔ p.Needs main f := by
  refine ⟨needs_of_mem_reachFrom (fun g hg => ?_) nofun, (reachable_reached h).mem_of_needs⟩
  cases List.mem_singleton.1 hg
  exact .main

/-! ## Cutting down a program -/

/-- `p'` consists of the functions `fs` of `p`, which call no other functions of `p`. -/
structure Cut (p : Program) (main : Function) (fs : List Function) (p' : Program) : Prop where
  reached : p.Reached main fs
  perm : p'.functions.Perm fs

namespace Cut

variable {fs : List Function} {mode : Mode} (h : p.Cut main fs p')
include h

theorem nodup : (p'.functions.map Function.name).Nodup :=
  (h.perm.map _).nodup_iff.2 h.reached.nodup

theorem mem (hf : f ∈ p'.functions) : f ∈ p.functions :=
  h.reached.mem (h.perm.mem_iff.1 hf)

theorem found_of_mem (hf : f ∈ fs) : p'.function? f.name = some f := by
  have hmem : f ∈ p'.functions := h.perm.mem_iff.2 hf
  cases hg : p'.function? f.name with
  | none =>
    have hnot := List.find?_eq_none.1 hg f hmem
    exact absurd (beq_self_eq_true f.name) hnot
  | some g =>
    have hname := name_of_function? hg
    rw [List.inj_on_of_nodup_map h.nodup (List.mem_of_find?_eq_some hg) hmem hname]

/-- What a name stands for, if it stands for one of the functions or for none. -/
theorem function?_eq {n : String} (hn : ∀ g, p.function? n = some g → g ∈ fs) :
    p'.function? n = p.function? n := by
  cases hg : p.function? n with
  | some g =>
    rw [← name_of_function? hg]
    exact h.found_of_mem (hn g hg)
  | none =>
    cases hg' : p'.function? n with
    | none => rfl
    | some g =>
      have hfound := h.reached.found g (h.perm.mem_iff.1 (List.mem_of_find?_eq_some hg'))
      rw [name_of_function? hg', hg] at hfound
      cases hfound

theorem function?_callee (hf : f ∈ fs) {n : String} (hn : n ∈ callees f) :
    p'.function? n = p.function? n :=
  h.function?_eq (h.reached.closed f hf n hn)

theorem agreeOnCalled (hf : f ∈ fs) :
    AgreeOnCalled p.signatures p'.signatures (.block f.body) := by
  intro n hn
  rw [← callees_eq] at hn
  rw [lookup_signatures, lookup_signatures, h.function?_callee hf hn]

/-! ### The walk -/

omit h in
theorem newCallees_congr {names : List String}
    (hnames : ∀ n ∈ names, p'.function? n = p.function? n) (seen : List String) :
    p'.newCallees seen names = p.newCallees seen names := by
  induction names generalizing seen with
  | nil => rfl
  | cons n ns ih =>
    obtain ⟨hn, hns⟩ := List.forall_mem_cons.1 hnames
    rw [newCallees, newCallees, hn]
    cases p.function? n with
    | none => exact ih hns seen
    | some f =>
      dsimp only
      rw [ih hns, ih hns]

theorem reachFrom_eq {queue acc : List Function} {seen : List String}
    (hqueue : ∀ g ∈ queue, g ∈ fs) : p'.reachFrom queue seen acc = p.reachFrom queue seen acc := by
  induction queue, seen, acc using reachFrom.induct p with
  | case1 seen acc => rw [reachFrom.eq_def p, reachFrom.eq_def p']
  | case2 seen acc f rest new ih =>
    obtain ⟨hf, hrest⟩ := List.forall_mem_cons.1 hqueue
    have hnew : p'.newCallees seen (callees f) = new :=
      newCallees_congr (fun n hn => h.function?_callee hf hn) seen
    rw [reachFrom.eq_def p, reachFrom.eq_def p']
    dsimp only
    rw [hnew]
    refine ih fun k hk => ?_
    rcases List.mem_append.1 hk with hk | hk
    · exact hrest k hk
    · obtain ⟨hfound, -, hcalled⟩ := mem_newCallees hk
      exact h.reached.closed f hf _ hcalled _ hfound

theorem reachable_eq : p'.reachable main = p.reachable main :=
  h.reachFrom_eq fun g hg => by
    cases List.mem_singleton.1 hg
    exact List.mem_of_head? h.reached.head

/-! ### The check -/

theorem check_eq_ok (hf : f ∈ fs) {own : BodyFacts} (hown : f.check mode p.signatures = .ok own) :
    ∃ own', f.check mode p'.signatures = .ok own' ∧ own.Same own' := by
  have halike : Alike Eq BodyFacts.Same (f.check mode p.signatures) _ :=
    Function.check_congr (h.agreeOnCalled hf)
  rw [hown] at halike
  generalize f.check mode p'.signatures = x' at halike
  cases halike with
  | ok hsame => exact ⟨_, rfl, hsame⟩

theorem declared {entry : Entry} (hmain : main.name = entry.functionName)
    (hp : p.Declared (.single entry)) : p'.Declared (.single entry) where
  nodup := h.nodup
  not_hash f hf := hp.not_hash f (h.mem hf)
  entry := by
    intro n hn
    have hentry : n = main.name := by
      rw [hmain]
      cases entry <;> exact List.mem_singleton.1 hn
    subst hentry
    have hmem : main ∈ fs := List.mem_of_head? h.reached.head
    obtain ⟨main', hfound, hparams⟩ := hp.entry _ hn
    cases (h.reached.found main hmem).symm.trans hfound
    exact ⟨main, h.found_of_mem hmem, hparams⟩

/-- No place is that of a name in two functions, if it is not so in the whole program. -/
theorem nodup_nameOffsets (hp : (p.functions.flatMap Function.nameOffsets).Nodup) :
    (p'.functions.flatMap Function.nameOffsets).Nodup := by
  have hsub : p'.functions.Subperm p.functions :=
    List.subperm_of_subset h.nodup.of_map fun _ => h.mem
  obtain ⟨fs', hperm, hsublist⟩ := hsub
  rw [(hperm.symm.flatMap_right _).nodup_iff]
  exact hp.sublist (hsublist.flatMap _)

/-- The functions are accepted on their own, and the same is noted of what they read. -/
theorem checkRules {entry : Entry} {a : Analysis} (hmain : main.name = entry.functionName)
    (hp : (Node.program p).nameOffsets.Nodup) (ha : p.checkRules (.single entry) = .ok a) :
    ∃ a', p'.checkRules (.single entry) = .ok a' ∧
      ∀ f ∈ fs, ∀ o ∈ f.nameOffsets, a'.localTypes[o]? = a.localTypes[o]? := by
  obtain ⟨hdeclared, hbodies⟩ := checkRules_isOk_iff.1 ⟨a, ha⟩
  obtain ⟨a', ha'⟩ : ∃ a', p'.checkRules (.single entry) = .ok a' := by
    refine checkRules_isOk_iff.2 ⟨h.declared hmain hdeclared, fun f hf => ?_⟩
    obtain ⟨own, hown⟩ := hbodies f (h.mem hf)
    obtain ⟨own', hown', -⟩ := h.check_eq_ok (h.perm.mem_iff.1 hf) hown
    exact ⟨own', hown'⟩
  refine ⟨a', ha', fun f hf o ho => ?_⟩
  obtain ⟨-, -, facts, hfacts, rfl⟩ := checkRules_eq_ok ha
  obtain ⟨-, -, facts', hfacts', rfl⟩ := checkRules_eq_ok ha'
  have hnodup := Program.nodup_nameOffsets hp
  obtain ⟨own, hown, hnoted⟩ := checkBodies_kept hnodup hfacts (h.reached.mem hf) ho
  obtain ⟨own', hown', hnoted'⟩ :=
    checkBodies_kept (h.nodup_nameOffsets hnodup) hfacts' (h.perm.mem_iff.2 hf) ho
  obtain ⟨_, hown'', hsame⟩ := h.check_eq_ok hf hown
  cases hown'.symm.trans hown''
  dsimp only
  rw [hnoted, hnoted', hsame.notes o]

end Cut

/-! ## The code of an entry -/

end Program

/-- A program with another number of functions left out. -/
def Assembly.withPruned (pruned : Nat) (asm : Assembly) : Assembly :=
  { asm with metrics := { asm.metrics with pruned } }

namespace Program

variable {p p' : Program} {main : Function} {entry : Entry}

theorem reads_function {f : Function} {o : Nat} (ho : o ∈ (Node.function f).nameOffsets) :
    o ∈ f.nameOffsets := by
  rw [Node.nameOffsets_children rfl] at ho
  simpa [Node.children, Function.nameOffsets] using ho

/-- If the same is known of what the functions read, the entry has the same code, and nothing is
left out any more. -/
theorem Cut.generate_eq (h : p.Cut main (p.reachable main) p')
    (hmain : p.function? entry.functionName = some main)
    {localType? localType?' : Nat → Option StackType}
    (hnotes : ∀ f ∈ p.reachable main, ∀ o ∈ f.nameOffsets, localType?' o = localType? o)
    (version : Nat) :
    p'.generate localType?' version entry =
      (p.generate localType? version entry).map (Assembly.withPruned 0) := by
  let π : Pairing := ⟨.ofProgram p localType? entry, .ofProgram p' localType?' entry, version,
    version, p.functions.length - (p.reachable main).length, 0, rfl,
    fun hc => ⟨_, hc, Nat.le_refl _⟩⟩
  have hname := name_of_function? hmain
  have hmain' : p'.function? entry.functionName = some main :=
    hname ▸ h.found_of_mem (List.mem_of_head? h.reached.head)
  have hpruned' : 0 = p'.functions.length - (p.reachable main).length := by
    rw [h.perm.length_eq, Nat.sub_self]
  have hreachable : p'.reachable (Relocation.refl.function main) =
      (p.reachable main).map Relocation.refl.function := by
    rw [Relocation.function_refl, funext Relocation.function_refl, List.map_id', h.reachable_eq]
  have hagrees : ∀ f ∈ p.reachable main, π.Agrees Relocation.refl (.function f) := by
    refine fun f hf => ⟨fun n hn => ?_, fun o ho => hnotes f hf o (reads_function ho)⟩
    rw [Node.called_eq] at hn
    show p'.signatures.lookup n = p.signatures.lookup n
    rw [lookup_signatures, lookup_signatures, h.function?_callee hf hn]
  have hprograms : π.Programs (p.generate localType? version entry)
      (p'.generate localType?' version entry) :=
    π.generate_paired rfl rfl rfl hpruned' hmain (by rw [hmain', Relocation.function_refl])
      hreachable hagrees
  generalize p.generate localType? version entry = r at hprograms
  generalize p'.generate localType?' version entry = r' at hprograms
  cases hprograms with
  | @ok asm m' hversion hcounts =>
    obtain ⟨-, -, hcost⟩ := hcounts
    rw [hcost rfl]
    exact congrArg (fun v => Except.ok { asm.withPruned 0 with version := v }) hversion.symm
  | error => rfl
  | refused hversion => exact absurd rfl hversion

/-- A program that is accepted for one entry may be cut down to the functions that the entry needs,
in any order. What is left is accepted, and whatever comes of the entry comes of it then too: the same
fault, or the same code with the same counters but that nothing is left out. -/
theorem generate_pruned {text : List Char} {a : Analysis} (hp : Source.program text = .ok p)
    (ha : p.check (.single entry) text = .ok a) :
    ∃ main, p.function? entry.functionName = some main ∧
      ∀ p' : Program, p'.functions.Nodup → (∀ f, f ∈ p'.functions ↔ p.Needs main f) →
        ∃ a', p'.check (.single entry) text = .ok a' ∧ ∀ version,
          p'.generate a'.localType? version entry =
            (p.generate a.localType? version entry).map (Assembly.withPruned 0) := by
  obtain ⟨hmode, hrules⟩ := Program.check_eq_ok ha
  obtain ⟨hdeclared, -⟩ := checkRules_isOk_iff.1 ⟨a, hrules⟩
  obtain ⟨main, hmain, -⟩ := hdeclared.entry entry.functionName (by cases entry <;> decide)
  refine ⟨main, hmain, fun p' hnodup hmem => ?_⟩
  have hname := name_of_function? hmain
  have hfound : p.function? main.name = some main := hname.symm ▸ hmain
  have hreached := reachable_reached hfound
  have hperm : p'.functions.Perm (p.reachable main) :=
    (List.perm_ext_iff_of_nodup hnodup hreached.nodup.of_map).2 fun f =>
      (hmem f).trans (mem_reachable_iff hfound).symm
  have hcut : p.Cut main (p.reachable main) p' := ⟨hreached, hperm⟩
  obtain ⟨a', ha', hnotes⟩ := hcut.checkRules hname (Source.program_eq_ok hp).1 hrules
  exact ⟨a', (check_eq_ok_iff hmode).2 ha', hcut.generate_eq hmain hnotes⟩

/-- A function that is not needed goes, and the others change places. -/
theorem generate_pruned_reversed :
    ∃ (text : List Char) (p p' : Program) (a a' : Analysis),
      text = "def f(x)\x7by=Txn.Note;return y<x;\x7d
        def g()\x7breturn f(\"a\");\x7d
        def Signature()\x7breturn f(\"b\");\x7d".toList ∧
      Source.program text = .ok p ∧ p.check (.single .signature) text = .ok a ∧
      p'.functions.map Function.name = ["f", "Signature"] ∧
      p'.check (.single .signature) text = .ok a' ∧
      (p.generate a.localType? 5 .signature).toOption.map (·.metrics.pruned) = some 1 ∧
      p'.generate a'.localType? 5 .signature =
        (p.generate a.localType? 5 .signature).map (Assembly.withPruned 0) := by
  obtain ⟨text, htext⟩ : ∃ text, text = "def f(x)\x7by=Txn.Note;return y<x;\x7d
        def g()\x7breturn f(\"a\");\x7d
        def Signature()\x7breturn f(\"b\");\x7d".toList := ⟨_, rfl⟩
  have hruns : (do
      let p ← Source.program text
      let a ← p.check (.single .signature) text
      let asm ← p.generate a.localType? 5 .signature
      return (((p.function? "Signature").map p.reachable).map (List.map Function.name),
        asm.metrics.pruned)) = Except.ok (some ["Signature", "f"], 1) := by
    rw [htext, String.toList_ofList]
    decide +kernel
  obtain ⟨p, hp, hruns⟩ := ok_of_bind hruns
  obtain ⟨a, ha, hruns⟩ := ok_of_bind hruns
  obtain ⟨asm, hasm, hruns⟩ := ok_of_bind hruns
  obtain ⟨main, hmain, hpruned⟩ := generate_pruned hp ha
  have hfound : p.function? main.name = some main := (name_of_function? hmain).symm ▸ hmain
  have hnames : (p.reachable main).map Function.name = ["Signature", "f"] := by
    have hpair := Except.ok.inj hruns
    rw [show p.function? "Signature" = some main from hmain] at hpair
    exact Option.some.inj (congrArg Prod.fst hpair)
  obtain ⟨a', ha', hgenerate⟩ := hpruned ⟨(p.reachable main).reverse, p.span⟩
    (List.nodup_reverse.2 (reachable_reached hfound).nodup.of_map)
    fun f => List.mem_reverse.trans (mem_reachable_iff hfound)
  refine ⟨text, p, _, a, a', htext, hp, ha, ?_, ha', ?_, hgenerate 5⟩
  · rw [List.map_reverse, hnames]
    rfl
  · rw [hasm]
    exact congrArg some (congrArg Prod.snd (Except.ok.inj hruns))

end Program

end ContractCompiler
