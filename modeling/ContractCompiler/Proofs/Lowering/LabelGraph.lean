import Mathlib.Data.List.Basic
import ContractCompiler.Proofs.Lowering.Induction
import ContractCompiler.Proofs.Lowering.Programs

/-!
# The graph of labels

Labels that a builder hands out never repeat, whatever words they are made from, since each ends with
a number of its own. Lowering uses each of them for one jump and defines it once; all other labels are
the names of functions. So a function whose name looks like such a label cannot take its place: the
label would be defined twice.
-/

namespace ContractCompiler

open Builder (usedLabels definedLabels)

/-! ## Runs of a builder -/

namespace Builder

/-- The operations of a builder, other than making a label. -/
inductive Operation : Build Unit → Prop where
  | push (code : Opcode) (operands : List Operand) : Operation (push code operands)
  | label (name : String) : Operation (label name)
  | comment (text : String) : Operation (comment text)
  | silent {x : Build Unit} (hx : Silent x) : Operation x

/-- A run of a builder from one state to another, in which some labels were handed out, in order. An
operation may fail and the run go on. -/
inductive Run : Builder → List String → Builder → Prop where
  | nil (b : Builder) : Run b [] b
  | done {b b₁ b₂ : Builder} {x : Build Unit} {labels : List String} (hx : Operation x)
    (h : x b = .ok () b₁) (rest : Run b₁ labels b₂) : Run b labels b₂
  | failed {b b₁ b₂ : Builder} {x : Build Unit} {fault : CodeFault} {labels : List String}
    (hx : Operation x) (h : x b = .error fault b₁) (rest : Run b₁ labels b₂) : Run b labels b₂
  | fresh {b b₁ b₂ : Builder} {purpose l : String} {labels : List String}
    (h : freshLabel purpose b = .ok l b₁) (rest : Run b₁ labels b₂) : Run b (l :: labels) b₂

variable {b b₁ b₂ : Builder} {labels labels' : List String}

theorem Run.trans (h : Run b labels b₁) (h' : Run b₁ labels' b₂) : Run b (labels ++ labels') b₂ := by
  induction h with
  | nil => exact h'
  | done hx hrun _ ih => exact .done hx hrun (ih h')
  | failed hx hrun _ ih => exact .failed hx hrun (ih h')
  | fresh hrun _ ih => exact .fresh hrun (ih h')

theorem Run.single {x : Build Unit} (hx : Operation x) (h : x b = .ok () b₁) : Run b [] b₁ :=
  .done hx h (.nil b₁)

/-- The state of a builder after an operation, whether it has failed or not. -/
def after {α : Type} (x : Build α) (b : Builder) : Builder :=
  match x b with
  | .ok _ b₁ | .error _ b₁ => b₁

theorem after_step (f : Builder → Except CodeFault Builder)
    (h : ∀ b₁, f b = .ok b₁ → b₁.nextLabel = b.nextLabel) :
    (after (step f) b).nextLabel = b.nextLabel := by
  unfold after step
  cases hf : f b with
  | error fault => rfl
  | ok b₁ => exact h b₁ hf

/-- Only making a label changes the number of the next one. -/
theorem Operation.nextLabel_after {x : Build Unit} (hx : Operation x) :
    (after x b).nextLabel = b.nextLabel := by
  cases hx with
  | push code operands =>
    refine after_step _ fun b₁ h => ?_
    obtain ⟨_, _, -, -, -, -, rfl⟩ := Lower.pushed_eq_ok h
    rfl
  | label | comment => rfl
  | silent hx =>
    cases hx with
    | retypeTop t =>
      obtain ⟨emitted, stack, version, mode, metrics, nextLabel⟩ := b
      cases stack <;> rfl
    | restore | forget | count => rfl
    | callEffect | merge =>
      refine after_step _ fun b₁ h => ?_
      split at h
      · cases h
      · cases h
        rfl

/-- The label for a word and a number. -/
def labelOf (purpose : String) (n : Nat) : String :=
  "__" ++ purpose ++ "__" ++ toString n

/-- The number of a label can be read off: it is what follows the last underscore. -/
theorem takeWhile_labelOf (purpose : String) (n : Nat) :
    (labelOf purpose n).toList.reverse.takeWhile (· != '_') = (Nat.toDigits 10 n).reverse := by
  have hlist : (labelOf purpose n).toList.reverse =
      (Nat.toDigits 10 n).reverse ++ '_' :: ("__" ++ purpose ++ "_").toList.reverse := by
    simp [labelOf]
  rw [hlist, List.takeWhile_append_of_pos]
  · simp
  · intro c hc
    rw [List.mem_reverse] at hc
    refine bne_iff_ne.2 ?_
    rintro rfl
    exact Nat.underscore_not_in_toDigits hc

/-- Labels with different numbers are different, whatever their words are. -/
theorem eq_of_labelOf_eq {purpose purpose' : String} {n m : Nat}
    (h : labelOf purpose n = labelOf purpose' m) : n = m := by
  have hdigits : (Nat.toDigits 10 n).reverse = (Nat.toDigits 10 m).reverse := by
    rw [← takeWhile_labelOf purpose, ← takeWhile_labelOf purpose', h]
  calc n = Nat.ofDigitChars 10 (Nat.toDigits 10 n) 0 := Nat.ofDigitChars_ten_toDigits.symm
    _ = Nat.ofDigitChars 10 (Nat.toDigits 10 m) 0 := by rw [List.reverse_injective hdigits]
    _ = m := Nat.ofDigitChars_ten_toDigits

/-- The labels of a run are numbered from the number of the next label on, and distinct. -/
theorem Run.labels_spec (h : Run b labels b₁) :
    labels.Nodup ∧ ∀ l ∈ labels, ∃ purpose n, l = labelOf purpose n ∧ b.nextLabel ≤ n := by
  induction h with
  | nil => exact ⟨List.nodup_nil, List.forall_mem_nil _⟩
  | @done b b₁ _ x _ hx hrun _ ih =>
    have hnext : b₁.nextLabel = b.nextLabel := by
      rw [← hx.nextLabel_after (b := b), after, hrun]
    rw [← hnext]
    exact ih
  | @failed b b₁ _ x _ _ hx hrun _ ih =>
    have hnext : b₁.nextLabel = b.nextLabel := by
      rw [← hx.nextLabel_after (b := b), after, hrun]
    rw [← hnext]
    exact ih
  | @fresh b b₁ _ purpose l labels hrun _ ih =>
    cases hrun
    obtain ⟨hnodup, hnumbers⟩ := ih
    refine ⟨List.nodup_cons.2 ⟨fun hmem => ?_, hnodup⟩, List.forall_mem_cons.2 ⟨?_, fun l hl => ?_⟩⟩
    · obtain ⟨purpose', n, heq, hn⟩ := hnumbers _ hmem
      have hsame := eq_of_labelOf_eq heq
      simp only at hn
      omega
    · exact ⟨purpose, b.nextLabel, rfl, Nat.le_refl _⟩
    · obtain ⟨purpose', n, heq, hn⟩ := hnumbers l hl
      exact ⟨purpose', n, heq, Nat.le_of_succ_le hn⟩

end Builder

/-! ## Labels of a step -/

namespace Lower

variable {α β : Type} {env : LowerEnv} {calls : String → Prop} {D U : List String}

/-- Whenever the step ends, it has appended code that defines the labels in `D` and those that were
handed out on the way, and that refers to the labels in `U`, to those that were handed out, and to
functions that may be called; each as often as it is listed. -/
def Balances (x : Lower α) (env : LowerEnv) (calls : String → Prop) (D U : List String) : Prop :=
  ∀ s a s', x env s = .ok a s' → ∃ code made called,
    s'.builder.emitted = code.reverse ++ s.builder.emitted ∧
    Builder.Run s.builder made s'.builder ∧
    (definedLabels code).Perm (D ++ made) ∧ (usedLabels code).Perm (U ++ made ++ called) ∧
    ∀ f ∈ called, calls f ∧ (env.signatures.lookup f).isSome = true

namespace Balances

/-- A step that leaves the builder alone. -/
theorem of_builder {x : Lower α} (h : ∀ s a s', x env s = .ok a s' → s'.builder = s.builder) :
    x.Balances env calls [] [] := by
  intro s a s' hrun
  refine ⟨[], [], [], ?_, ?_, .nil, .nil, List.forall_mem_nil _⟩
  · rw [h s a s' hrun]
    rfl
  · rw [h s a s' hrun]
    exact .nil _

theorem pure {a : α} : (Pure.pure a : Lower α).Balances env calls [] [] :=
  of_builder fun s a s' h => by
    cases h
    rfl

theorem fail {fault : CodeFault} : (Lower.fail fault : Lower α).Balances env calls D U := by
  intro s a s' h
  cases h

theorem get : (MonadState.get : Lower LowerState).Balances env calls [] [] :=
  of_builder fun s a s' h => by
    cases h
    rfl

theorem update {f : LowerState → LowerState} (h : ∀ s, (f s).builder = s.builder) :
    (modify f : Lower Unit).Balances env calls [] [] :=
  of_builder fun s a s' hrun => by
    cases hrun
    exact h s

theorem read_bind {f : LowerEnv → Lower β} (h : (f env).Balances env calls D U) :
    ((MonadReader.read : Lower LowerEnv) >>= f).Balances env calls D U := by
  intro s b s' hrun
  rw [run_bind] at hrun
  exact h s b s' hrun

theorem within {label : String} {x : Lower α} (h : x.Balances env calls D U) :
    Balances (Lower.within label x) env calls D U := by
  intro s a s' hrun
  unfold Lower.within at hrun
  split at hrun
  case h_1 s₁ hx =>
    cases hrun
    exact h { s with site := label :: s.site } a s₁ hx
  case h_2 => cases hrun

/-- The labels may be listed in any order. -/
theorem perm {x : Lower α} {D' U' : List String} (hD : D'.Perm D) (hU : U'.Perm U)
    (h : x.Balances env calls D' U') : x.Balances env calls D U := by
  intro s a s' hrun
  obtain ⟨code, made, called, hcode, hmade, hdefined, hused, hcalled⟩ := h s a s' hrun
  exact ⟨code, made, called, hcode, hmade, hdefined.trans (hD.append_right _),
    hused.trans ((hU.append_right _).append_right _), hcalled⟩

/-- One step after another. -/
theorem bind_append {x : Lower α} {f : α → Lower β} {D' U' : List String}
    (hx : x.Balances env calls D U) (hf : ∀ a, (f a).Balances env calls D' U') :
    (x >>= f).Balances env calls (D ++ D') (U ++ U') := by
  intro s b s' hrun
  rw [run_bind] at hrun
  cases hxs : x env s with
  | error d s₁ =>
    rw [hxs] at hrun
    cases hrun
  | ok a s₁ =>
    rw [hxs] at hrun
    obtain ⟨code, made, called, hcode, hmade, hdefined, hused, hcalled⟩ := hx s a s₁ hxs
    obtain ⟨code', made', called', hcode', hmade', hdefined', hused', hcalled'⟩ := hf a s₁ b s' hrun
    refine ⟨code ++ code', made ++ made', called ++ called', ?_, hmade.trans hmade', ?_, ?_, ?_⟩
    · rw [hcode', hcode, List.reverse_append, List.append_assoc]
    · rw [definedLabels_append, List.perm_iff_count]
      intro l
      have := hdefined.count_eq l
      have := hdefined'.count_eq l
      simp only [List.count_append] at *
      omega
    · rw [usedLabels_append, List.perm_iff_count]
      intro l
      have := hused.count_eq l
      have := hused'.count_eq l
      simp only [List.count_append] at *
      omega
    · exact List.forall_mem_append.2 ⟨hcalled, hcalled'⟩

/-- A step whose labels are balanced in itself comes first. -/
theorem bind {x : Lower α} {f : α → Lower β} (hx : x.Balances env calls [] [])
    (hf : ∀ a, (f a).Balances env calls D U) : (x >>= f).Balances env calls D U :=
  bind_append hx hf

theorem builder : Lower.builder.Balances env calls [] [] :=
  bind get fun _ => pure

/-- An operation of the builder that appends at most one instruction. -/
theorem build {x : Build Unit} (hx : Builder.Operation x) (code : List Instruction)
    (h : ∀ b b', x b = .ok () b' → b'.emitted = code.reverse ++ b.emitted) {called : List String}
    (hcalled : ∀ f ∈ called, calls f ∧ (env.signatures.lookup f).isSome = true)
    (hused : (usedLabels code).Perm (U ++ called)) :
    (Lower.build x).Balances env calls (definedLabels code) U := by
  intro s a s' hrun
  unfold Lower.build at hrun
  cases hxs : x s.builder with
  | error e b =>
    rw [hxs] at hrun
    cases hrun
  | ok u b =>
    rw [hxs] at hrun
    cases hrun
    refine ⟨code, [], called, h _ _ hxs, .single hx hxs, ?_, ?_, hcalled⟩
    · rw [List.append_nil]
    · rw [List.append_nil]
      exact hused

theorem silent {x : Build Unit} (hx : Builder.Silent x) :
    (Lower.build x).Balances env calls [] [] :=
  build (.silent hx) [] (fun _ _ h => (hx.quiet h).emitted) (List.forall_mem_nil _) .nil

theorem comment {text : String} : (Lower.build (Builder.comment text)).Balances env calls [] [] :=
  build (.comment text) [.comment text] (fun _ _ h => by cases h; rfl) (List.forall_mem_nil _) .nil

theorem label {name : String} : (Lower.build (Builder.label name)).Balances env calls [name] [] :=
  build (.label name) [.label name] (fun _ _ h => by cases h; rfl) (List.forall_mem_nil _) .nil

/-- An operation that appends itself. -/
theorem emitted_op {code : Opcode} {operands : List Operand} {b b' : Builder}
    (h : Builder.push code operands b = .ok () b') :
    b'.emitted = [Instruction.op code operands].reverse ++ b.emitted := by
  obtain ⟨_, _, -, -, -, -, rfl⟩ := Lower.pushed_eq_ok (Builder.step_eq_ok h)
  rfl

/-- An operation is appended only if it has as many operands as parameters. -/
theorem length_operands {code : Opcode} {operands : List Operand} {s s' : LowerState} {a : Unit}
    (h : Lower.op code operands env s = .ok a s') : operands.length = code.params.length := by
  unfold Lower.op Lower.build at h
  split at h
  case h_1 b hpush =>
    obtain ⟨_, _, -, -, hlength, -, -⟩ := Lower.pushed_eq_ok (Builder.step_eq_ok hpush)
    exact hlength
  case h_2 => cases h

theorem op {code : Opcode} {operands : List Operand}
    (h : operands.length = code.params.length → ∀ l, .label l ∉ operands) :
    (Lower.op code operands).Balances env calls [] [] := by
  intro s a s' hrun
  have hunlabeled := h (length_operands hrun)
  have htarget : (Instruction.op code operands).target? = none := by
    refine List.findSome?_eq_none_iff.2 fun o ho => ?_
    cases o with
    | label l => exact absurd ho (hunlabeled l)
    | _ => rfl
  refine build (.push code operands) [.op code operands] (fun _ _ => emitted_op)
    (List.forall_mem_nil _) ?_ s a s' hrun
  rw [usedLabels_cons, htarget]
  exact .nil

/-- A jump to a label. -/
theorem branch {code : Opcode} {l : String} :
    (Lower.op code [.label l]).Balances env calls [] [l] :=
  build (.push code _) [.op code [.label l]] (fun _ _ => emitted_op) (List.forall_mem_nil _) (.refl _)

/-- A call of a function. -/
theorem callsub {callee : String} {sig : Signature} (hcallee : calls callee)
    (hsig : env.signatures.lookup callee = some sig) :
    (Lower.op .callsub [.label callee]).Balances env calls [] [] := by
  refine build (.push .callsub _) [.op .callsub [.label callee]] (fun _ _ => emitted_op) ?_ (.refl _)
  rintro f hf
  cases List.mem_singleton.1 hf
  exact ⟨hcallee, hsig ▸ rfl⟩

theorem label_bind {name : String} {f : Unit → Lower β} (h : (f ()).Balances env calls D U) :
    (Lower.build (Builder.label name) >>= f).Balances env calls (name :: D) U :=
  bind_append label fun _ => h

theorem branch_bind {code : Opcode} {l : String} {f : Unit → Lower β}
    (h : (f ()).Balances env calls D U) :
    (Lower.op code [.label l] >>= f).Balances env calls D (l :: U) :=
  bind_append branch fun _ => h

/-- A label that is handed out has to be defined and used once. -/
theorem freshLabel_bind {purpose : String} {f : String → Lower β}
    (h : ∀ l, (f l).Balances env calls (l :: D) (l :: U)) :
    (Lower.build (Builder.freshLabel purpose) >>= f).Balances env calls D U := by
  intro s b s' hrun
  rw [run_bind] at hrun
  obtain ⟨code, made, called, hcode, hmade, hdefined, hused, hcalled⟩ := h _
    { s with builder := { s.builder with nextLabel := s.builder.nextLabel + 1 } } b s' hrun
  refine ⟨code, Builder.labelOf purpose s.builder.nextLabel :: made, called, hcode,
    .fresh rfl hmade, hdefined.trans List.perm_middle.symm, hused.trans ?_, hcalled⟩
  exact List.perm_middle.symm.append_right _

/-! The rules that make labels use each of them for one jump. -/

theorem choice {condition left right : Lower Unit} (hc : condition.Balances env calls [] [])
    (hl : left.Balances env calls [] []) (hr : right.Balances env calls [] []) :
    (Lower.choice condition left right).Balances env calls [] [] := by
  refine freshLabel_bind fun elseLabel => freshLabel_bind fun endLabel => ?_
  refine perm (.swap _ _ _) (.swap _ _ _) (bind hc fun _ => branch_bind ?_)
  refine bind builder fun _ => bind hl fun _ => bind builder fun _ => branch_bind ?_
  refine label_bind (bind (silent (.restore _)) fun _ => bind hr fun _ => label_bind ?_)
  exact silent (.merge _)

theorem ifThen {condition : Lower Unit} {thenCode : Lower Bool}
    (hc : condition.Balances env calls [] []) (ht : thenCode.Balances env calls [] []) :
    (Lower.ifThen condition thenCode).Balances env calls [] [] := by
  refine bind hc fun _ => freshLabel_bind fun endLabel => branch_bind ?_
  refine bind builder fun _ => bind ht fun ends => label_bind ?_
  split
  · exact bind (silent (.restore _)) fun _ => pure
  · exact bind (silent (.merge _)) fun _ => pure

theorem ifThenElse {condition : Lower Unit} {thenCode elseCode : Lower Bool}
    (hc : condition.Balances env calls [] []) (ht : thenCode.Balances env calls [] [])
    (he : elseCode.Balances env calls [] []) :
    (Lower.ifThenElse condition thenCode elseCode).Balances env calls [] [] := by
  refine bind hc fun _ => freshLabel_bind fun elseLabel => freshLabel_bind fun endLabel => ?_
  refine perm (.swap _ _ _) (.swap _ _ _) (branch_bind ?_)
  refine bind builder fun _ => bind ht fun _ => bind builder fun _ => branch_bind ?_
  refine label_bind (bind (silent (.restore _)) fun _ => bind he fun _ => label_bind ?_)
  split
  · exact bind (silent (.merge _)) fun _ => pure
  · exact bind (silent (.restore _)) fun _ => pure
  · exact bind pure fun _ => pure

theorem whileDo {condition : Lower Unit} {body : Lower Bool}
    (hc : condition.Balances env calls [] []) (hb : body.Balances env calls [] []) :
    (Lower.whileDo condition body).Balances env calls [] [] := by
  refine freshLabel_bind fun startLabel => freshLabel_bind fun endLabel => ?_
  refine perm (.swap _ _ _) (.refl _) (label_bind (bind hc fun _ => branch_bind ?_))
  refine bind builder fun _ => bind hb fun _ => branch_bind (label_bind ?_)
  exact bind (silent (.restore _)) fun _ => pure

theorem doWhile {body : Lower Bool} {condition : Lower Unit}
    (hb : body.Balances env calls [] []) (hc : condition.Balances env calls [] []) :
    (Lower.doWhile body condition).Balances env calls [] [] := by
  refine freshLabel_bind fun startLabel => label_bind (bind builder fun _ => bind hb fun _ => ?_)
  exact bind (silent (.restore _)) fun _ => bind hc fun _ => branch_bind pure

/-- To be balanced as a property of steps. -/
def property (env : LowerEnv) (calls : String → Prop) : Lower.Relation env env calls where
  Holds x _ := x.Balances env calls [] []
  toAgrees := .refl _ _
  pure _ := pure
  fail _ _ := fail
  bind := bind
  read_bind := read_bind
  get_bind h := bind get fun s => h s s.builder.version s.builder.metrics
  update h _ := update fun s => (h s).1
  steady hx := silent hx.silent
  op hregular := op fun hlength => (hregular hlength).unlabeled
  callsub := callsub
  choice := choice
  ifThen := ifThen
  ifThenElse := ifThenElse
  whileDo := whileDo
  doWhile := doWhile

end Balances

end Lower

/-! ## Functions and programs -/

/-- The names of the functions that are not the entry. -/
def Function.subroutines (entry : String) (fs : List Function) : List String :=
  (fs.map Function.name).filter (· != entry)

section Functions

variable {env : LowerEnv} {calls : String → Prop} {entry : String}

theorem Function.lowerBody_balances (f : Function) {main : Bool}
    (h : ∀ n ∈ (Node.function f).called, calls n) :
    (f.lowerBody main).Balances env calls [] [] :=
  f.lowerBody_holds ((Lower.Balances.property env calls).everywhere .within)
    (σ := .refl) (fun _ => ⟨h, fun _ _ => rfl, fun _ _ _ => .comment⟩) (C := fun _ => True)
    fun _ _ => trivial

/-- All functions but the entry define their name. -/
theorem Function.lowerAll_balances {fs : List Function}
    (h : ∀ f ∈ fs, ∀ n ∈ (Node.function f).called, calls n) :
    (Function.lowerAll entry fs).Balances env calls (Function.subroutines entry fs) [] := by
  induction fs with
  | nil => exact .pure
  | cons f fs ih =>
    obtain ⟨hf, hfs⟩ := List.forall_mem_cons.1 h
    rw [Function.lowerAll, Function.subroutines, List.map_cons, List.filter_cons]
    cases hmain : f.name == entry with
    | true =>
      have hne : (f.name != entry) = false := by rw [bne, hmain]; rfl
      rw [hne]
      exact .bind (.within (f.lowerBody_balances hf)) fun _ => ih hfs
    | false =>
      have hne : (f.name != entry) = true := by rw [bne, hmain]; rfl
      rw [hne, if_pos rfl]
      have hlabel : Lower.Balances (Lower.within f.name (f.lower false)) env calls [f.name] [] := by
        refine .within (.bind .comment fun _ => .label_bind (.bind (.silent (.count _)) fun _ => ?_))
        exact f.lowerBody_balances hf
      exact .bind_append hlabel fun _ => ih hfs

end Functions

/-- How the labels of some code are defined and referred to, if some were made for it and some are
the names of subroutines. -/
structure LabelGraph (code : List Instruction) (made names : List String) : Prop where
  /-- No label is defined twice. -/
  nodup : (definedLabels code).Nodup
  /-- Every target is defined. -/
  closed : usedLabels code ⊆ definedLabels code
  /-- A label that was made is defined by one instruction and is the target of one. -/
  once : ∀ l ∈ made, code.countP (·.label? == some l) = 1 ∧ code.countP (·.target? == some l) = 1
  /-- A subroutine has one label, its name. -/
  named : ∀ n ∈ names, code.countP (·.label? == some n) = 1
  /-- There are no other labels. -/
  all : (definedLabels code).Perm (names ++ made)

/-- Labels that were made are not the name of an entry. -/
theorem Builder.labelOf_ne_functionName (purpose : String) (n : Nat) (entry : Entry) :
    labelOf purpose n ≠ entry.functionName := by
  intro h
  have hfirst : (labelOf purpose n).toList.head? = some '_' := by simp [labelOf]
  rw [h] at hfirst
  cases entry <;> exact absurd hfirst (by decide)

/-- The labels of a program: those that its builder has handed out, each defined and used once, and
the names of its subroutines. And whatever a builder does, the labels that it hands out are distinct. -/
theorem Program.generate_labelGraph {p : Program} {localType? : Nat → Option StackType}
    {version : Nat} {entry : Entry} {asm : Assembly}
    (h : p.generate localType? version entry = .ok asm) :
    (∃ main start s made, p.function? entry.functionName = some main ∧
      start = LowerState.ofEntry version entry (p.functions.length - (p.reachable main).length) ∧
      Function.lowerAll entry.functionName (p.reachable main) (.ofProgram p localType? entry) start =
        .ok () s ∧
      asm.code = s.builder.code ∧ Builder.Run start.builder made s.builder ∧
      LabelGraph asm.code made (Function.subroutines entry.functionName (p.reachable main))) ∧
    ∀ {b b' : Builder} {labels : List String}, Builder.Run b labels b' → labels.Nodup := by
  refine ⟨?_, fun hrun => hrun.labels_spec.1⟩
  obtain ⟨main, s, hmain, hrun, hfinish⟩ := Program.generate_eq_ok h
  obtain ⟨hcode, -, hnodup, hclosed, -⟩ := finish_eq_ok hfinish
  have hreached := Program.reachable_reached (Program.name_of_function? hmain ▸ hmain)
  have hcalls : ∀ f ∈ p.reachable main, ∀ n ∈ (Node.function f).called,
      ∃ f ∈ p.reachable main, n ∈ Program.callees f := by
    intro f hf n hn
    rw [Node.called_eq] at hn
    exact ⟨f, hf, hn⟩
  obtain ⟨code, made, called, hemitted, hmade, hdefined, hused, hcalled⟩ :=
    Function.lowerAll_balances hcalls _ _ _ hrun
  obtain rfl : s.builder.code = code := by
    rw [Builder.code, hemitted, List.reverse_append, List.reverse_reverse]
    rfl
  refine ⟨main, _, s, made, hmain, rfl, hrun, hcode, hmade, ?_⟩
  rw [hcode]
  obtain ⟨-, hmadeNodup, hdisjoint⟩ := List.nodup_append.1 (hdefined.nodup_iff.1 hnodup)
  -- What is called is a subroutine, so no label that was made is called.
  have hnotCalled : ∀ l ∈ made, l ∉ called := by
    intro l hl hmem
    obtain ⟨⟨f, hf, hcallee⟩, hsig⟩ := hcalled l hmem
    replace hsig : (p.signatures.lookup l).isSome = true := hsig
    rw [p.lookup_signatures, Option.isSome_map] at hsig
    obtain ⟨g, hg⟩ := Option.isSome_iff_exists.1 hsig
    have hgname := Program.name_of_function? hg
    have hne : l ≠ entry.functionName := by
      obtain ⟨purpose, n, rfl, -⟩ := hmade.labels_spec.2 l hl
      exact Builder.labelOf_ne_functionName purpose n entry
    have hsubroutine : l ∈ Function.subroutines entry.functionName (p.reachable main) := by
      refine List.mem_filter.2 ⟨?_, bne_iff_ne.2 hne⟩
      exact hgname ▸ List.mem_map_of_mem (hreached.closed f hf l hcallee g hg)
    exact hdisjoint l hsubroutine l hl rfl
  have hdefinedOnce : ∀ l ∈ Function.subroutines entry.functionName (p.reachable main) ++ made,
      s.builder.code.countP (·.label? == some l) = 1 := by
    intro l hl
    rw [← List.count_filterMap]
    exact List.count_eq_one_of_mem hnodup (hdefined.mem_iff.2 hl)
  have husedOnce : ∀ l ∈ made, s.builder.code.countP (·.target? == some l) = 1 := by
    intro l hl
    have hcount := hused.count_eq l
    rw [List.nil_append, List.count_append, List.count_eq_zero.2 (hnotCalled l hl),
      List.count_eq_one_of_mem hmadeNodup hl] at hcount
    rw [← List.count_filterMap]
    exact hcount
  exact ⟨hnodup, hclosed,
    fun l hl => ⟨hdefinedOnce l (List.mem_append_right _ hl), husedOnce l hl⟩,
    fun n hn => hdefinedOnce n (List.mem_append_left _ hn), hdefined⟩

/-- A program with a function whose name looks like a label that is made, with a loop, a switch and a
choice; and labels that are made from words with underscores and digits in them. -/
theorem Program.generate_labelGraph_alike :
    ∃ p asm made names, Source.program "def __if_end__9(x) \x7b return x > 1 ? x : 2; \x7d
        def Signature() \x7b i = 0; while (i < 3) \x7b i = i + 1; \x7d
          switch (i) \x7b case 1, 2 \x7b return 1; \x7d case 3 \x7b i = __if_end__9(i); \x7d \x7d
          return i; \x7d".toList = .ok p ∧
      p.generate (fun _ => none) 5 .signature = .ok asm ∧ LabelGraph asm.code made names ∧
      (names ++ made).Perm ["__while_start__0", "__while_end__1", "__if_else__2", "__if_end__4",
        "__if_end__3", "__if_end__9", "__ternary_else__5", "__ternary_end__6"] ∧
      ["__a__1__0", "__a__1", "__a__1__2"].Nodup := by
  have hrun : (do
      let p ← Source.program "def __if_end__9(x) \x7b return x > 1 ? x : 2; \x7d
        def Signature() \x7b i = 0; while (i < 3) \x7b i = i + 1; \x7d
          switch (i) \x7b case 1, 2 \x7b return 1; \x7d case 3 \x7b i = __if_end__9(i); \x7d \x7d
          return i; \x7d".toList
      let asm ← p.generate (fun _ => none) 5 .signature
      return definedLabels asm.code) = Except.ok ["__while_start__0", "__while_end__1",
        "__if_else__2", "__if_end__4", "__if_end__3", "__if_end__9", "__ternary_else__5",
        "__ternary_end__6"] := by
    rw [String.toList_ofList]
    decide +kernel
  obtain ⟨p, hp, hrun⟩ := ok_of_bind hrun
  obtain ⟨asm, hasm, hrun⟩ := ok_of_bind hrun
  obtain ⟨⟨main, start, s, made, -, -, -, -, -, hgraph⟩, hfresh⟩ := Program.generate_labelGraph hasm
  have hwords : Builder.Run (.new 5 .empty) ["__a__1__0", "__a__1", "__a__1__2"]
      { Builder.new 5 .empty with nextLabel := 3 } := by
    refine .fresh (show Builder.freshLabel "a__1" _ = _ from rfl) ?_
    refine .fresh (show Builder.freshLabel "a" _ = _ from rfl) ?_
    exact .fresh (show Builder.freshLabel "a__1" _ = _ from rfl) (.nil _)
  exact ⟨p, asm, made, _, hp, hasm, hgraph, Except.ok.inj hrun ▸ hgraph.all.symm, hfresh hwords⟩

end ContractCompiler
