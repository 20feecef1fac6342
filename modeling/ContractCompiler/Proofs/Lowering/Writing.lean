import ContractCompiler.Proofs.Lowering.Induction

/-!
# What a step of lowering writes

A step appends instructions to the code and takes none away. What holds of all that it appends is
told by the steps it is made of, whatever the context. The version of the machine and the mode stay
the same, and only operations that they admit are appended.
-/

namespace ContractCompiler

open Text (IsLine)

namespace Lower

variable {α β : Type} {env : LowerEnv} {machine : Nat × Mode} {P : Instruction → Prop}

/-- Whenever the step ends, the builder is for the same machine, and `P` holds of every instruction
that the step has appended. -/
def Writes (x : Lower α) (env : LowerEnv) (machine : Nat × Mode) (P : Instruction → Prop) : Prop :=
  ∀ s a s', s.builder.machine = machine → x env s = .ok a s' →
    s'.builder.machine = machine ∧ ∀ i ∈ s'.builder.emitted, i ∈ s.builder.emitted ∨ P i

/-- A machine admits an operation. -/
structure Admits (machine : Nat × Mode) (code : Opcode) : Prop where
  available : code.isAvailable machine.1 = true
  mode : Builder.checkMode code machine.2 = .ok ()

namespace Writes

theorem pure {a : α} : (Pure.pure a : Lower α).Writes env machine P := by
  intro s a s' hs h
  cases h
  exact ⟨hs, fun i hi => .inl hi⟩

theorem fail {fault : CodeFault} : (Lower.fail fault : Lower α).Writes env machine P := by
  intro s a s' hs h
  cases h

theorem bind {x : Lower α} {f : α → Lower β} (hx : x.Writes env machine P)
    (hf : ∀ a, (f a).Writes env machine P) : (x >>= f).Writes env machine P := by
  intro s b s' hs h
  rw [run_bind] at h
  cases hxs : x env s with
  | error d s₁ =>
    rw [hxs] at h
    cases h
  | ok a s₁ =>
    rw [hxs] at h
    obtain ⟨hs₁, hx⟩ := hx s a s₁ hs hxs
    obtain ⟨hs', hf⟩ := hf a s₁ b s' hs₁ h
    refine ⟨hs', fun i hi => ?_⟩
    rcases hf i hi with hi | hi
    · exact hx i hi
    · exact .inr hi

theorem read_bind {f : LowerEnv → Lower β} (h : (f env).Writes env machine P) :
    ((MonadReader.read : Lower LowerEnv) >>= f).Writes env machine P := by
  intro s b s' hs hrun
  rw [run_bind] at hrun
  exact h s b s' hs hrun

theorem within {label : String} {x : Lower α} (h : x.Writes env machine P) :
    Writes (Lower.within label x) env machine P := by
  intro s a s' hs hrun
  unfold Lower.within at hrun
  split at hrun
  case h_1 s₁ hx =>
    cases hrun
    exact h { s with site := label :: s.site } a s₁ hs hx
  case h_2 => cases hrun

theorem get : (MonadState.get : Lower LowerState).Writes env machine P := by
  intro s a s' hs h
  cases h
  exact ⟨hs, fun i hi => .inl hi⟩

theorem builder : Lower.builder.Writes env machine P :=
  bind get fun _ => pure

theorem update {f : LowerState → LowerState} (h : ∀ s, (f s).builder = s.builder) :
    (modify f : Lower Unit).Writes env machine P := by
  intro s a s' hs hrun
  cases hrun
  rw [h s]
  exact ⟨hs, fun i hi => .inl hi⟩

theorem build {x : Build Unit}
    (h : ∀ b b', b.machine = machine → x b = .ok () b' → b'.machine = machine ∧
      ∀ i ∈ b'.emitted, i ∈ b.emitted ∨ P i) : (Lower.build x).Writes env machine P := by
  intro s a s' hs hrun
  unfold Lower.build at hrun
  cases hx : x s.builder with
  | error e b =>
    rw [hx] at hrun
    cases hrun
  | ok a b =>
    rw [hx] at hrun
    cases hrun
    exact h _ _ hs hx

theorem silent {x : Build Unit} (hx : Builder.Silent x) :
    (Lower.build x).Writes env machine P := by
  refine build fun b b' hb hrun => ?_
  have hquiet := hx.quiet hrun
  rw [hquiet.machine, hquiet.emitted]
  exact ⟨hb, fun i hi => .inl hi⟩

/-- Appends an operation, which the machine must admit. -/
theorem op {code : Opcode} {operands : List Operand}
    (h : Admits machine code → operands.length = code.params.length → P (.op code operands)) :
    (Lower.op code operands).Writes env machine P := by
  refine build fun b b' hb hpush => ?_
  obtain ⟨cost, stack, hcost, hmode, hparams, -, rfl⟩ := pushed_eq_ok (Builder.step_eq_ok hpush)
  subst hb
  have hadmits : Admits b.machine code := ⟨Option.isSome_iff_exists.2 ⟨cost, hcost⟩, hmode⟩
  refine ⟨rfl, fun i hi => ?_⟩
  rcases List.mem_cons.1 hi with rfl | hi
  · exact .inr (h hadmits hparams)
  · exact .inl hi

theorem label {name : String} (h : P (.label name)) :
    (Lower.build (Builder.label name)).Writes env machine P := by
  refine build fun b b' hb hrun => ?_
  cases hrun
  refine ⟨hb, fun i hi => ?_⟩
  rcases List.mem_cons.1 hi with rfl | hi
  · exact .inr h
  · exact .inl hi

theorem comment {text : String} (h : P (.comment text)) :
    (Lower.build (Builder.comment text)).Writes env machine P := by
  refine build fun b b' hb hrun => ?_
  cases hrun
  refine ⟨hb, fun i hi => ?_⟩
  rcases List.mem_cons.1 hi with rfl | hi
  · exact .inr h
  · exact .inl hi

/-- A label that is made is a word and a number. -/
theorem freshLabel_bind {purpose : String} {f : String → Lower β} (hpurpose : IsLine purpose)
    (h : ∀ name, IsLine name → (f name).Writes env machine P) :
    (Lower.build (Builder.freshLabel purpose) >>= f).Writes env machine P := by
  intro s b s' hs hrun
  rw [run_bind] at hrun
  have hline : IsLine ("__" ++ purpose ++ "__" ++ toString s.builder.nextLabel) := by
    simp only [Text.isLine_append]
    exact ⟨⟨⟨by decide, hpurpose⟩, by decide⟩, Text.isLine_toString _⟩
  exact h _ hline
    { s with builder := { s.builder with nextLabel := s.builder.nextLabel + 1 } } b s' hs hrun

end Writes

/-- `P` holds of the instructions that are appended in a program, apart from calls: of operations
that the machine admits and whose operands are in order, of jumps and of labels. -/
structure SuitsLocal (machine : Nat × Mode) (P : Instruction → Prop) : Prop where
  op : ∀ {code operands}, Admits machine code → code.Regular operands → P (.op code operands)
  branch : ∀ {code l}, Admits machine code → code.params = [.label] → code ≠ .callsub →
    IsLine l → P (.op code [.label l])
  label : ∀ {l}, IsLine l → P (.label l)

namespace SuitsLocal

variable (h : SuitsLocal machine P)
include h

theorem keepsJumps : KeepsJumps IsLine (First fun x => x.Writes env machine P) where
  pure := .pure
  bind := .bind
  builder_bind h := .bind .builder fun b => h b b.version b.metrics
  steady hx := .silent hx.silent
  fresh := .freshLabel_bind
  branch hcode hne hl := .op fun hadmits _ => h.branch hadmits hcode hne hl
  label hl := .label (h.label hl)

omit h in
/-- What is written as a property of steps, if it holds of the calls as well. -/
def property (h : SuitsLocal machine P) {calls : String → Prop}
    (hcall : ∀ {callee sig}, calls callee → Admits machine .callsub →
      env.signatures.lookup callee = some sig → P (.op .callsub [.label callee])) :
    Lower.Relation env env calls where
  Holds := First fun x => x.Writes env machine P
  toAgrees := .refl _ _
  pure _ := .pure
  fail _ _ := .fail
  bind := .bind
  read_bind := .read_bind
  get_bind h := .bind .get fun s => h s s.builder.version s.builder.metrics
  update h _ := .update fun s => (h s).1
  steady hx := .silent hx.silent
  op hregular := .op fun hadmits hlength => h.op hadmits (hregular hlength)
  callsub hcallee hsig := .op fun hadmits _ => hcall hcallee hadmits hsig
  choice := h.keepsJumps.choice
  ifThen := h.keepsJumps.ifThen
  ifThenElse := h.keepsJumps.ifThenElse
  whileDo := h.keepsJumps.whileDo
  doWhile := h.keepsJumps.doWhile

end SuitsLocal

/-- `P` holds of the instructions that are appended in a program, whatever is called. -/
structure Suits (env : LowerEnv) (machine : Nat × Mode) (P : Instruction → Prop) : Prop
    extends SuitsLocal machine P where
  call : ∀ {callee sig}, Admits machine .callsub → env.signatures.lookup callee = some sig →
    P (.op .callsub [.label callee])

end Lower

/-! ## Functions -/

section Functions

variable {env : LowerEnv} {machine : Nat × Mode} {P : Instruction → Prop}

/-- Outside of an application, `P` holds of the comments for the messages that a node throws. -/
def Node.Throws (n : Node) (env : LowerEnv) (P : Instruction → Prop) : Prop :=
  env.entry.isApplication = false → ∀ m ∈ n.found Node.message?, P (.comment (throwText m))

theorem Function.lower_writes (h : Lower.SuitsLocal machine P) {calls : String → Prop}
    (hcall : ∀ {callee sig}, calls callee → Lower.Admits machine .callsub →
      env.signatures.lookup callee = some sig → P (.op .callsub [.label callee]))
    {f : Function} {main : Bool} (hhead : P (.comment (" " ++ f.display)))
    (hlabel : P (.label f.name)) (hcalls : ∀ n ∈ (Node.function f).called, calls n)
    (ht : (Node.function f).Throws env P) : (f.lower main).Writes env machine P := by
  have hbody : ∀ main, (f.lowerBody main).Writes env machine P := fun main =>
    f.lowerBody_holds ((h.property hcall).everywhere .within)
      (σ := .refl) (fun _ => ⟨hcalls, fun _ _ => rfl, fun henv m hm => .comment (ht henv m hm)⟩)
      (C := fun _ => True) fun _ _ => trivial
  cases main with
  | true => exact hbody true
  | false =>
    rw [Function.lower_subroutine]
    exact .bind (.comment hhead) fun _ => .bind (.label hlabel) fun _ => .bind (.silent (.count _)) fun _ =>
      hbody false

/-- What holds of single instructions, and of calls of the functions that are called, holds of all
that are written for some functions. -/
theorem Function.lowerAll_writes_calling (h : Lower.SuitsLocal machine P) {calls : String → Prop}
    (hcall : ∀ {callee sig}, calls callee → Lower.Admits machine .callsub →
      env.signatures.lookup callee = some sig → P (.op .callsub [.label callee]))
    {entry : String} {fs : List Function}
    (hnames : ∀ f ∈ fs, P (.comment (" " ++ f.display)) ∧ P (.label f.name))
    (hcalls : ∀ f ∈ fs, ∀ n ∈ (Node.function f).called, calls n)
    (ht : ∀ f ∈ fs, (Node.function f).Throws env P) :
    (Function.lowerAll entry fs).Writes env machine P := by
  induction fs with
  | nil => exact .pure
  | cons f fs ih =>
    obtain ⟨hf, hfs⟩ := List.forall_mem_cons.1 hnames
    obtain ⟨hcf, hcfs⟩ := List.forall_mem_cons.1 hcalls
    obtain ⟨htf, htfs⟩ := List.forall_mem_cons.1 ht
    exact .bind (.within (Function.lower_writes h hcall hf.1 hf.2 hcf htf)) fun _ =>
      ih hfs hcfs htfs

/-- What holds of single instructions holds of all that are written for some functions. -/
theorem Function.lowerAll_writes (h : Lower.Suits env machine P) {entry : String}
    {fs : List Function}
    (hnames : ∀ f ∈ fs, P (.comment (" " ++ f.display)) ∧ P (.label f.name))
    (ht : ∀ f ∈ fs, (Node.function f).Throws env P) :
    (Function.lowerAll entry fs).Writes env machine P :=
  Function.lowerAll_writes_calling h.toSuitsLocal (fun _ => h.call) hnames
    (fun _ _ _ _ => trivial) ht

end Functions

end ContractCompiler
