import ContractCompiler.Proofs.Lowering.Induction

/-!
# Where lowering fails

A failure is raised by a single step, inside of constructs that were entered one after the other.
The constructs that are open are the same after a construct as before, whether its code is complete
or not. What is reported of a failure is the function and the constructs around the step that raised
it, and they are reported once.
-/

namespace ContractCompiler

/-! ## Faults in words -/

/-- A text that does not end in a closing bracket. -/
def Text.EndsOpen (text : String) : Prop :=
  ∃ c, text.toList.getLast? = some c ∧ c ≠ ')'

theorem Text.EndsOpen.append {front back : String} (h : EndsOpen back) :
    EndsOpen (front ++ back) := by
  obtain ⟨c, hlast, hc⟩ := h
  refine ⟨c, ?_, hc⟩
  rw [String.toList_append, List.getLast?_append, hlast, Option.some_or]

/-- No failure is put in words by whoever drives the generator. -/
def CodeFault.Unstated {α : Type} (x : Except CodeFault α) : Prop :=
  ∀ fault, x = .error fault → fault.isStated = false

namespace CodeFault.Unstated

theorem ok {α : Type} {a : α} : Unstated (.ok a) := nofun

theorem error {α : Type} {fault : CodeFault} (h : fault.isStated = false) :
    Unstated (.error fault : Except CodeFault α) := by
  rintro _ ⟨⟩
  exact h

theorem bind {α β : Type} {x : Except CodeFault α} {f : α → Except CodeFault β} (hx : Unstated x)
    (hf : ∀ a, Unstated (f a)) : Unstated (x >>= f) := by
  cases x with
  | error fault => exact error (hx fault rfl)
  | ok a => exact hf a

theorem peek {op : Opcode} {depth : Nat} {stack : StackShape} :
    Unstated (StackEffect.peek op depth stack) := by
  unfold StackEffect.peek
  split
  · exact ok
  · exact error rfl

theorem depthOperand {op : Opcode} {operands : List Operand} :
    Unstated (StackEffect.depthOperand op operands) := by
  unfold StackEffect.depthOperand
  split
  · exact ok
  · exact error rfl

theorem checkTypes {op : Opcode} {wanted slots : List StackType} {index : Nat} :
    Unstated (StackEffect.checkTypes op wanted slots index) := by
  fun_induction StackEffect.checkTypes op wanted slots index with
  | case1 _ _ _ _ _ _ ih => exact ih
  | case2 => exact error rfl
  | case3 => exact ok

theorem apply {op : Opcode} {operands : List Operand} {stack : StackShape} :
    Unstated (StackEffect.apply op operands stack) := by
  unfold StackEffect.apply
  split
  · exact bind peek fun _ => ok
  · exact bind peek fun _ => bind peek fun _ => ok
  · exact bind depthOperand fun _ => bind peek fun _ => ok
  · exact bind peek fun _ => bind peek fun _ => ok
  · exact bind depthOperand fun _ => bind peek fun _ => bind peek fun _ => ok
  · exact bind depthOperand fun _ => bind peek fun _ => ok
  · unfold StackEffect.replace
    dsimp only
    split
    · exact error rfl
    · exact bind checkTypes fun _ => ok

theorem checkMode {op : Opcode} {mode : Mode} : Unstated (Builder.checkMode op mode) := by
  unfold Builder.checkMode
  split
  · exact ok
  · split
    · exact ok
    · exact error rfl
  · split
    · exact ok
    · exact error rfl

theorem pushed {b : Builder} {op : Opcode} {operands : List Operand} :
    Unstated (b.pushed op operands) := by
  unfold Builder.pushed
  split
  · exact error rfl
  · refine bind checkMode fun _ => ?_
    dsimp only
    split
    · exact error rfl
    · exact bind apply fun _ => ok

end CodeFault.Unstated

/-! ## Steps -/

namespace Lower

variable {α β : Type} {env : LowerEnv} {C : List String → Prop}

/-- A step raises a fault inside of constructs, outermost first. It fails on its own account or on
that of the builder, or else it is put together from steps: those before the one that raises the
fault have come to an end. -/
inductive Raises (env : LowerEnv) :
    {α : Type} → Lower α → LowerState → List String → CodeFault → Prop
  | fail {α : Type} {s : LowerState} {fault : CodeFault} :
    Raises env (Lower.fail fault : Lower α) s [] fault
  | build {α : Type} {x : Build α} {s : LowerState} {fault : CodeFault} {b : Builder} :
    x s.builder = .error fault b → Raises env (Lower.build x) s [] fault
  | first {α β : Type} {x : Lower α} {f : α → Lower β} {s : LowerState} {chain : List String}
    {fault : CodeFault} : Raises env x s chain fault → Raises env (x >>= f) s chain fault
  | later {α β : Type} {x : Lower α} {f : α → Lower β} {a : α} {s s₁ : LowerState}
    {chain : List String} {fault : CodeFault} : x env s = .ok a s₁ →
    Raises env (f a) s₁ chain fault → Raises env (x >>= f) s chain fault
  | within {α : Type} {x : Lower α} {label : String} {s : LowerState} {chain : List String}
    {fault : CodeFault} : Raises env x { s with site := label :: s.site } chain fault →
    Raises env (Lower.within label x) s (label :: chain) fault

/-- What is noted of a failure inside of constructs, seen from a step. -/
def noted (site : List String) : List String → Option (List String)
  | [] => none
  | chain => some (site.reverse ++ chain)

/-- The step leaves the constructs that are open as they are. If it fails, a fault was raised inside
of constructs of which `C` holds, and these are noted. -/
def Blames (x : Lower α) (env : LowerEnv) (C : List String → Prop) : Prop :=
  ∀ s, s.failedAt = none →
    match x env s with
    | .ok _ s' => s'.site = s.site ∧ s'.failedAt = none
    | .error d s' => s'.site = s.site ∧ ∃ chain fault, C chain ∧ Raises env x s chain fault ∧
      fault.isStated = false ∧ d = .code fault none ∧ s'.failedAt = noted s.site chain

namespace Blames

theorem mono {x : Lower α} {C' : List String → Prop} (h : x.Blames env C)
    (hC : ∀ chain, C chain → C' chain) : x.Blames env C' := by
  intro s hs
  have h := h s hs
  cases hrun : x env s with
  | ok a s' =>
    rw [hrun] at h
    exact h
  | error d s' =>
    rw [hrun] at h
    obtain ⟨hsite, chain, fault, hchain, hrest⟩ := h
    exact ⟨hsite, chain, fault, hC _ hchain, hrest⟩

theorem pure {a : α} : (Pure.pure a : Lower α).Blames env C :=
  fun _ hs => ⟨rfl, hs⟩

theorem fail {fault : CodeFault} (hC : C []) (h : fault.isStated = false) :
    (Lower.fail fault : Lower α).Blames env C :=
  fun _ hs => ⟨rfl, [], fault, hC, .fail, h, rfl, hs⟩

theorem bind_of_ok {x : Lower α} {f : α → Lower β} (hx : x.Blames env C)
    (hf : ∀ s a s₁, x env s = .ok a s₁ → (f a).Blames env C) : (x >>= f).Blames env C := by
  intro s hs
  have hx := hx s hs
  rw [run_bind]
  cases hrun : x env s with
  | error d s₁ =>
    rw [hrun] at hx
    obtain ⟨hsite, chain, fault, hC, hraises, hrest⟩ := hx
    exact ⟨hsite, chain, fault, hC, .first hraises, hrest⟩
  | ok a s₁ =>
    rw [hrun] at hx
    obtain ⟨hsite, hfailed⟩ := hx
    have hf := hf s a s₁ hrun s₁ hfailed
    rw [hsite] at hf
    dsimp only
    cases hnext : f a env s₁ with
    | ok b s' =>
      rw [hnext] at hf
      exact hf
    | error d s' =>
      rw [hnext] at hf
      obtain ⟨hsite, chain, fault, hC, hraises, hrest⟩ := hf
      exact ⟨hsite, chain, fault, hC, .later hrun hraises, hrest⟩

theorem bind {x : Lower α} {f : α → Lower β} (hx : x.Blames env C)
    (hf : ∀ a, (f a).Blames env C) : (x >>= f).Blames env C :=
  bind_of_ok hx fun _ a _ _ => hf a

theorem read_bind {f : LowerEnv → Lower β} (h : (f env).Blames env C) :
    ((MonadReader.read : Lower LowerEnv) >>= f).Blames env C := by
  refine bind_of_ok (fun _ hs => ⟨rfl, hs⟩) fun s a s₁ hrun => ?_
  cases hrun
  exact h

theorem build {x : Build α} (hC : C [])
    (h : ∀ b fault b', x b = .error fault b' → fault.isStated = false) :
    (Lower.build x).Blames env C := by
  intro s hs
  unfold Lower.build
  cases hx : x s.builder with
  | ok a b => exact ⟨rfl, hs⟩
  | error fault b => exact ⟨rfl, [], fault, hC, .build hx, h _ _ _ hx, rfl, hs⟩

/-- What is noted inside of a construct names the construct as well. -/
theorem within {label : String} {x : Lower α} (h : x.Blames env fun chain => C (label :: chain)) :
    Blames (Lower.within label x) env C := by
  intro s hs
  have h := h { s with site := label :: s.site } hs
  unfold Lower.within
  cases hrun : x env { s with site := label :: s.site } with
  | ok a s' =>
    rw [hrun] at h
    exact ⟨rfl, h.2⟩
  | error d s' =>
    rw [hrun] at h
    obtain ⟨-, chain, fault, hC, hraises, hstated, hd, hfailed⟩ := h
    refine ⟨rfl, label :: chain, fault, hC, .within hraises, hstated, hd, ?_⟩
    show s'.failedAt.or _ = _
    rw [hfailed]
    cases chain with
    | nil => simp [noted]
    | cons inner chain => simp [noted]

/-- A step of the builder that fails on account of what comes after it. -/
theorem build_step {f : Builder → Except CodeFault Builder} (hC : C [])
    (h : ∀ b, CodeFault.Unstated (f b)) : (Lower.build (Builder.step f)).Blames env C := by
  refine build hC fun b fault b' hrun => h b fault ?_
  unfold Builder.step at hrun
  cases hf : f b with
  | ok b₁ =>
    rw [hf] at hrun
    cases hrun
  | error e =>
    rw [hf] at hrun
    cases hrun
    rfl

theorem op {code : Opcode} {operands : List Operand} (hC : C []) :
    (Lower.op code operands).Blames env C :=
  build_step hC fun _ => .pushed

theorem silent {x : Build Unit} (hC : C []) (hx : Builder.Silent x) :
    (Lower.build x).Blames env C := by
  cases hx with
  | retypeTop | restore | forget | count => exact build hC fun _ _ _ h => by cases h
  | callEffect | merge =>
    refine build_step hC fun b => ?_
    split
    · exact .error rfl
    · exact .ok

theorem get : (MonadState.get : Lower LowerState).Blames env C :=
  fun _ hs => ⟨rfl, hs⟩

theorem builder : Lower.builder.Blames env C :=
  bind get fun _ => pure

theorem label {name : String} (hC : C []) : (Lower.build (Builder.label name)).Blames env C :=
  build hC fun _ _ _ h => by cases h

theorem keepsJumps : KeepsJumps (fun _ => True) (First fun x => C [] → x.Blames env C) where
  pure _ := pure
  bind hx hf hC := bind (hx hC) fun a => hf a hC
  builder_bind h hC := bind builder fun b => h b b.version b.metrics hC
  steady hx hC := silent hC hx.silent
  fresh _ h hC := bind (build hC fun _ _ _ h => by cases h) fun l => h l trivial hC
  branch _ _ _ hC := op hC
  label _ hC := label hC

end Blames

end Lower

/-! ## Functions and programs -/

section Functions

variable {env : LowerEnv}

end Functions

end ContractCompiler
