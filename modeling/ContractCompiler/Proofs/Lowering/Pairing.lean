import ContractCompiler.Proofs.Lowering.Rules

/-!
# Two runs of lowering

The same code can be lowered twice, in surroundings that say the same of it: for two versions of the
machine, say, or beside different functions. Lowering asks for the version only to find what an
operation costs, and looks at no counter. So the two runs go the same way, with the same code, until
one of them meets an operation that its version does not have.
-/

namespace ContractCompiler

/-- Two runs of lowering: what each of them takes as given, the version of the machine that it is for
and the number of functions that it leaves out. What the first version has, the second has too, and
no cheaper. -/
structure Pairing where
  env : LowerEnv
  env' : LowerEnv
  version : Nat
  version' : Nat
  pruned : Nat
  pruned' : Nat
  entry : env'.entry = env.entry
  costs : ∀ {op : Opcode} {c : Nat}, op.costAt version = some c →
    ∃ c', op.costAt version' = some c' ∧ c ≤ c'

namespace Pairing

variable {α : Type} {π : Pairing}

/-- The counters of the two runs. They differ in the cost, which is no lower in the second run, and in
the number of functions left out. -/
inductive Counts (π : Pairing) : Metrics → Metrics → Prop where
  | mk {m : Metrics} {k : Nat} (hpruned : m.pruned = π.pruned) (hle : m.staticCost ≤ k)
      (hexact : π.version = π.version' → k = m.staticCost) :
    Counts π m { m with staticCost := k, pruned := π.pruned' }

/-- The code of the two runs, which is the same. -/
inductive Builders (π : Pairing) : Builder → Builder → Prop where
  | mk {b : Builder} {m' : Metrics} (hversion : b.version = π.version)
      (hcounts : π.Counts b.metrics m') :
    Builders π b { b with version := π.version', metrics := m' }

/-- The contexts of the two runs. -/
inductive States (π : Pairing) : LowerState → LowerState → Prop where
  | mk {s : LowerState} {b' : Builder} (h : π.Builders s.builder b') :
    States π s { s with builder := b' }

/-- The first run may fail alone where its version does not have an operation. -/
def Refuses (π : Pairing) (fault : CodeFault) : Prop :=
  π.version ≠ π.version' ∧ ∃ op, fault = .unavailable op π.version

/-- How two runs of a step end: alike, or the first one is refused. -/
inductive Outcome {ε σ : Type} (R : σ → σ → Prop) (refuses : ε → Prop) :
    EStateM.Result ε σ α → EStateM.Result ε σ α → Prop where
  | ok {a : α} {s s' : σ} (h : R s s') : Outcome R refuses (.ok a s) (.ok a s')
  | error {e : ε} {s s' : σ} (h : R s s') : Outcome R refuses (.error e s) (.error e s')
  | refused {e : ε} {s : σ} {r : EStateM.Result ε σ α} (h : refuses e) :
    Outcome R refuses (.error e s) r

/-! ## Building -/

/-- A step of building goes the same way in both runs. -/
def Builds (π : Pairing) (x : Build α) : Prop :=
  ∀ b b', π.Builders b b' → Outcome π.Builders π.Refuses (x b) (x b')

theorem Counts.addOp {m m' : Metrics} {op : Opcode} {c c' : Nat} (h : π.Counts m m')
    (hc : op.costAt π.version = some c) (hc' : op.costAt π.version' = some c') (hle : c ≤ c') :
    π.Counts (m.addOp c) (m'.addOp c') := by
  obtain ⟨hpruned, hcost, hexact⟩ := h
  refine .mk hpruned (Nat.add_le_add hcost hle) fun hversion => ?_
  rw [hversion, hc'] at hc
  cases hc
  rw [hexact hversion]
  rfl

theorem Counts.setDepth {m m' : Metrics} (h : π.Counts m m') (depth : Nat) :
    π.Counts (m.setDepth depth) (m'.setDepth depth) := by
  obtain ⟨hpruned, hcost, hexact⟩ := h
  exact .mk hpruned hcost hexact

/-- Runs for the same version that leave out as many functions count the same. -/
theorem Counts.eq {m m' : Metrics} (h : π.Counts m m') (hversion : π.version = π.version')
    (hpruned : π.pruned = π.pruned') : m' = m := by
  obtain ⟨hm, -, hexact⟩ := h
  rw [hexact hversion, ← hpruned, ← hm]

namespace Builds

theorem update {f : Builder → Builder} (h : ∀ {b b'}, π.Builders b b' → π.Builders (f b) (f b')) :
    π.Builds (modify f : Build Unit) := fun _ _ hb => .ok (h hb)

theorem step {f : Builder → Except CodeFault Builder}
    (h : ∀ {b b'}, π.Builders b b' →
      (∃ e, f b = .error e ∧ (f b' = .error e ∨ π.Refuses e)) ∨
        ∃ c c', f b = .ok c ∧ f b' = .ok c' ∧ π.Builders c c') :
    π.Builds (Builder.step f) := by
  intro b b' hb
  unfold Builder.step
  rcases h hb with ⟨e, he, he' | hrefused⟩ | ⟨c, c', hc, hc', hbuilders⟩
  · rw [he, he']
    exact .error hb
  · rw [he]
    exact .refused hrefused
  · rw [hc, hc']
    exact .ok hbuilders

theorem push {op : Opcode} {operands : List Operand} : π.Builds (Builder.push op operands) := by
  refine step fun {b b'} hb => ?_
  obtain ⟨hversion, hcounts⟩ := hb
  rw [Lower.pushed_match, Lower.pushed_match, hversion]
  dsimp only
  cases hc : op.costAt π.version with
  | none =>
    refine .inl ⟨_, rfl, ?_⟩
    by_cases hsame : π.version = π.version'
    · left
      rw [← hsame, hc]
    · exact .inr ⟨hsame, op, rfl⟩
  | some c =>
    obtain ⟨c', hc', hle⟩ := π.costs hc
    rw [hc']
    dsimp only
    cases Builder.checkMode op b.mode with
    | error e => exact .inl ⟨e, rfl, .inl rfl⟩
    | ok =>
      dsimp only
      split
      · cases StackEffect.apply op operands b.stack with
        | error e => exact .inl ⟨e, rfl, .inl rfl⟩
        | ok stack =>
          exact .inr ⟨_, _, rfl, rfl, .mk rfl ((hcounts.addOp hc hc' hle).setDepth stack.length)⟩
      · exact .inl ⟨_, rfl, .inl rfl⟩

theorem label {name : String} : π.Builds (Builder.label name) :=
  update fun | .mk hversion (.mk hpruned hcost hexact) => .mk hversion (.mk hpruned hcost hexact)

theorem comment {text : String} : π.Builds (Builder.comment text) :=
  update fun | .mk hversion hcounts => .mk hversion hcounts

theorem freshLabel {purpose : String} : π.Builds (Builder.freshLabel purpose) :=
  fun | _, _, .mk hversion hcounts => .ok (.mk hversion hcounts)

theorem retypeTop {t : StackType} : π.Builds (Builder.retypeTop t) := by
  refine update fun {b b'} hb => ?_
  obtain ⟨emitted, stack, version, mode, metrics, nextLabel⟩ := b
  obtain ⟨hversion, hcounts⟩ := hb
  cases stack with
  | nil => exact .mk hversion hcounts
  | cons _ rest => exact .mk hversion hcounts

theorem callEffect {args : Nat} {returnsValue : Bool} :
    π.Builds (Builder.callEffect args returnsValue) := by
  refine step fun {b b'} hb => ?_
  obtain ⟨hversion, hcounts⟩ := hb
  dsimp only
  split
  · exact .inl ⟨_, rfl, .inl rfl⟩
  · exact .inr ⟨_, _, rfl, rfl, .mk hversion (hcounts.setDepth _)⟩

theorem restore {stack : StackShape} : π.Builds (Builder.restore stack) :=
  update fun | .mk hversion hcounts => .mk hversion hcounts

theorem merge {other : StackShape} : π.Builds (Builder.merge other) := by
  refine step fun {b b'} hb => ?_
  obtain ⟨hversion, hcounts⟩ := hb
  dsimp only
  split
  · exact .inl ⟨_, rfl, .inl rfl⟩
  · exact .inr ⟨_, _, rfl, rfl, .mk hversion hcounts⟩

theorem forget {depth : Nat} : π.Builds (Builder.forget depth) :=
  update fun | .mk hversion hcounts => .mk hversion hcounts

theorem placeholder :
    π.Builds (Builder.count fun m => { m with placeholders := m.placeholders + 1 }) :=
  update fun | .mk hversion (.mk hpruned hcost hexact) => .mk hversion (.mk hpruned hcost hexact)

theorem subroutine :
    π.Builds (Builder.count fun m => { m with subroutines := m.subroutines + 1 }) :=
  update fun | .mk hversion (.mk hpruned hcost hexact) => .mk hversion (.mk hpruned hcost hexact)

end Builds

end Pairing

/-! ## Steps that go the same way -/

namespace Lower

variable {α β : Type} {π : Pairing}

/-- The first step goes in the first run as the second does in the second. -/
def Paired (π : Pairing) (x x' : Lower α) : Prop :=
  ∀ s s', π.States s s' →
    Pairing.Outcome π.States (fun d => ∃ fault, d = .code fault none ∧ π.Refuses fault)
      (x π.env s) (x' π.env' s')

namespace Paired

theorem bind {x x' : Lower α} {f f' : α → Lower β} (hx : Paired π x x')
    (hf : ∀ a, Paired π (f a) (f' a)) : Paired π (x >>= f) (x' >>= f') := by
  intro s s' hs
  rw [run_bind, run_bind]
  have hends := hx s s' hs
  generalize x π.env s = r at hends
  generalize x' π.env' s' = r' at hends
  cases hends with
  | @ok a t t' ht => exact hf a t t' ht
  | error ht => exact .error ht
  | refused hrefused => exact .refused hrefused

theorem pure {a : α} : Paired π (Pure.pure a) (Pure.pure a) := fun _ _ hs => .ok hs

theorem fail {fault : CodeFault} : Paired π (Lower.fail fault : Lower α) (Lower.fail fault) :=
  fun _ _ hs => .error hs

/-- Looking at the context: whatever is done with it may not depend on how much was counted. -/
theorem get_bind {f f' : LowerState → Lower α}
    (h : ∀ s version metrics, Paired π (f s) (f' (s.recount version metrics))) :
    Paired π (MonadState.get >>= f) (MonadState.get >>= f') := by
  rintro s _ ⟨⟨hversion, hcounts⟩⟩
  rw [run_bind, run_bind]
  exact h s _ _ s _ (.mk (.mk hversion hcounts))

/-- Looking at the code. -/
theorem builder_bind {f f' : Builder → Lower α}
    (h : ∀ b version metrics, Paired π (f b) (f' { b with version, metrics })) :
    Paired π (Lower.builder >>= f) (Lower.builder >>= f') :=
  get_bind fun s => h s.builder

theorem read_bind {f f' : LowerEnv → Lower α} (h : Paired π (f π.env) (f' π.env')) :
    Paired π (MonadReader.read >>= f) (MonadReader.read >>= f') := by
  intro s s' hs
  rw [run_bind, run_bind]
  exact h s s' hs

theorem update {f : LowerState → LowerState} (hbuilder : ∀ s, (f s).builder = s.builder)
    (h : ∀ s version metrics, f (s.recount version metrics) = (f s).recount version metrics) :
    Paired π (modify f : Lower Unit) (modify f) := by
  rintro s _ ⟨@⟨metrics, hversion, hcounts⟩⟩
  refine .ok ?_
  rw [← hbuilder s] at hversion hcounts
  exact (h s π.version' metrics).symm ▸ .mk (.mk hversion hcounts)

theorem build {x : Build α} (hx : π.Builds x) : Paired π (Lower.build x) (Lower.build x) := by
  rintro s _ ⟨hb⟩
  unfold Lower.build
  have hends := hx _ _ hb
  generalize x s.builder = r at hends
  dsimp only
  generalize x _ = r' at hends
  cases hends with
  | ok hb' => exact .ok (.mk hb')
  | error hb' => exact .error (.mk hb')
  | refused hrefused => exact .refused ⟨_, rfl, hrefused⟩

theorem op {code : Opcode} {operands : List Operand} :
    Paired π (Lower.op code operands) (Lower.op code operands) := build .push

theorem within {label : String} {x x' : Lower α} (hx : Paired π x x') :
    Paired π (Lower.within label x) (Lower.within label x') := by
  rintro s _ ⟨hb⟩
  unfold Lower.within
  have hends := hx { s with site := label :: s.site } _ (.mk hb)
  generalize x π.env _ = r at hends
  dsimp only
  generalize x' π.env' _ = r' at hends
  cases hends with
  | ok ht =>
    obtain ⟨hb'⟩ := ht
    exact .ok (.mk hb')
  | error ht =>
    obtain ⟨hb'⟩ := ht
    exact .error (.mk hb')
  | refused hrefused => exact .refused hrefused

theorem steady {x : Build Unit} (hx : Builder.Steady x) :
    Paired π (Lower.build x) (Lower.build x) := by
  cases hx with
  | retypeTop => exact build .retypeTop
  | callEffect => exact build .callEffect
  | restore => exact build .restore
  | merge => exact build .merge
  | forget => exact build .forget
  | placeholder => exact build .placeholder

theorem keepsJumps : KeepsJumps (fun _ => True) (Paired π) where
  pure := pure
  bind := bind
  builder_bind := builder_bind
  steady := steady
  fresh _ h := bind (build .freshLabel) fun l => h l trivial
  branch _ _ _ := op
  label _ := build .label

/-- Going the same way as a relation between steps, if both runs know the same of what is called. -/
def relation (π : Pairing) {calls : String → Prop} (hcalls : ∀ {callee : String}, calls callee →
    π.env'.signatures.lookup callee = π.env.signatures.lookup callee) :
    Lower.Relation π.env π.env' calls where
  Holds := Paired π
  entry := π.entry
  signature := hcalls
  pure _ := pure
  fail _ _ := fail
  bind := bind
  read_bind := read_bind
  get_bind := get_bind
  update h := update fun s => (h s).1
  steady := steady
  op _ := op
  callsub _ _ := op
  choice := keepsJumps.choice
  ifThen := keepsJumps.ifThen
  ifThenElse := keepsJumps.ifThenElse
  whileDo := keepsJumps.whileDo
  doWhile := keepsJumps.doWhile

end Paired

end Lower

end ContractCompiler
