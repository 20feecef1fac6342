import Mathlib.Data.List.Forall2
import ContractCompiler.Proofs.Assembly.Lines
import ContractCompiler.Proofs.Lowering.Places

/-!
# Relations between runs of lowering

The same code can be lowered twice, in surroundings that say the same of it. What holds of single
steps of two runs and is kept when steps are put together holds of every rule of lowering, whatever the
program and whether it was checked or not. A property of the steps of one run is such a relation, which
says nothing of the other run.

Operations get operands of the right kinds at every place where they are appended, and the integers
that must fit in a byte do. So a relation has to hold only of operations with such operands, and of the
few rules that make labels.
-/

namespace ContractCompiler

open Text (IsLine)

/-! ## Operands -/

/-- Whether an operand is of the kind of a parameter. -/
def Operand.isOf : Operand → Param → Bool
  | uint _, .uint | bytes _, .bytes | label _, .label | field _, .field => true
  | _, _ => false

/-- Whether the integers that an operation takes as operands have to fit in a byte. -/
def Opcode.takesByte : Opcode → Bool
  | dig | cover | uncover | load | txna | gtxn | arg => true
  | _ => false

/-- The operands of an operation match its parameters in number and kind, and fit in a byte where they
have to. -/
structure Opcode.Takes (code : Opcode) (operands : List Operand) : Prop where
  kinds : List.Forall₂ (fun o p => o.isOf p = true) operands code.params
  byte : code.takesByte = true → ∀ n, .uint n ∈ operands → n.toNat ≤ maxImmediate

/-- Operands that are in order, none of which is a label, and which are single lines. -/
structure Opcode.Regular (code : Opcode) (operands : List Operand) : Prop
    extends code.Takes operands where
  unlabeled : ∀ l, .label l ∉ operands
  line : ∀ o ∈ operands, IsLine o.text

namespace Opcode

variable {code : Opcode}

theorem Regular.nil (h : code.params = []) : code.Regular [] where
  kinds := h ▸ .nil
  byte _ n hn := by cases hn
  unlabeled l hl := by cases hl
  line := List.forall_mem_nil _

/-- An integer that fits in a byte. -/
theorem Regular.small {n : UInt64} (h : code.params = [.uint]) (hn : n.toNat ≤ maxImmediate) :
    code.Regular [.uint n] where
  kinds := h ▸ .cons rfl .nil
  byte _ m hm := by
    cases List.mem_singleton.1 hm
    exact hn
  unlabeled l hl := by cases List.mem_singleton.1 hl
  line := by simp

/-- A height that fits in a byte. -/
theorem Regular.height {n : Nat} (h : code.params = [.uint]) (hn : n ≤ maxImmediate) :
    code.Regular [.uint (UInt64.ofNat n)] := by
  refine .small h ?_
  rw [UInt64.toNat_ofNat']
  exact Nat.le_trans (Nat.mod_le _ _) hn

theorem Regular.pushint {n : UInt64} : Regular .pushint [.uint n] where
  kinds := .cons rfl .nil
  byte h := by cases h
  unlabeled l hl := by cases List.mem_singleton.1 hl
  line := by simp

theorem Regular.pushbytes {b : List UInt8} : Regular .pushbytes [.bytes b] where
  kinds := .cons rfl .nil
  byte h := by cases h
  unlabeled l hl := by cases List.mem_singleton.1 hl
  line := by simp

/-- The name of a field. -/
theorem Regular.field {f : String} (h : code.params = [.field]) (hf : IsLine f) :
    code.Regular [.field f] where
  kinds := h ▸ .cons rfl .nil
  byte _ m hm := by cases List.mem_singleton.1 hm
  unlabeled l hl := by cases List.mem_singleton.1 hl
  line := by simpa using hf

theorem Regular.txna {f : String} {n : UInt64} (hf : IsLine f) (hn : n.toNat ≤ maxImmediate) :
    Regular .txna [.field f, .uint n] where
  kinds := .cons rfl (.cons rfl .nil)
  byte _ m hm := by
    simp only [List.mem_cons, List.not_mem_nil, or_false, reduceCtorEq, false_or] at hm
    cases hm
    exact hn
  unlabeled l hl := by simp at hl
  line := by simpa using hf

theorem Regular.gtxn {f : String} {n : UInt64} (hf : IsLine f) (hn : n.toNat ≤ maxImmediate) :
    Regular .gtxn [.uint n, .field f] where
  kinds := .cons rfl (.cons rfl .nil)
  byte _ m hm := by
    simp only [List.mem_cons, List.not_mem_nil, or_false, reduceCtorEq] at hm
    cases hm
    exact hn
  unlabeled l hl := by simp at hl
  line := by simpa using hf

end Opcode

/-! ## Fields -/

/-- The fields that are named to read a place. -/
def Load.fields {ι : Type} : Load ι → List String
  | .field _ f _ => [f]
  | .element a _ => [a.elements]
  | .group _ f => [f.field]
  | .named _ | .account .. | .scratch _ | .argumentCount | .argument _ => []

theorem LedgerField.isLine_of_find? {table : List LedgerField} {m : String} {x : LedgerField}
    (htable : table ∈ [transaction, global, currentApplication]) (h : find? table m = some x) :
    IsLine x.field := by
  have hall : ∀ table ∈ [transaction, global, currentApplication], ∀ x ∈ table,
      IsLine x.field := by decide
  exact hall table htable x (List.mem_of_find?_eq_some h)

theorem LedgerArray.isLine_of_find? {m : String} {a : LedgerArray} (h : find? m = some a) :
    IsLine a.elements ∧ IsLine a.count := by
  have hall : ∀ a ∈ all, IsLine a.elements ∧ IsLine a.count := by decide
  exact hall a (List.mem_of_find?_eq_some h)

/-- The names of fields are single lines. -/
theorem Load.isLine_fields {ι : Type} {steps : List (Step ι)} {load : Load ι}
    (h : ofSteps? steps = some load) : ∀ n ∈ load.fields, IsLine n := by
  cases serves h with
  | count ha => exact List.forall_mem_singleton.2 (LedgerArray.isLine_of_find? ha).2
  | element ha => exact List.forall_mem_singleton.2 (LedgerArray.isLine_of_find? ha).1
  | groupSize => exact List.forall_mem_singleton.2 (by decide)
  | transaction hx | currentApplication hx | global hx | group hx =>
    exact List.forall_mem_singleton.2 (LedgerField.isLine_of_find? (by simp) hx)
  | _ => exact List.forall_mem_nil _

/-! ## Properties of steps -/

/-- The operations of building that append nothing and make no label. -/
inductive Builder.Silent : Build Unit → Prop where
  | retypeTop (t : StackType) : Silent (retypeTop t)
  | callEffect (args : Nat) (returnsValue : Bool) : Silent (callEffect args returnsValue)
  | restore (stack : StackShape) : Silent (restore stack)
  | merge (other : StackShape) : Silent (merge other)
  | forget (depth : Nat) : Silent (forget depth)
  | count (f : Metrics → Metrics) : Silent (count f)

/-- From one builder to another, nothing was appended and no label was made. -/
structure Builder.Quiet (b b' : Builder) : Prop where
  emitted : b'.emitted = b.emitted
  nextLabel : b'.nextLabel = b.nextLabel
  machine : b'.machine = b.machine

/-- A step of building that ends gives the builder after it. -/
theorem Builder.step_eq_ok {f : Builder → Except CodeFault Builder} {b b' : Builder}
    (h : step f b = .ok () b') : f b = .ok b' := by
  unfold step at h
  split at h
  case h_1 hf =>
    cases h
    exact hf
  case h_2 => cases h

theorem Builder.Silent.quiet {x : Build Unit} (hx : Silent x) {b b' : Builder}
    (h : x b = .ok () b') : b.Quiet b' := by
  cases hx with
  | retypeTop t =>
    obtain ⟨emitted, stack, version, mode, metrics, nextLabel⟩ := b
    cases stack <;> cases h <;> exact ⟨rfl, rfl, rfl⟩
  | restore | forget | count =>
    cases h
    exact ⟨rfl, rfl, rfl⟩
  | callEffect | merge =>
    replace h := step_eq_ok h
    split at h
    · cases h
    · cases h
      exact ⟨rfl, rfl, rfl⟩

/-- Whether a fault is put in words by whoever drives the generator. -/
def CodeFault.isStated : CodeFault → Bool
  | stated _ => true
  | _ => false

/-- The operations of building that lowering takes besides appending and making labels. -/
inductive Builder.Steady : Build Unit → Prop where
  | retypeTop (t : StackType) : Steady (retypeTop t)
  | callEffect (args : Nat) (returnsValue : Bool) : Steady (callEffect args returnsValue)
  | restore (stack : StackShape) : Steady (restore stack)
  | merge (other : StackShape) : Steady (merge other)
  | forget (depth : Nat) : Steady (forget depth)
  | placeholder : Steady (count fun m => { m with placeholders := m.placeholders + 1 })

theorem Builder.Steady.silent {x : Build Unit} (hx : Steady x) : Silent x := by
  cases hx with
  | retypeTop t => exact .retypeTop t
  | callEffect args returnsValue => exact .callEffect args returnsValue
  | restore stack => exact .restore stack
  | merge other => exact .merge other
  | forget depth => exact .forget depth
  | placeholder => exact .count _

/-- A context with code for another version, and with other counters. -/
abbrev LowerState.recount (s : LowerState) (version : Nat) (metrics : Metrics) : LowerState :=
  { s with builder := { s.builder with version, metrics } }

/-- What two runs have in common, if `calls` holds of the functions that are called. -/
structure LowerEnv.Agrees (env env' : LowerEnv) (calls : String → Prop) : Prop where
  entry : env'.entry = env.entry
  signature : ∀ {callee : String}, calls callee →
    env'.signatures.lookup callee = env.signatures.lookup callee

theorem LowerEnv.Agrees.refl (env : LowerEnv) (calls : String → Prop) : Agrees env env calls :=
  ⟨rfl, fun _ => rfl⟩

/-- A relation between steps of two runs that holds of the smallest ones and is kept when steps are
put together. Of calls, it has to hold only of those of functions that `calls` holds of. -/
structure Lower.Relation (env env' : LowerEnv) (calls : String → Prop) extends
    LowerEnv.Agrees env env' calls where
  Holds : {α : Type} → Lower α → Lower α → Prop
  pure : ∀ {α : Type} (a : α), Holds (Pure.pure a : Lower α) (Pure.pure a)
  fail : ∀ {α : Type} (fault : CodeFault), fault.isStated = false →
    Holds (Lower.fail fault : Lower α) (Lower.fail fault)
  bind : ∀ {α β : Type} {x x' : Lower α} {f f' : α → Lower β}, Holds x x' →
    (∀ a, Holds (f a) (f' a)) → Holds (x >>= f) (x' >>= f')
  /-- What is taken as given is known. -/
  read_bind : ∀ {β : Type} {f f' : LowerEnv → Lower β}, Holds (f env) (f' env') →
    Holds (MonadReader.read >>= f) (MonadReader.read >>= f')
  /-- The context: whatever is done with it may not depend on how much was counted. -/
  get_bind : ∀ {β : Type} {f f' : LowerState → Lower β},
    (∀ s version metrics, Holds (f s) (f' (s.recount version metrics))) →
    Holds (MonadState.get >>= f) (MonadState.get >>= f')
  /-- A change of the context that leaves the builder alone, and what is known of constructs. -/
  update : ∀ {f : LowerState → LowerState}, (∀ s, (f s).builder = s.builder ∧
    (f s).site = s.site ∧ (f s).failedAt = s.failedAt) →
    (∀ s version metrics, f (s.recount version metrics) = (f s).recount version metrics) →
    Holds (modify f : Lower Unit) (modify f)
  steady : ∀ {x : Build Unit}, Builder.Steady x → Holds (Lower.build x) (Lower.build x)
  /-- An operation with a wrong number of operands is not appended. -/
  op : ∀ {code : Opcode} {operands : List Operand},
    (operands.length = code.params.length → code.Regular operands) →
    Holds (Lower.op code operands) (Lower.op code operands)
  callsub : ∀ {callee : String} {sig : Signature}, calls callee →
    env.signatures.lookup callee = some sig →
    Holds (Lower.op .callsub [.label callee]) (Lower.op .callsub [.label callee])
  choice : ∀ {c c' l l' r r' : Lower Unit}, Holds c c' → Holds l l' → Holds r r' →
    Holds (Lower.choice c l r) (Lower.choice c' l' r')
  ifThen : ∀ {c c' : Lower Unit} {x x' : Lower Bool}, Holds c c' → Holds x x' →
    Holds (Lower.ifThen c x) (Lower.ifThen c' x')
  ifThenElse : ∀ {c c' : Lower Unit} {x x' y y' : Lower Bool}, Holds c c' → Holds x x' →
    Holds y y' → Holds (Lower.ifThenElse c x y) (Lower.ifThenElse c' x' y')
  whileDo : ∀ {c c' : Lower Unit} {x x' : Lower Bool}, Holds c c' → Holds x x' →
    Holds (Lower.whileDo c x) (Lower.whileDo c' x')
  doWhile : ∀ {x x' : Lower Bool} {c c' : Lower Unit}, Holds x x' → Holds c c' →
    Holds (Lower.doWhile x c) (Lower.doWhile x' c')

/-- A property of the first of two steps. -/
abbrev Lower.First (P : {α : Type} → Lower α → Prop) {α : Type} (x _ : Lower α) : Prop := P x

/-- A relation between steps of two runs that is kept by jumps to labels that were made, of which `L`
holds. It is kept by the constructs that are made of such jumps. -/
structure Lower.KeepsJumps (L : String → Prop)
    (Holds : {α : Type} → Lower α → Lower α → Prop) : Prop where
  pure : ∀ {α : Type} {a : α}, Holds (Pure.pure a : Lower α) (Pure.pure a)
  bind : ∀ {α β : Type} {x x' : Lower α} {f f' : α → Lower β}, Holds x x' →
    (∀ a, Holds (f a) (f' a)) → Holds (x >>= f) (x' >>= f')
  builder_bind : ∀ {β : Type} {f f' : Builder → Lower β},
    (∀ b version metrics, Holds (f b) (f' { b with version, metrics })) →
    Holds (Lower.builder >>= f) (Lower.builder >>= f')
  steady : ∀ {x : Build Unit}, Builder.Steady x → Holds (Lower.build x) (Lower.build x)
  fresh : ∀ {β : Type} {purpose : String} {f f' : String → Lower β}, IsLine purpose →
    (∀ l, L l → Holds (f l) (f' l)) →
    Holds (Lower.build (Builder.freshLabel purpose) >>= f)
      (Lower.build (Builder.freshLabel purpose) >>= f')
  branch : ∀ {code : Opcode} {l : String}, code.params = [.label] → code ≠ .callsub → L l →
    Holds (Lower.op code [.label l]) (Lower.op code [.label l])
  label : ∀ {l : String}, L l → Holds (Lower.build (Builder.label l)) (Lower.build (Builder.label l))

namespace Lower.KeepsJumps

variable {L : String → Prop} {Holds : {α : Type} → Lower α → Lower α → Prop}
  (H : KeepsJumps L Holds)
include H

theorem choice {c c' l l' r r' : Lower Unit} (hc : Holds c c') (hl : Holds l l') (hr : Holds r r') :
    Holds (Lower.choice c l r) (Lower.choice c' l' r') := by
  refine H.fresh (by decide) fun _ helse => H.fresh (by decide) fun _ hend => H.bind hc fun _ => ?_
  refine H.bind (H.branch rfl nofun helse) fun _ => H.builder_bind fun _ _ _ => ?_
  refine H.bind hl fun _ => H.builder_bind fun _ _ _ => ?_
  refine H.bind (H.branch rfl nofun hend) fun _ => H.bind (H.label helse) fun _ => ?_
  refine H.bind (H.steady (.restore _)) fun _ => H.bind hr fun _ => ?_
  exact H.bind (H.label hend) fun _ => H.steady (.merge _)

theorem ifThen {c c' : Lower Unit} {x x' : Lower Bool} (hc : Holds c c') (hx : Holds x x') :
    Holds (Lower.ifThen c x) (Lower.ifThen c' x') := by
  refine H.bind hc fun _ => H.fresh (by decide) fun _ hend => ?_
  refine H.bind (H.branch rfl nofun hend) fun _ => H.builder_bind fun _ _ _ => ?_
  refine H.bind hx fun ends => H.bind (H.label hend) fun _ => ?_
  split
  · exact H.bind (H.steady (.restore _)) fun _ => H.pure
  · exact H.bind (H.steady (.merge _)) fun _ => H.pure

theorem ifThenElse {c c' : Lower Unit} {x x' y y' : Lower Bool} (hc : Holds c c')
    (hx : Holds x x') (hy : Holds y y') :
    Holds (Lower.ifThenElse c x y) (Lower.ifThenElse c' x' y') := by
  refine H.bind hc fun _ => H.fresh (by decide) fun _ helse => H.fresh (by decide) fun _ hend => ?_
  refine H.bind (H.branch rfl nofun helse) fun _ => H.builder_bind fun _ _ _ => ?_
  refine H.bind hx fun thenEnds => H.builder_bind fun _ _ _ => ?_
  refine H.bind (H.branch rfl nofun hend) fun _ => H.bind (H.label helse) fun _ => ?_
  refine H.bind (H.steady (.restore _)) fun _ => H.bind hy fun elseEnds => ?_
  refine H.bind (H.label hend) fun _ => ?_
  split
  · exact H.bind (H.steady (.merge _)) fun _ => H.pure
  · exact H.bind (H.steady (.restore _)) fun _ => H.pure
  · exact H.bind H.pure fun _ => H.pure

theorem whileDo {c c' : Lower Unit} {x x' : Lower Bool} (hc : Holds c c') (hx : Holds x x') :
    Holds (Lower.whileDo c x) (Lower.whileDo c' x') := by
  refine H.fresh (by decide) fun _ hstart => H.fresh (by decide) fun _ hend => ?_
  refine H.bind (H.label hstart) fun _ => H.bind hc fun _ => ?_
  refine H.bind (H.branch rfl nofun hend) fun _ => H.builder_bind fun _ _ _ => ?_
  refine H.bind hx fun _ => H.bind (H.branch rfl nofun hstart) fun _ => ?_
  exact H.bind (H.label hend) fun _ => H.bind (H.steady (.restore _)) fun _ => H.pure

theorem doWhile {x x' : Lower Bool} {c c' : Lower Unit} (hx : Holds x x') (hc : Holds c c') :
    Holds (Lower.doWhile x c) (Lower.doWhile x' c') := by
  refine H.fresh (by decide) fun _ hstart => H.bind (H.label hstart) fun _ => ?_
  refine H.builder_bind fun _ _ _ => H.bind hx fun _ => H.bind (H.steady (.restore _)) fun _ => ?_
  exact H.bind hc fun _ => H.bind (H.branch rfl nofun hstart) fun _ => H.pure

end Lower.KeepsJumps

namespace Lower.Relation

variable {α β : Type} {env env' : LowerEnv} {calls : String → Prop}
  (R : Lower.Relation env env' calls)

/-- Nothing comes after a failure. -/
theorem fail_bind {fault : CodeFault} {f f' : α → Lower β} (h : fault.isStated = false) :
    R.Holds (Lower.fail fault >>= f) (Lower.fail fault >>= f') :=
  R.fail fault h

/-- Looking at the code. -/
theorem builder_bind {f f' : Builder → Lower β}
    (h : ∀ b version metrics, R.Holds (f b) (f' { b with version, metrics })) :
    R.Holds (Lower.builder >>= f) (Lower.builder >>= f') :=
  R.get_bind fun s => h s.builder

/-- One of two steps, by a condition that says the same in both runs. -/
theorem ite {c c' : Prop} [Decidable c] [Decidable c'] (hc : c ↔ c') {x x' y y' : Lower α}
    (hx : R.Holds x x') (hy : ¬c → R.Holds y y') :
    R.Holds (if c then x else y) (if c' then x' else y') := by
  by_cases h : c
  · rw [if_pos h, if_pos (hc.1 h)]
    exact hx
  · rw [if_neg h, if_neg (mt hc.2 h)]
    exact hy h

theorem slot? {name : String} : R.Holds (Lower.slot? name) (Lower.slot? name) :=
  R.get_bind fun _ _ _ => R.pure _

theorem isTypeName {e e' : Expr} (hname : e'.asName? = e.asName?) :
    R.Holds (Lower.isTypeName e) (Lower.isTypeName e') := by
  unfold Lower.isTypeName
  rw [hname]
  split
  · exact R.pure _
  · exact R.bind R.slot? fun _ => R.pure _

theorem noteStore {name : String} {type : StackType} :
    R.Holds (Lower.noteStore name type) (Lower.noteStore name type) := by
  refine R.update (fun s => ?_) fun s version metrics => ?_
  · split <;> exact ⟨rfl, rfl, rfl⟩
  · dsimp only
    split <;> rfl

/-- How far a slot is below the top fits in a byte. -/
theorem distance_bind {pos : Nat} {f f' : Nat → Lower β}
    (h : ∀ n ≤ maxImmediate, R.Holds (f n) (f' n)) :
    R.Holds (Lower.distance pos >>= f) (Lower.distance pos >>= f') := by
  have hcases : ∀ f : Nat → Lower β, Lower.distance pos >>= f = (do
      let b ← Lower.builder
      if b.depth < pos then Lower.fail .slotAboveTop
      else if b.depth - pos > maxImmediate then Lower.fail (.slotTooDeep (b.depth - pos))
      else f (b.depth - pos)) := by
    intro f
    rw [Lower.distance, bind_assoc]
    congr 1
    funext b
    by_cases hpos : b.depth < pos
    · rw [if_pos hpos, if_pos hpos]
      rfl
    rw [if_neg hpos, if_neg hpos]
    by_cases hdeep : b.depth - pos > maxImmediate
    · rw [if_pos hdeep, if_pos hdeep]
      rfl
    · rw [if_neg hdeep, if_neg hdeep]
      rfl
  rw [hcases, hcases]
  refine R.builder_bind fun b version metrics => R.ite Iff.rfl (R.fail _ rfl) fun _ => ?_
  exact R.ite Iff.rfl (R.fail _ rfl) fun hle => h _ (Nat.le_of_not_lt hle)

/-! ## Operations -/

/-- An operation without operands is appended only if it has no parameters. -/
theorem op₀ {code : Opcode} : R.Holds (Lower.op₀ code) (Lower.op₀ code) :=
  R.op fun hlength => .nil (List.length_eq_zero_iff.1 hlength.symm)

theorem pushUint {v : UInt64} : R.Holds (Lower.pushUint v) (Lower.pushUint v) :=
  R.op fun _ => .pushint

theorem retypeTop {t : StackType} :
    R.Holds (Lower.build (Builder.retypeTop t)) (Lower.build (Builder.retypeTop t)) :=
  R.steady (.retypeTop t)

theorem popMany (n : Nat) : R.Holds (Lower.popMany n) (Lower.popMany n) := by
  induction n with
  | zero => exact R.pure _
  | succ n ih => exact R.bind R.op₀ fun _ => ih

theorem operator {o : BinaryOperator} : R.Holds (Lower.operator o) (Lower.operator o) := by
  have huint : R.Holds (uintOperator o) (uintOperator o) := by
    unfold uintOperator
    split
    · exact R.op₀
    · exact R.fail _ rfl
  have hbytes : R.Holds (bytesOperator o) (bytesOperator o) := by
    unfold bytesOperator
    split
    · exact R.op₀
    · exact R.fail _ rfl
  refine R.builder_bind fun b version metrics => ?_
  dsimp only [Builder.typeAt?]
  generalize (b.stack[0]?.getD .any) = right
  have hright : R.Holds
      (do if right = .uint64 then Lower.op₀ .itob
          bytesOperator o)
      (do if right = .uint64 then Lower.op₀ .itob
          bytesOperator o) := by
    split
    · exact R.bind R.op₀ fun _ => hbytes
    · exact hbytes
  split
  · exact huint
  split
  · exact R.fail _ rfl
  split
  · exact huint
  split
  · exact R.bind R.op₀ fun _ => R.bind R.op₀ fun _ => R.bind R.op₀ fun _ => hright
  · exact hright

theorem unaryOperator {o : UnaryOperator} :
    R.Holds (Lower.unaryOperator o) (Lower.unaryOperator o) := by
  cases o with
  | not => exact R.op₀
  | complement => exact R.builder_bind fun _ _ _ => R.ite Iff.rfl R.op₀ fun _ => R.op₀

theorem cast {target target' : Expr} (hname : target'.asName? = target.asName?)
    (htext : target'.display = target.display) {x x' : Lower Unit} (hx : R.Holds x x') :
    R.Holds (Lower.cast target x) (Lower.cast target' x') := by
  unfold Lower.cast
  rw [hname, htext]
  split
  · exact R.fail _ rfl
  split
  · exact R.fail _ rfl
  refine R.bind hx fun _ => R.builder_bind fun b version metrics => ?_
  dsimp only [Builder.top?, Builder.typeAt?]
  split
  · split
    · exact R.op₀
    · exact R.retypeTop
  split
  · split
    · exact R.op₀
    · exact R.retypeTop
  split
  · exact R.retypeTop
  split
  · split
    · exact R.bind R.op₀ fun _ => R.retypeTop
    · exact R.retypeTop
  · exact R.fail _ rfl

/-! ## Local variables and places -/

theorem replaceSlot {n : Nat} (h : n ≤ maxImmediate) :
    R.Holds (Lower.replaceSlot n) (Lower.replaceSlot n) := by
  match n with
  | 0 => exact R.fail _ rfl
  | 1 => exact R.bind R.op₀ fun _ => R.op₀
  | n + 2 =>
    refine R.bind (R.op fun _ => .height rfl h) fun _ => ?_
    exact R.bind (R.op fun _ => .height rfl (Nat.le_of_succ_le h)) fun _ => R.op₀

theorem store {target target' : Expr} (hname : target'.asName? = target.asName?)
    (htext : target'.display = target.display) {x x' : Lower Unit} (hx : R.Holds x x')
    {keep : Bool} : R.Holds (Lower.store target x keep) (Lower.store target' x' keep) := by
  unfold Lower.store
  rw [hname, htext]
  split
  · exact R.fail _ rfl
  refine R.bind R.slot? fun slot => ?_
  split
  · exact R.fail _ rfl
  refine R.bind hx fun _ => R.builder_bind fun b version metrics => ?_
  dsimp only [Builder.top?, Builder.typeAt?]
  split
  · exact R.bind R.op₀ fun _ => R.distance_bind fun n hn =>
      R.bind (R.replaceSlot hn) fun _ => R.noteStore
  · exact R.distance_bind fun n hn => R.bind (R.replaceSlot hn) fun _ => R.noteStore

/-- Reading a name, of which the same is known in both runs. -/
theorem loadName {o o' : Nat} (ho : env'.localType? o' = env.localType? o) {name place : String} :
    R.Holds (Lower.loadName name o place) (Lower.loadName name o' place) := by
  refine R.bind R.slot? fun slot => ?_
  cases slot with
  | none =>
    refine R.read_bind ?_
    rw [R.entry]
    split
    · exact R.pushUint
    · exact R.fail _ rfl
  | some slot =>
    have hread : R.Holds (Lower.readType? o slot) (Lower.readType? o' slot) := by
      refine R.read_bind ?_
      rw [ho]
      split <;> exact R.pure _
    refine R.distance_bind fun n hn => R.bind (R.op fun _ => .height rfl hn) fun _ =>
      R.bind hread fun type => ?_
    cases type with
    | none => exact R.pure _
    | some t => exact R.retypeTop

theorem typed {code : Opcode} {operands : List Operand} {type : StackType}
    (h : code.Regular operands) :
    R.Holds (Lower.typed code operands type) (Lower.typed code operands type) :=
  R.bind (R.op fun _ => h) fun _ => R.retypeTop

theorem loadElement {a : LedgerArray} (ha : IsLine a.elements) {k : Option UInt64}
    (hk : ∀ n ∈ k, n.toNat ≤ maxImmediate) {x x' : Lower Unit} (hx : R.Holds x x') :
    R.Holds (Lower.loadElement a ⟨k, x⟩) (Lower.loadElement a ⟨k, x'⟩) := by
  cases k with
  | some k => exact R.typed (.txna ha (hk k rfl))
  | none => exact R.bind hx fun _ => R.typed (.field rfl ha)

/-! ## Calls -/

theorem hash {x x' : Lower Unit} (hx : R.Holds x x') {algorithm algorithm' : Expr}
    (hname : algorithm'.asName? = algorithm.asName?)
    (htext : algorithm'.display = algorithm.display) :
    R.Holds (Lower.hash x algorithm) (Lower.hash x' algorithm') := by
  have hcode : Lower.hashOpcode? algorithm' = Lower.hashOpcode? algorithm := by
    rw [Lower.hashOpcode?, hname, Lower.hashOpcode?]
  unfold Lower.hash
  rw [hcode, htext]
  split
  · exact R.fail _ rfl
  refine R.bind hx fun _ => R.builder_bind fun _ _ _ => ?_
  exact R.ite Iff.rfl (R.bind R.op₀ fun _ => R.op₀) fun _ => R.op₀

theorem argument {callee : String} {e e' : Expr} (htext : e'.display = e.display)
    {x x' : Lower Unit} (hx : R.Holds x x') :
    R.Holds (Lower.argument callee e x) (Lower.argument callee e' x') := by
  unfold Lower.argument
  rw [htext]
  exact R.builder_bind fun _ _ _ => R.bind hx fun _ => R.builder_bind fun _ _ _ =>
    R.ite Iff.rfl (R.fail _ rfl) fun _ => R.pure _

theorem call {callee : String} {count : Nat} (hcallee : calls callee) {x x' : Lower Unit}
    (hx : R.Holds x x') : R.Holds (Lower.call callee count x) (Lower.call callee count x') := by
  refine R.read_bind ?_
  rw [R.signature hcallee]
  split
  case h_1 => exact R.fail _ rfl
  case h_2 sig hsig =>
    exact R.bind hx fun _ => R.bind (R.callsub hcallee hsig) fun _ => R.steady (.callEffect _ _)

/-! ## Statements -/

theorem declareAll (names : List String) :
    R.Holds (Lower.declareAll names) (Lower.declareAll names) := by
  have hdeclare : ∀ n, R.Holds (Lower.declare n) (Lower.declare n) := fun n =>
    R.bind R.pushUint fun _ => R.bind (R.steady .placeholder) fun _ =>
      R.update (fun _ => ⟨rfl, rfl, rfl⟩) fun _ _ _ => rfl
  induction names with
  | nil => exact R.pure _
  | cons n ns ih =>
    refine R.bind R.slot? fun slot => ?_
    split
    · exact R.bind (hdeclare n) fun _ => ih
    · exact ih

theorem leaveBlock {ends : Bool} : R.Holds (Lower.leaveBlock ends) (Lower.leaveBlock ends) := by
  refine R.get_bind fun s version metrics => ?_
  dsimp only
  split
  · exact R.fail _ rfl
  refine R.bind (R.update (fun _ => ⟨rfl, rfl, rfl⟩) fun _ _ _ => rfl) fun _ => ?_
  split
  · exact R.steady (.forget _)
  exact R.builder_bind fun _ _ _ => R.ite Iff.rfl (R.fail_bind rfl) fun _ => R.popMany _

theorem block {names : List String} {x x' : Lower Bool} (hx : R.Holds x x') :
    R.Holds (Lower.block names x) (Lower.block names x') :=
  R.bind (R.update (fun _ => ⟨rfl, rfl, rfl⟩) fun _ _ _ => rfl) fun _ =>
    R.bind (R.declareAll names) fun _ => R.bind hx fun _ => R.bind R.leaveBlock fun _ => R.pure _

/-- A conditional statement, whose alternative may be there or not. -/
theorem ifElse {c c' : Lower Unit} {x x' : Lower Bool} {y y' : Option (Lower Bool)}
    (hc : R.Holds c c') (hx : R.Holds x x') (hy : Option.Rel R.Holds y y') :
    R.Holds (Lower.ifElse c x y) (Lower.ifElse c' x' y') := by
  cases hy with
  | none => exact R.ifThen hc hx
  | some hy => exact R.ifThenElse hc hx hy

theorem andThen {x x' y y' : Lower Bool} (hx : R.Holds x x') (hy : R.Holds y y') :
    R.Holds (Lower.andThen x y) (Lower.andThen x' y') := by
  refine R.bind hx fun ends => ?_
  split
  · exact R.pure _
  · exact hy

theorem dropBelowTop : R.Holds Lower.dropBelowTop Lower.dropBelowTop := by
  refine R.builder_bind fun b _ _ => ?_
  dsimp only [Builder.depth]
  split
  · exact R.pure _
  · exact R.bind R.op₀ fun _ => R.op₀
  · refine R.ite Iff.rfl (R.fail_bind rfl) fun hle => ?_
    exact R.bind (R.op fun _ => .height rfl (Nat.le_of_not_lt hle)) fun _ => R.popMany _

end Lower.Relation

end ContractCompiler
